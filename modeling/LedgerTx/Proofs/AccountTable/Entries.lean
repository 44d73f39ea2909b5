import LedgerTx.Proofs.AccountTable.Contributions

/-! The entries of all lookups together. A key that may be loaded and that some table lists has one entry, for
the first such table and the first place where that lists it, on the side that it is asked for; and there
are no other entries. -/

namespace LedgerTx

variable {requests : Requests} {tables : List LookupTable} {key : Pubkey} {writable : Bool}

/-- The position of the first table that lists a key. -/
def LookupTable.firstListing? (tables : List LookupTable) (key : Pubkey) : Option Nat :=
  tables.findIdx? fun table => table.addresses.contains key

theorem LookupTable.firstListing?_eq_some {t : Nat} : firstListing? tables key = some t ↔
    ∃ table, tables[t]? = some table ∧ key ∈ table.addresses ∧
      ¬∃ earlier ∈ tables.take t, key ∈ earlier.addresses := by
  rw [firstListing?, List.findIdx?_eq_some_iff_getElem]
  refine ⟨?_, ?_⟩
  · rintro ⟨hlt, hlists, hearlier⟩
    refine ⟨tables[t], List.getElem?_eq_getElem hlt, List.contains_iff_mem.1 hlists, ?_⟩
    rintro ⟨earlier, hmem, hkey⟩
    obtain ⟨j, hj, rfl⟩ := List.mem_take_iff_getElem.1 hmem
    exact hearlier j (Nat.lt_min.1 hj).1 (List.contains_iff_mem.2 hkey)
  · rintro ⟨table, htable, hkey, hearlier⟩
    obtain ⟨hlt, rfl⟩ := List.getElem?_eq_some_iff.1 htable
    refine ⟨hlt, List.contains_iff_mem.2 hkey, ?_⟩
    intro j hj hlists
    have hmem : tables[j] ∈ tables.take t :=
      List.mem_take_iff_getElem.2 ⟨j, Nat.lt_min.2 ⟨hj, Nat.lt_trans hj hlt⟩, rfl⟩
    exact hearlier ⟨tables[j], hmem, List.contains_iff_mem.1 hlists⟩

theorem LookupTable.listed_of_firstListing? {t : Nat} (h : firstListing? tables key = some t) :
    ∃ table ∈ tables, key ∈ table.addresses := by
  obtain ⟨table, htable, haddress, -⟩ := firstListing?_eq_some.1 h
  exact ⟨table, List.mem_of_getElem? htable, haddress⟩

theorem LookupTable.exists_firstListing? (h : ∃ table ∈ tables, key ∈ table.addresses) :
    ∃ t, firstListing? tables key = some t := by
  obtain ⟨table, hmem, haddress⟩ := h
  apply Option.isSome_iff_exists.1
  rw [firstListing?, List.findIdx?_isSome, List.any_eq_true]
  exact ⟨table, hmem, List.contains_iff_mem.2 haddress⟩

/-- One entry of the lookups that tables gave: the position of its table, its side and its place there. -/
structure LookupEntry where
  table : Nat
  writable : Bool
  place : UInt8
  deriving DecidableEq

namespace LookupEntry

/-- The key that an entry stands for. -/
def key? (tables : List LookupTable) (entry : LookupEntry) : Option Pubkey :=
  tables[entry.table]?.bind fun table => table.addresses[entry.place.toNat]?

/-- An entry is for the first table that lists a key, and for the first place where that lists it. -/
structure IsFirst (tables : List LookupTable) (key : Pubkey) (entry : LookupEntry) : Prop where
  table : LookupTable.firstListing? tables key = some entry.table
  place : tables[entry.table]?.bind (fun table => table.addresses.idxOf? key) = some entry.place.toNat

/-- The entries of the lookup that the table at a position gave. -/
def ofLookup (t : Nat) (lookup : TableLookup) : List LookupEntry :=
  lookup.writable.map (LookupEntry.mk t true) ++ lookup.readonly.map (LookupEntry.mk t false)

/-- All entries, where each table gave a lookup or none. -/
def all (given : List (Option TableLookup)) : List LookupEntry :=
  given.zipIdx.flatMap fun (lookup?, t) => lookup?.toList.flatMap (ofLookup t)

variable {entry other : LookupEntry} {given : List (Option TableLookup)} {t : Nat} {lookup : TableLookup}

theorem mem_ofLookup :
    entry ∈ ofLookup t lookup ↔ t = entry.table ∧ entry.place ∈ lookup.side entry.writable := by
  obtain ⟨u, writable, place⟩ := entry
  cases writable <;> simp [ofLookup, TableLookup.side, and_comm]

theorem nodup_ofLookup (h : ∀ writable, (lookup.side writable).Nodup) : (ofLookup t lookup).Nodup := by
  have hside : ∀ writable, Function.Injective (LookupEntry.mk t writable) := by
    rintro writable place _ ⟨⟩
    rfl
  refine List.nodup_append'.2 ⟨(h true).map (hside true), (h false).map (hside false), ?_⟩
  intro entry hwritable hreadonly
  obtain ⟨place, -, rfl⟩ := List.mem_map.1 hwritable
  obtain ⟨_, -, heq⟩ := List.mem_map.1 hreadonly
  cases heq

theorem mem_all : entry ∈ all given ↔
    ∃ lookup, given[entry.table]? = some (some lookup) ∧ entry.place ∈ lookup.side entry.writable := by
  simp only [all, List.mem_flatMap, List.mem_zipIdx_iff_getElem?, Option.mem_toList, mem_ofLookup]
  refine ⟨?_, ?_⟩
  · rintro ⟨⟨_, t⟩, hgiven, lookup, rfl, rfl, hplace⟩
    exact ⟨lookup, hgiven, hplace⟩
  · rintro ⟨lookup, hgiven, hplace⟩
    exact ⟨(some lookup, entry.table), hgiven, lookup, rfl, rfl, hplace⟩

/-- Entries of different lookups differ in the position of their tables. -/
theorem nodup_all
    (h : ∀ (t : Nat) (lookup : TableLookup), given[t]? = some (some lookup) →
      ∀ writable, (lookup.side writable).Nodup) :
    (all given).Nodup := by
  refine List.nodup_flatMap.2 ⟨?_, ?_⟩
  · rintro ⟨lookup?, t⟩ hmem
    rw [List.mem_zipIdx_iff_getElem?] at hmem
    cases lookup? with
    | none => exact List.nodup_nil
    | some lookup =>
        change (List.flatMap (ofLookup t) [lookup]).Nodup
        rw [List.flatMap_singleton]
        exact nodup_ofLookup (h t lookup hmem)
  · have hpositions : (given.zipIdx.map Prod.snd).Nodup := by
      rw [List.zipIdx_map_snd]
      exact List.nodup_range'
    refine (List.pairwise_map.1 hpositions).imp ?_
    intro x y hne entry hx hy
    obtain ⟨_, -, hx⟩ := List.mem_flatMap.1 hx
    obtain ⟨_, -, hy⟩ := List.mem_flatMap.1 hy
    exact hne ((mem_ofLookup.1 hx).1.trans (mem_ofLookup.1 hy).1.symm)

theorem isFirst_iff : entry.IsFirst tables key ↔ ∃ table, tables[entry.table]? = some table ∧
    table.addresses.idxOf? key = some entry.place.toNat ∧
      ¬∃ earlier ∈ tables.take entry.table, key ∈ earlier.addresses := by
  refine ⟨?_, ?_⟩
  · rintro ⟨hfirst, hplace⟩
    obtain ⟨table, htable, hplace⟩ := Option.bind_eq_some_iff.1 hplace
    obtain ⟨-, -, -, hearlier⟩ := LookupTable.firstListing?_eq_some.1 hfirst
    exact ⟨table, htable, hplace, hearlier⟩
  · rintro ⟨table, htable, hplace, hearlier⟩
    obtain ⟨_, haddress, -⟩ := List.idxOf?_eq_some_iff.1 hplace
    exact ⟨LookupTable.firstListing?_eq_some.2 ⟨table, htable, List.mem_of_getElem haddress, hearlier⟩,
      Option.bind_eq_some_iff.2 ⟨table, htable, hplace⟩⟩

theorem IsFirst.key?_eq (h : entry.IsFirst tables key) : entry.key? tables = some key := by
  obtain ⟨table, htable, hplace, -⟩ := isFirst_iff.1 h
  obtain ⟨hlt, hkey, -⟩ := List.idxOf?_eq_some_iff.1 hplace
  rw [key?, htable, Option.bind_some, List.getElem?_eq_some_iff]
  exact ⟨hlt, hkey⟩

theorem IsFirst.unique (h : entry.IsFirst tables key) (hother : other.IsFirst tables key)
    (hside : entry.writable = other.writable) : entry = other := by
  obtain ⟨t, writable, place⟩ := entry
  obtain ⟨u, _, otherPlace⟩ := other
  cases hside
  cases Option.some.inj (h.table.symm.trans hother.table)
  have hplace : place.toNat = otherPlace.toNat := Option.some.inj (h.place.symm.trans hother.place)
  rw [UInt8.toNat_inj.1 hplace]

end LookupEntry

namespace Requests

theorem nodup_entries_contributions (hascending : requests.Ascending) (hplaces : requests.PlacesFit tables) :
    (LookupEntry.all (requests.contributions tables)).Nodup := by
  apply LookupEntry.nodup_all
  intro t lookup hlookup writable
  obtain ⟨table, htable, rfl⟩ := getElem?_contributions_eq_some hlookup
  exact LookupTable.nodup_side_lookup (hascending.unlisted _) (hplaces t table htable) writable

/-- The entries of all lookups are those for a key that may be loaded, on the side that it is asked for, in
the first table that lists the key. -/
theorem mem_entries_contributions {entry : LookupEntry} (hplaces : requests.PlacesFit tables) :
    entry ∈ LookupEntry.all (requests.contributions tables) ↔
      ∃ key ∈ requests.keysWith (Access.isLoadable entry.writable), entry.IsFirst tables key := by
  simp only [LookupEntry.mem_all, getElem?_contributions, Option.map_eq_some_iff, LookupEntry.isFirst_iff]
  refine ⟨?_, ?_⟩
  · rintro ⟨lookup, ⟨table, htable, hlookup⟩, hplace⟩
    obtain ⟨key, hkey, hi⟩ :=
      (LookupTable.exists_mem_side_lookup? (hplaces _ _ htable)).1 ⟨lookup, hlookup, hplace⟩
    obtain ⟨hkey, hearlier⟩ := mem_keysWith_unlisted.1 hkey
    exact ⟨key, hkey, table, htable, hi, hearlier⟩
  · rintro ⟨key, hkey, table, htable, hi, hearlier⟩
    obtain ⟨lookup, hlookup, hplace⟩ := (LookupTable.exists_mem_side_lookup? (hplaces _ _ htable)).2
      ⟨key, mem_keysWith_unlisted.2 ⟨hkey, hearlier⟩, hi⟩
    exact ⟨lookup, ⟨table, htable, hlookup⟩, hplace⟩

/-- A table gives a lookup if it is the first one to list some key that may be loaded. -/
theorem exists_getElem?_contributions {t : Nat} :
    (∃ lookup, (requests.contributions tables)[t]? = some (some lookup)) ↔
      ∃ key, (∃ writable, key ∈ requests.keysWith (Access.isLoadable writable)) ∧
        LookupTable.firstListing? tables key = some t := by
  simp only [getElem?_contributions, Option.map_eq_some_iff, LookupTable.firstListing?_eq_some]
  refine ⟨?_, ?_⟩
  · rintro ⟨lookup, table, htable, hlookup⟩
    have hsome : table.lookup? (requests.unlisted (tables.take t)) ≠ none := by
      rw [hlookup]
      nofun
    rw [Ne, LookupTable.lookup?_eq_none_iff] at hsome
    push Not at hsome
    obtain ⟨writable, key, hkey, haddress⟩ := hsome
    obtain ⟨hkey, hearlier⟩ := mem_keysWith_unlisted.1 hkey
    exact ⟨key, ⟨writable, hkey⟩, table, htable, haddress, hearlier⟩
  · rintro ⟨key, ⟨writable, hkey⟩, table, htable, haddress, hearlier⟩
    have hsome : table.lookup? (requests.unlisted (tables.take t)) ≠ none := by
      intro hnone
      exact LookupTable.lookup?_eq_none_iff.1 hnone writable key
        (mem_keysWith_unlisted.2 ⟨hkey, hearlier⟩) haddress
    obtain ⟨lookup, hlookup⟩ := Option.ne_none_iff_exists'.1 hsome
    exact ⟨lookup, table, htable, hlookup⟩

theorem exists_isFirst (hplaces : requests.PlacesFit tables)
    (hkey : key ∈ requests.keysWith (Access.isLoadable writable))
    (hlisted : ∃ table ∈ tables, key ∈ table.addresses) :
    ∃ entry : LookupEntry, entry.writable = writable ∧ entry.IsFirst tables key := by
  obtain ⟨t, ht⟩ := LookupTable.exists_firstListing? hlisted
  obtain ⟨table, htable, haddress, hearlier⟩ := LookupTable.firstListing?_eq_some.1 ht
  obtain ⟨i, hi⟩ : ∃ i, table.addresses.idxOf? key = some i := by
    apply Option.ne_none_iff_exists'.1
    intro hnone
    exact List.idxOf?_eq_none_iff.1 hnone haddress
  have hlisted : (key, i) ∈ table.listed writable (requests.unlisted (tables.take t)) :=
    LookupTable.mem_listed.2 ⟨mem_keysWith_unlisted.2 ⟨hkey, hearlier⟩, hi⟩
  have hplace : (UInt8.ofNat i).toNat = i :=
    UInt8.toNat_ofNat_of_lt' (Nat.lt_succ_of_le (hplaces t table htable writable (key, i) hlisted))
  refine ⟨⟨t, writable, UInt8.ofNat i⟩, rfl, ht, ?_⟩
  rw [hplace]
  exact Option.bind_eq_some_iff.2 ⟨table, htable, hi⟩

/-- A key that may be loaded and is listed has one entry among all lookups, and that one is for its first
place in the first table that lists it. -/
theorem filter_entries_contributions (hascending : requests.Ascending) (hplaces : requests.PlacesFit tables)
    {entry : LookupEntry} (hkey : key ∈ requests.keysWith (Access.isLoadable entry.writable))
    (hfirst : entry.IsFirst tables key) :
    (LookupEntry.all (requests.contributions tables)).filter (fun other => other.key? tables = some key) =
      [entry] := by
  have hnodup := (nodup_entries_contributions hascending hplaces).filter
    fun other => decide (other.key? tables = some key)
  rw [← List.perm_singleton, List.perm_ext_iff_of_nodup hnodup (List.nodup_singleton entry)]
  intro other
  rw [List.mem_filter, List.mem_singleton, decide_eq_true_iff, mem_entries_contributions hplaces]
  refine ⟨?_, ?_⟩
  · rintro ⟨⟨k, hk, hother⟩, hsame⟩
    cases Option.some.inj (hother.key?_eq.symm.trans hsame)
    exact hother.unique hfirst (hascending.isLoadable_unique hk hkey)
  · rintro rfl
    exact ⟨⟨key, hkey, hfirst⟩, hfirst.key?_eq⟩

end Requests

end LedgerTx
