import LedgerTx.Proofs.AccountTable.Lookups
import Mathlib.Data.List.ReduceOption

/-! What each of a list of tables takes. A table takes from what the ones before it left, but what it takes
can be said of the requests at the start: the keys that may be loaded, that it lists and that none before
it lists. So the tables that give a lookup are told without running through them, and so are the requests
that are left in the end, whatever the tables share. -/

namespace LedgerTx

variable {requests left : Requests} {table : LookupTable} {tables : List LookupTable} {key : Pubkey}
  {writable : Bool}

namespace Requests

/-- The requests without the keys that may be loaded and are listed in a table. -/
def unlisted (tables : List LookupTable) (requests : Requests) : Requests :=
  requests.filter fun request => !(request.2.isLoadable request.2.writable &&
    tables.any fun table => table.addresses.contains request.1)

theorem mem_unlisted {access : Access} :
    (key, access) ∈ requests.unlisted tables ↔ (key, access) ∈ requests ∧
      ¬(access.isLoadable access.writable = true ∧ ∃ table ∈ tables, key ∈ table.addresses) := by
  rw [unlisted, List.mem_filter]
  apply and_congr_right
  intro _
  rw [Bool.not_eq_true', ← Bool.not_eq_true, Bool.and_eq_true, List.any_eq_true]
  simp only [List.contains_iff_mem]

theorem unlisted_nil : requests.unlisted [] = requests :=
  List.filter_eq_self.2 fun _ _ => by rw [List.any_nil, Bool.and_false, Bool.not_false]

theorem unlisted_cons :
    requests.unlisted (table :: tables) = (requests.unlisted [table]).unlisted tables := by
  unfold unlisted
  rw [List.filter_filter]
  apply List.filter_congr
  intro request _
  rw [List.any_cons, List.any_cons, List.any_nil, Bool.or_false]
  cases request.2.isLoadable request.2.writable <;> cases table.addresses.contains request.1 <;>
    cases tables.any fun table => table.addresses.contains request.1 <;> rfl

theorem mem_keysWith_unlisted :
    key ∈ (requests.unlisted tables).keysWith (Access.isLoadable writable) ↔
      key ∈ requests.keysWith (Access.isLoadable writable) ∧ ¬∃ table ∈ tables, key ∈ table.addresses := by
  have hside : ∀ {access : Access}, access.isLoadable writable = true →
      access.isLoadable access.writable = true := by
    intro access hloadable
    rwa [(Access.isLoadable_iff.1 hloadable).2.2]
  simp only [mem_keysWith, Asks, mem_unlisted]
  refine ⟨?_, ?_⟩
  · rintro ⟨access, ⟨hmem, hunlisted⟩, hloadable⟩
    exact ⟨⟨access, hmem, hloadable⟩, fun hlisted => hunlisted ⟨hside hloadable, hlisted⟩⟩
  · rintro ⟨⟨access, hmem, hloadable⟩, hunlisted⟩
    exact ⟨access, ⟨hmem, fun h => hunlisted h.2⟩, hloadable⟩

/-- A key may be loaded, on one side or the other, if what is asked of it allows it. -/
theorem Ascending.exists_isLoadable_iff (h : requests.Ascending) {access : Access}
    (hmem : (key, access) ∈ requests) :
    (∃ writable, key ∈ requests.keysWith (Access.isLoadable writable)) ↔
      access.isLoadable access.writable = true := by
  simp only [mem_keysWith, h.asks_iff hmem]
  refine ⟨?_, fun hloadable => ⟨_, hloadable⟩⟩
  rintro ⟨writable, hloadable⟩
  rwa [(Access.isLoadable_iff.1 hloadable).2.2]

/-- A key may be loaded on one side only. -/
theorem Ascending.isLoadable_unique (h : requests.Ascending) {other : Bool}
    (hkey : key ∈ requests.keysWith (Access.isLoadable writable))
    (hother : key ∈ requests.keysWith (Access.isLoadable other)) : writable = other := by
  obtain ⟨access, hmem, hloadable⟩ := mem_keysWith.1 hkey
  rw [mem_keysWith, h.asks_iff hmem] at hother
  exact (Access.isLoadable_iff.1 hloadable).2.2.symm.trans (Access.isLoadable_iff.1 hother).2.2

theorem Ascending.mem_keys_unlisted (h : requests.Ascending) :
    key ∈ (requests.unlisted tables).map Prod.fst ↔ key ∈ requests.map Prod.fst ∧
      ¬((∃ writable, key ∈ requests.keysWith (Access.isLoadable writable)) ∧
        ∃ table ∈ tables, key ∈ table.addresses) := by
  simp only [mem_keys_iff_asks, Asks, mem_unlisted, and_true]
  refine ⟨?_, ?_⟩
  · rintro ⟨access, hmem, hunlisted⟩
    exact ⟨⟨access, hmem⟩, by rwa [h.exists_isLoadable_iff hmem]⟩
  · rintro ⟨⟨access, hmem⟩, hunlisted⟩
    exact ⟨access, hmem, by rwa [← h.exists_isLoadable_iff hmem]⟩

end Requests

/-! ### What a table gives -/

/-- The places on one side of a lookup. -/
def TableLookup.side (lookup : TableLookup) : (writable : Bool) → Bytes
  | true => lookup.writable
  | false => lookup.readonly

namespace LookupTable

theorem mem_listed {entry : Pubkey × Nat} :
    entry ∈ table.listed writable requests ↔
      entry.1 ∈ requests.keysWith (Access.isLoadable writable) ∧
        table.addresses.idxOf? entry.1 = some entry.2 := by
  simp only [listed, List.mem_filterMap, Option.map_eq_some_iff]
  refine ⟨?_, ?_⟩
  · rintro ⟨key, hkey, i, hi, rfl⟩
    exact ⟨hkey, hi⟩
  · rintro ⟨hkey, hi⟩
    exact ⟨entry.1, hkey, entry.2, hi, rfl⟩

theorem mem_map_listed :
    key ∈ (table.listed writable requests).map Prod.fst ↔
      key ∈ requests.keysWith (Access.isLoadable writable) ∧ key ∈ table.addresses := by
  simp only [List.mem_map, mem_listed]
  refine ⟨?_, ?_⟩
  · rintro ⟨entry, ⟨hkey, hi⟩, rfl⟩
    obtain ⟨hlt, hget, -⟩ := List.idxOf?_eq_some_iff.1 hi
    exact ⟨hkey, List.mem_of_getElem hget⟩
  · rintro ⟨hkey, haddress⟩
    obtain ⟨i, hi⟩ := Option.ne_none_iff_exists'.1 fun hnone => List.idxOf?_eq_none_iff.1 hnone haddress
    exact ⟨(key, i), ⟨hkey, hi⟩, rfl⟩

/-- The places of what the table lists of the requests, as a lookup has them. -/
def lookup (table : LookupTable) (requests : Requests) : TableLookup :=
  let places (writable : Bool) : Bytes :=
    (table.listed writable requests).map fun entry => UInt8.ofNat entry.2
  ⟨table.key, places true, places false⟩

/-- The lookup of a table, unless the table lists nothing of the requests. -/
def lookup? (table : LookupTable) (requests : Requests) : Option TableLookup :=
  if (table.listed true requests ++ table.listed false requests).isEmpty then none
  else some (table.lookup requests)

theorem length_pos_of_lookup?_eq_some {lookup : TableLookup} (h : table.lookup? requests = some lookup) :
    0 < (lookup.writable ++ lookup.readonly).length := by
  unfold lookup? at h
  split_ifs at h with hempty
  cases h
  rw [List.isEmpty_iff, ← Ne, ← List.length_pos_iff] at hempty
  simpa [LookupTable.lookup] using hempty

theorem side_lookup (writable : Bool) :
    (table.lookup requests).side writable =
      (table.listed writable requests).map fun entry => UInt8.ofNat entry.2 := by
  cases writable <;> rfl

theorem lookup?_eq_some {lookup : TableLookup} (h : table.lookup? requests = some lookup) :
    lookup = table.lookup requests := by
  unfold lookup? at h
  split_ifs at h
  exact (Option.some.inj h).symm

/-- The places of what a table lists are bytes. -/
def Fits (table : LookupTable) (requests : Requests) : Prop :=
  ∀ writable, ∀ entry ∈ table.listed writable requests, entry.2 ≤ 255

theorem mem_listed_sides (hascending : requests.Ascending) {access : Access}
    (hmem : (key, access) ∈ requests) :
    key ∈ (table.listed true requests).map Prod.fst ++ (table.listed false requests).map Prod.fst ↔
      access.isLoadable access.writable = true ∧ key ∈ table.addresses := by
  rw [List.mem_append, mem_map_listed, mem_map_listed, ← or_and_right,
    ← hascending.exists_isLoadable_iff hmem, Bool.exists_bool, or_comm]

theorem lookup?_eq_none_iff : table.lookup? requests = none ↔
    ∀ writable, ∀ key ∈ requests.keysWith (Access.isLoadable writable), key ∉ table.addresses := by
  have hnone : table.lookup? requests = none ↔
      ∀ writable, (table.listed writable requests).map Prod.fst = [] := by
    simp only [lookup?, List.isEmpty_iff, List.append_eq_nil_iff, List.map_eq_nil_iff, Bool.forall_bool]
    split_ifs with hempty
    · exact iff_of_true rfl hempty.symm
    · exact iff_of_false nofun fun h => hempty h.symm
  rw [hnone]
  apply forall_congr'
  intro writable
  simp only [List.eq_nil_iff_forall_not_mem, mem_map_listed, not_and]

theorem without_listed_eq_unlisted (hascending : requests.Ascending) :
    requests.without ⟨(table.listed true requests).map Prod.fst, (table.listed false requests).map Prod.fst⟩ =
      requests.unlisted [table] := by
  apply List.filter_congr
  rintro ⟨key, access⟩ hmem
  rw [Bool.eq_iff_iff, Bool.not_eq_true', Bool.not_eq_true', ← Bool.not_eq_true, ← Bool.not_eq_true,
    List.contains_iff_mem, LoadedAddresses.keys, mem_listed_sides hascending hmem, Bool.and_eq_true,
    List.any_cons, List.any_nil, Bool.or_false, List.contains_iff_mem]

theorem fits_of_any_eq_false
    (h : ((table.listed true requests ++ table.listed false requests).any fun entry => 255 < entry.2) = false) :
    table.Fits requests := by
  intro writable entry hentry
  have hmem : entry ∈ table.listed true requests ++ table.listed false requests := by
    cases writable with
    | true => exact List.mem_append_left _ hentry
    | false => exact List.mem_append_right _ hentry
  exact Nat.not_lt.1 fun hlt => List.any_eq_false.1 h entry hmem (decide_eq_true hlt)

/-- What a table takes is what it lists of the requests, and all of it. -/
theorem take?_eq_ok (hascending : requests.Ascending) {found : Option (TableLookup × LoadedAddresses)}
    (h : table.take? requests = .ok found) :
    table.Fits requests ∧ found.map Prod.fst = table.lookup? requests ∧
      (found.elim requests fun taken => requests.without taken.2) = requests.unlisted [table] := by
  simp only [take?] at h
  rw [← without_listed_eq_unlisted hascending, lookup?]
  split_ifs at h with hlarge hnone
  · cases h
    have hempty := List.append_eq_nil_iff.1 (List.isEmpty_iff.1 hnone)
    refine ⟨fits_of_any_eq_false (Bool.eq_false_iff.2 hlarge), (if_pos hnone).symm, ?_⟩
    rw [hempty.1, hempty.2]
    exact (List.filter_eq_self.2 fun _ _ => rfl).symm
  · cases h
    exact ⟨fits_of_any_eq_false (Bool.eq_false_iff.2 hlarge), (if_neg hnone).symm, rfl⟩

theorem mem_side_lookup (hfits : table.Fits requests) {place : UInt8} :
    place ∈ (table.lookup requests).side writable ↔
      ∃ key ∈ requests.keysWith (Access.isLoadable writable),
        table.addresses.idxOf? key = some place.toNat := by
  simp only [side_lookup, List.mem_map]
  refine ⟨?_, ?_⟩
  · rintro ⟨entry, hentry, rfl⟩
    have hplace : (UInt8.ofNat entry.2).toNat = entry.2 :=
      UInt8.toNat_ofNat_of_lt' (Nat.lt_succ_of_le (hfits writable entry hentry))
    obtain ⟨hkey, hi⟩ := mem_listed.1 hentry
    exact ⟨entry.1, hkey, by rw [hplace, hi]⟩
  · rintro ⟨key, hkey, hi⟩
    exact ⟨(key, place.toNat), mem_listed.2 ⟨hkey, hi⟩, UInt8.ofNat_toNat⟩

/-- Different keys have different first places in a table. -/
theorem nodup_side_lookup (hascending : requests.Ascending) (hfits : table.Fits requests) (writable : Bool) :
    ((table.lookup requests).side writable).Nodup := by
  have hlisted : (table.listed writable requests).Nodup :=
    ((hascending.nodup_keysWith _).sublist (table.listed_sublist writable requests)).of_map
  rw [side_lookup]
  refine hlisted.map_on ?_
  intro entry hentry other hother hsame
  have hi := getElem?_of_mem_listed hentry (hfits writable entry hentry)
  have hj := getElem?_of_mem_listed hother (hfits writable other hother)
  have hkey : entry.1 = other.1 := Option.some.inj (hi.symm.trans (hsame ▸ hj))
  have hplace := (mem_listed.1 hentry).2
  rw [hkey] at hplace
  exact Prod.ext hkey (Option.some.inj (hplace.symm.trans (mem_listed.1 hother).2))

/-- A table that gives no lookup lists nothing, so that the lookup would be empty. -/
theorem exists_mem_side_lookup? (hfits : table.Fits requests) {place : UInt8} :
    (∃ lookup, table.lookup? requests = some lookup ∧ place ∈ lookup.side writable) ↔
      ∃ key ∈ requests.keysWith (Access.isLoadable writable),
        table.addresses.idxOf? key = some place.toNat := by
  rw [← mem_side_lookup hfits]
  refine ⟨?_, ?_⟩
  · rintro ⟨lookup, hlookup, hplace⟩
    rwa [← lookup?_eq_some hlookup]
  · intro hplace
    cases hlookup : table.lookup? requests with
    | some lookup => exact ⟨lookup, rfl, by rwa [lookup?_eq_some hlookup]⟩
    | none =>
        obtain ⟨key, hkey, hi⟩ := (mem_side_lookup hfits).1 hplace
        obtain ⟨_, haddress, -⟩ := List.idxOf?_eq_some_iff.1 hi
        exact absurd (List.mem_of_getElem haddress) (lookup?_eq_none_iff.1 hlookup writable key hkey)

end LookupTable

/-! ### What a list of tables gives -/

namespace Requests

/-- What each table gives, in the order of the tables. -/
def contributions (tables : List LookupTable) (requests : Requests) : List (Option TableLookup) :=
  tables.mapIdx fun t table => table.lookup? (requests.unlisted (tables.take t))

theorem contributions_cons :
    requests.contributions (table :: tables) =
      table.lookup? requests :: (requests.unlisted [table]).contributions tables := by
  have hnext : ∀ t, requests.unlisted (table :: tables.take t) =
      (requests.unlisted [table]).unlisted (tables.take t) := fun _ => unlisted_cons
  rw [contributions, List.mapIdx_cons, List.take_zero, unlisted_nil]
  simp only [List.take_succ_cons, hnext]
  rfl

theorem Ascending.unlisted (h : requests.Ascending) (tables : List LookupTable) :
    (requests.unlisted tables).Ascending :=
  h.sublist List.filter_sublist

/-- The places under which each table takes something are bytes. -/
def PlacesFit (tables : List LookupTable) (requests : Requests) : Prop :=
  ∀ (t : Nat) (table : LookupTable), tables[t]? = some table →
    table.Fits (requests.unlisted (tables.take t))

theorem PlacesFit.cons (hfirst : table.Fits requests) (h : (requests.unlisted [table]).PlacesFit tables) :
    requests.PlacesFit (table :: tables) := by
  intro t other hother
  cases t with
  | zero =>
      cases hother
      rwa [List.take_zero, unlisted_nil]
  | succ t =>
      rw [List.take_succ_cons, unlisted_cons]
      exact h t other hother

/-- The induction is on the tables: what one of them leaves is what the next ones start from. -/
theorem takeLookups_eq_ok (hascending : requests.Ascending)
    {taken : List (TableLookup × LoadedAddresses)} (h : requests.takeLookups tables = .ok (taken, left)) :
    left = requests.unlisted tables ∧ taken.map Prod.fst = (requests.contributions tables).reduceOption ∧
      requests.PlacesFit tables := by
  induction tables generalizing requests taken with
  | nil =>
      cases h
      exact ⟨unlisted_nil.symm, rfl, nofun⟩
  | cons table tables ih =>
      obtain ⟨found, hfound, h⟩ := Except.bind_eq_ok.1 h
      obtain ⟨hfits, hlookup, hleft⟩ := LookupTable.take?_eq_ok hascending hfound
      rw [unlisted_cons, contributions_cons, ← hlookup]
      cases found with
      | none =>
          change requests = _ at hleft
          obtain ⟨hrest, htaken, hplaces⟩ := ih (hascending.unlisted [table]) (hleft ▸ h)
          exact ⟨hrest, htaken, .cons hfits hplaces⟩
      | some entry =>
          obtain ⟨⟨more, rest⟩, hmore, h⟩ := Except.bind_eq_ok.1 h
          cases h
          change requests.without entry.2 = _ at hleft
          obtain ⟨hrest, htaken, hplaces⟩ := ih (hascending.unlisted [table]) (hleft ▸ hmore)
          exact ⟨hrest, congrArg (entry.1 :: ·) htaken, .cons hfits hplaces⟩

theorem getElem?_contributions (t : Nat) : (requests.contributions tables)[t]? =
    tables[t]?.map fun table => table.lookup? (requests.unlisted (tables.take t)) :=
  List.getElem?_mapIdx

theorem getElem?_contributions_eq_some {t : Nat} {lookup : TableLookup}
    (h : (requests.contributions tables)[t]? = some (some lookup)) :
    ∃ table, tables[t]? = some table ∧ lookup = table.lookup (requests.unlisted (tables.take t)) := by
  rw [getElem?_contributions, Option.map_eq_some_iff] at h
  obtain ⟨table, htable, hlookup⟩ := h
  exact ⟨table, htable, LookupTable.lookup?_eq_some hlookup⟩

/-- A table that would give an empty lookup gives none. -/
theorem length_pos_of_mem_contributions {lookup : TableLookup}
    (h : lookup ∈ (requests.contributions tables).reduceOption) :
    0 < (lookup.writable ++ lookup.readonly).length := by
  obtain ⟨t, ht⟩ := List.mem_iff_getElem?.1 (List.reduceOption_mem_iff.1 h)
  rw [getElem?_contributions, Option.map_eq_some_iff] at ht
  obtain ⟨table, -, hlookup⟩ := ht
  exact LookupTable.length_pos_of_lookup?_eq_some hlookup

end Requests

end LedgerTx
