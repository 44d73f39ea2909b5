import LedgerTx.AccountTable
import LedgerTx.Proofs.AccountTable.Index
import LedgerTx.Proofs.AccountTable.Requests
import Mathlib.Data.List.Perm.Basic
import Mathlib.Tactic.ByContra
import Mathlib.Tactic.SplitIfs

/-! What lookup tables take from the requests. One table takes keys that may be loaded, under places at
which it lists them, and the requests that are left have exactly the other keys. Over a list of tables
this is kept as an invariant, `Drained`: what is left and what was taken are together the keys that were
there, none of them twice, however much the tables overlap. -/

namespace LedgerTx

variable {requests left : Requests} {table : LookupTable} {tables : List LookupTable}

theorem Access.isLoadable_iff {access : Access} {writable : Bool} :
    access.isLoadable writable = true ↔
      access.signer = false ∧ access.invoked = false ∧ access.writable = writable := by
  simp only [Access.isLoadable, Bool.and_eq_true, Bool.not_eq_true', beq_iff_eq, and_assoc]

namespace LookupTable

theorem listed_sublist (table : LookupTable) (writable : Bool) (requests : Requests) :
    ((table.listed writable requests).map Prod.fst).Sublist
      (requests.keysWith (Access.isLoadable writable)) := by
  unfold listed
  induction requests.keysWith (Access.isLoadable writable) with
  | nil => exact List.Sublist.refl _
  | cons key keys ih =>
      cases hplace : table.addresses.idxOf? key with
      | none =>
          rw [List.filterMap_cons, hplace]
          exact ih.cons key
      | some i =>
          rw [List.filterMap_cons, hplace]
          exact ih.cons_cons key

theorem getElem?_of_mem_listed {writable : Bool} {entry : Pubkey × Nat}
    (hentry : entry ∈ table.listed writable requests) (hplace : entry.2 ≤ 255) :
    table.addresses[(UInt8.ofNat entry.2).toNat]? = some entry.1 := by
  obtain ⟨key, -, hfound⟩ := List.mem_filterMap.1 hentry
  obtain ⟨i, hi, rfl⟩ := Option.map_eq_some_iff.1 hfound
  obtain ⟨hlt, hkey, -⟩ := List.idxOf?_eq_some_iff.1 hi
  have hnat : (UInt8.ofNat i).toNat = i := UInt8.toNat_ofNat_of_lt' (Nat.lt_succ_of_le hplace)
  rw [hnat, List.getElem?_eq_some_iff]
  exact ⟨hlt, hkey⟩

/-- A lookup stands for some keys of a table that may be loaded. -/
structure Takes (table : LookupTable) (requests : Requests) (lookup : TableLookup)
    (loaded : LoadedAddresses) : Prop where
  key : lookup.key = table.key
  writable : Selects table.addresses lookup.writable loaded.writable
  readonly : Selects table.addresses lookup.readonly loaded.readonly
  writable_sublist : loaded.writable.Sublist (requests.keysWith (Access.isLoadable true))
  readonly_sublist : loaded.readonly.Sublist (requests.keysWith (Access.isLoadable false))

theorem takes_of_take? {lookup : TableLookup} {loaded : LoadedAddresses}
    (h : table.take? requests = .ok (some (lookup, loaded))) : table.Takes requests lookup loaded := by
  simp only [take?] at h
  split_ifs at h with hlarge hnone
  · cases h
  · cases h
    have hplace : ∀ entry ∈ table.listed true requests ++ table.listed false requests,
        entry.2 ≤ 255 := by
      intro entry hentry
      by_contra hlt
      exact hlarge (List.any_eq_true.2 ⟨entry, hentry, decide_eq_true (by omega)⟩)
    refine ⟨rfl, Selects.of_map ?_, Selects.of_map ?_, table.listed_sublist true requests,
      table.listed_sublist false requests⟩
    · intro entry hentry
      exact getElem?_of_mem_listed hentry (hplace entry (List.mem_append_left _ hentry))
    · intro entry hentry
      exact getElem?_of_mem_listed hentry (hplace entry (List.mem_append_right _ hentry))

namespace Takes

variable {lookup : TableLookup} {loaded : LoadedAddresses}

theorem nodup_keys (h : table.Takes requests lookup loaded) (hascending : requests.Ascending) :
    loaded.keys.Nodup := by
  refine List.nodup_append'.2 ⟨?_, ?_, ?_⟩
  · exact (hascending.nodup_keysWith _).sublist h.writable_sublist
  · exact (hascending.nodup_keysWith _).sublist h.readonly_sublist
  · intro key hwritable hreadonly
    obtain ⟨a, ha, hloadable⟩ := Requests.mem_keysWith.1 (h.writable_sublist.mem hwritable)
    obtain ⟨b, hb, hother⟩ := Requests.mem_keysWith.1 (h.readonly_sublist.mem hreadonly)
    rw [hascending.access_unique hb ha] at hother
    obtain ⟨-, -, htrue⟩ := Access.isLoadable_iff.1 hloadable
    obtain ⟨-, -, hfalse⟩ := Access.isLoadable_iff.1 hother
    exact Bool.false_ne_true (hfalse.symm.trans htrue)

theorem of_sublist {fewer : Requests} (h : table.Takes fewer lookup loaded)
    (hsublist : fewer.Sublist requests) : table.Takes requests lookup loaded where
  key := h.key
  writable := h.writable
  readonly := h.readonly
  writable_sublist := h.writable_sublist.trans ((hsublist.filter _).map Prod.fst)
  readonly_sublist := h.readonly_sublist.trans ((hsublist.filter _).map Prod.fst)

theorem keys_subset (h : table.Takes requests lookup loaded) :
    loaded.keys ⊆ requests.map Prod.fst := by
  apply List.append_subset.2
  exact ⟨(h.writable_sublist.trans (Requests.keysWith_sublist _ _)).subset,
    (h.readonly_sublist.trans (Requests.keysWith_sublist _ _)).subset⟩

/-- Each key that was asked for is either left or taken. -/
theorem keys_perm (h : table.Takes requests lookup loaded) (hascending : requests.Ascending) :
    ((requests.without loaded).map Prod.fst ++ loaded.keys).Perm (requests.map Prod.fst) := by
  have htaken : ((requests.map Prod.fst).filter fun key => loaded.keys.contains key).Perm loaded.keys := by
    apply (List.perm_ext_iff_of_nodup (hascending.nodup_keys.filter _) (h.nodup_keys hascending)).2
    intro key
    rw [List.mem_filter, List.contains_iff_mem]
    exact and_iff_right_of_imp fun hkey => h.keys_subset hkey
  have hleft : (requests.without loaded).map Prod.fst =
      (requests.map Prod.fst).filter fun key => !loaded.keys.contains key := by
    rw [List.filter_map]
    rfl
  rw [hleft]
  exact List.perm_append_comm.trans
    ((htaken.symm.append_right _).trans (List.filter_append_perm _ _))

end Takes

end LookupTable

/-- All keys that the lookups taken stand for. -/
abbrev LoadedAddresses.ofTaken (taken : List (TableLookup × LoadedAddresses)) : LoadedAddresses :=
  join (taken.map Prod.snd)

theorem LoadedAddresses.join_cons_keys_perm (part : LoadedAddresses) (parts : List LoadedAddresses) :
    (join (part :: parts)).keys.Perm ((join parts).keys ++ part.keys) := by
  rw [List.perm_iff_count]
  intro key
  simp only [join, keys, List.flatMap_cons, List.count_append]
  omega

namespace Requests

variable {taken : List (TableLookup × LoadedAddresses)}

/-- What the tables took, lookup by lookup, and the requests that they left. -/
structure Drained (tables : List LookupTable) (requests : Requests)
    (taken : List (TableLookup × LoadedAddresses)) (left : Requests) : Prop where
  left_sublist : left.Sublist requests
  keys_perm : (left.map Prod.fst ++ (LoadedAddresses.ofTaken taken).keys).Perm
    (requests.map Prod.fst)
  takes : ∀ entry ∈ taken, ∃ table ∈ tables, table.Takes requests entry.1 entry.2

theorem drained_nil (tables : List LookupTable) (requests : Requests) :
    Drained tables requests [] requests where
  left_sublist := List.Sublist.refl requests
  keys_perm := List.Perm.of_eq (List.append_nil _)
  takes := nofun

theorem Drained.skip (h : Drained tables requests taken left) (table : LookupTable) :
    Drained (table :: tables) requests taken left where
  left_sublist := h.left_sublist
  keys_perm := h.keys_perm
  takes := by
    intro entry hentry
    obtain ⟨other, hother, htakes⟩ := h.takes entry hentry
    exact ⟨other, List.mem_cons_of_mem _ hother, htakes⟩

theorem Drained.take {lookup : TableLookup} {loaded : LoadedAddresses}
    (hfirst : table.Takes requests lookup loaded)
    (h : Drained tables (requests.without loaded) taken left) (hascending : requests.Ascending) :
    Drained (table :: tables) requests ((lookup, loaded) :: taken) left where
  left_sublist := h.left_sublist.trans List.filter_sublist
  keys_perm := by
    have hjoin := LoadedAddresses.join_cons_keys_perm loaded (taken.map Prod.snd)
    have hall := (h.keys_perm.append_right loaded.keys).trans (hfirst.keys_perm hascending)
    rw [List.append_assoc] at hall
    exact (hjoin.append_left _).trans hall
  takes := by
    intro entry hentry
    rcases List.mem_cons.1 hentry with rfl | hentry
    · exact ⟨table, List.mem_cons_self, hfirst⟩
    · obtain ⟨other, hother, htakes⟩ := h.takes entry hentry
      exact ⟨other, List.mem_cons_of_mem _ hother, htakes.of_sublist List.filter_sublist⟩

/-- Whatever the tables take, they leave the other keys. The induction is on the tables: each of them
works on what the ones before it left. -/
theorem drained_of_takeLookups (hascending : requests.Ascending)
    (h : requests.takeLookups tables = .ok (taken, left)) : Drained tables requests taken left := by
  induction tables generalizing requests taken with
  | nil =>
      cases h
      exact drained_nil [] left
  | cons table tables ih =>
      obtain ⟨found, hfound, h⟩ := Except.bind_eq_ok.1 h
      cases found with
      | none => exact (ih hascending h).skip table
      | some entry =>
          obtain ⟨⟨more, rest⟩, hmore, h⟩ := Except.bind_eq_ok.1 h
          cases h
          exact (ih (hascending.sublist List.filter_sublist) hmore).take
            (LookupTable.takes_of_take? hfound) hascending

theorem Drained.mem_loadable_of_side {side : LoadedAddresses → List Pubkey} {writable : Bool}
    (h : Drained tables requests taken left)
    (hside : ∀ table lookup loaded, LookupTable.Takes table requests lookup loaded →
      (side loaded).Sublist (requests.keysWith (Access.isLoadable writable)))
    {key : Pubkey} (hkey : key ∈ (taken.map Prod.snd).flatMap side) :
    key ∈ requests.keysWith (Access.isLoadable writable) := by
  obtain ⟨loaded, hloaded, hkey⟩ := List.mem_flatMap.1 hkey
  obtain ⟨entry, hentry, rfl⟩ := List.mem_map.1 hloaded
  obtain ⟨table, -, htakes⟩ := h.takes entry hentry
  exact (hside table entry.1 entry.2 htakes).mem hkey

theorem Drained.mem_writable (h : Drained tables requests taken left) {key : Pubkey}
    (hkey : key ∈ (LoadedAddresses.ofTaken taken).writable) :
    key ∈ requests.keysWith (Access.isLoadable true) :=
  h.mem_loadable_of_side (fun _ _ _ htakes => htakes.writable_sublist) hkey

theorem Drained.mem_readonly (h : Drained tables requests taken left) {key : Pubkey}
    (hkey : key ∈ (LoadedAddresses.ofTaken taken).readonly) :
    key ∈ requests.keysWith (Access.isLoadable false) :=
  h.mem_loadable_of_side (fun _ _ _ htakes => htakes.readonly_sublist) hkey

theorem Drained.mem_loadable (h : Drained tables requests taken left) {key : Pubkey}
    (hkey : key ∈ (LoadedAddresses.ofTaken taken).keys) :
    ∃ writable, key ∈ requests.keysWith (Access.isLoadable writable) := by
  rcases List.mem_append.1 hkey with hkey | hkey
  · exact ⟨true, h.mem_writable hkey⟩
  · exact ⟨false, h.mem_readonly hkey⟩

/-- A key that may be loaded neither signs nor is called. -/
theorem Faithful.demands_of_loadable {instructions : List Instruction} {payer : Option Pubkey}
    (h : Faithful instructions payer requests) {writable : Bool} {key : Pubkey}
    (hkey : key ∈ requests.keysWith (Access.isLoadable writable)) :
    ¬Demand.Signs instructions payer key ∧ ¬Demand.Calls instructions key ∧
      (Demand.Writes instructions payer key ↔ writable = true) := by
  obtain ⟨access, hmem, hloadable⟩ := mem_keysWith.1 hkey
  obtain ⟨hsigner, hwritable, hinvoked⟩ := h key access hmem
  obtain ⟨hnosigner, hnotinvoked, rfl⟩ := Access.isLoadable_iff.1 hloadable
  rw [← hsigner, ← hinvoked, ← hwritable, hnosigner, hnotinvoked]
  exact ⟨Bool.false_ne_true, Bool.false_ne_true, Iff.rfl⟩

end Requests

end LedgerTx
