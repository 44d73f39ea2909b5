import LedgerTx.Proofs.AccountTable.Entries
import LedgerTx.Proofs.AccountTable.Lengths

/-! When lookup tables fail, and when they take nothing. The only failure is a place that is no byte, and it
is decided by the requests at the start: a key that may be loaded has such a place in the first table that
lists it. Tables that list no key that may be loaded change nothing, whatever else they list, and where. -/

namespace LedgerTx

variable {requests left : Requests} {table : LookupTable} {tables : List LookupTable} {key : Pubkey}
  {e : CompileError}

/-- The first table that lists a key has it beyond the places that a byte can name. -/
def LookupTable.ListsBeyond (tables : List LookupTable) (key : Pubkey) : Prop :=
  ∃ t table place, firstListing? tables key = some t ∧ tables[t]? = some table ∧
    table.addresses.idxOf? key = some place ∧ 255 < place

theorem LookupTable.any_beyond_iff :
    ((table.listed true requests ++ table.listed false requests).any fun entry => 255 < entry.2) = true ↔
      ¬table.Fits requests := by
  constructor
  · intro h hfits
    obtain ⟨entry, hentry, hplace⟩ := List.any_eq_true.1 h
    have hplace : 255 < entry.2 := of_decide_eq_true hplace
    rcases List.mem_append.1 hentry with hentry | hentry
    · exact Nat.not_lt.2 (hfits true entry hentry) hplace
    · exact Nat.not_lt.2 (hfits false entry hentry) hplace
  · intro hfits
    by_contra h
    exact hfits (fits_of_any_eq_false (Bool.eq_false_iff.2 h))

theorem LookupTable.take?_eq_error_iff :
    table.take? requests = .error e ↔ ¬table.Fits requests ∧ e = .lookupIndexOverflow := by
  rw [← any_beyond_iff]
  simp only [take?]
  split_ifs with hbeyond hnone
  · rw [Except.error.injEq, eq_comm, and_iff_right hbeyond]
  · refine iff_of_false ?_ fun h => hbeyond h.1
    rintro ⟨⟩
  · refine iff_of_false ?_ fun h => hbeyond h.1
    rintro ⟨⟩

namespace Requests

theorem placesFit_cons : requests.PlacesFit (table :: tables) ↔
    table.Fits requests ∧ (requests.unlisted [table]).PlacesFit tables := by
  constructor
  · intro h
    have hfirst := h 0 table rfl
    rw [List.take_zero, unlisted_nil] at hfirst
    refine ⟨hfirst, ?_⟩
    intro t other hother
    have hnext := h (t + 1) other hother
    rwa [List.take_succ_cons, unlisted_cons] at hnext
  · rintro ⟨hfirst, hrest⟩
    exact hrest.cons hfirst

/-- The induction is on the tables, as for what they take. -/
theorem of_takeLookups_eq_error (hascending : requests.Ascending) (h : requests.takeLookups tables = .error e) :
    ¬requests.PlacesFit tables ∧ e = .lookupIndexOverflow := by
  induction tables generalizing requests with
  | nil => cases h
  | cons table tables ih =>
      rw [placesFit_cons]
      rcases Except.bind_eq_error.1 h with hfirst | ⟨found, hfound, h⟩
      · obtain ⟨hfits, rfl⟩ := LookupTable.take?_eq_error_iff.1 hfirst
        exact ⟨fun h => hfits h.1, rfl⟩
      · obtain ⟨-, -, hleft⟩ := LookupTable.take?_eq_ok hascending hfound
        have hrest : (requests.unlisted [table]).takeLookups tables = .error e := by
          rw [← hleft]
          cases found with
          | none => exact h
          | some entry => exact Except.bind_pure_eq_error.1 h
        obtain ⟨hplaces, rfl⟩ := ih (hascending.unlisted [table]) hrest
        exact ⟨fun h => hplaces h.2, rfl⟩

theorem takeLookups_eq_error_iff (hascending : requests.Ascending) :
    requests.takeLookups tables = .error e ↔ ¬requests.PlacesFit tables ∧ e = .lookupIndexOverflow := by
  refine ⟨of_takeLookups_eq_error hascending, ?_⟩
  rintro ⟨hplaces, rfl⟩
  cases htaken : requests.takeLookups tables with
  | error e => rw [(of_takeLookups_eq_error hascending htaken).2]
  | ok taken => exact absurd (takeLookups_eq_ok hascending htaken).2.2 hplaces

theorem not_placesFit_iff : ¬requests.PlacesFit tables ↔
    ∃ key, (∃ writable, key ∈ requests.keysWith (Access.isLoadable writable)) ∧
      LookupTable.ListsBeyond tables key := by
  constructor
  · intro h
    simp only [PlacesFit, LookupTable.Fits, not_forall, exists_prop, Nat.not_le] at h
    obtain ⟨t, table, htable, writable, ⟨key, place⟩, hlisted, hplace⟩ := h
    obtain ⟨hkey, hi⟩ := LookupTable.mem_listed.1 hlisted
    obtain ⟨hkey, hearlier⟩ := mem_keysWith_unlisted.1 hkey
    obtain ⟨_, haddress, -⟩ := List.idxOf?_eq_some_iff.1 hi
    have hfirst : LookupTable.firstListing? tables key = some t :=
      LookupTable.firstListing?_eq_some.2 ⟨table, htable, List.mem_of_getElem haddress, hearlier⟩
    exact ⟨key, ⟨writable, hkey⟩, t, table, place, hfirst, htable, hi, hplace⟩
  · rintro ⟨key, ⟨writable, hkey⟩, t, table, place, hfirst, htable, hi, hplace⟩ hplaces
    obtain ⟨-, -, -, hearlier⟩ := LookupTable.firstListing?_eq_some.1 hfirst
    have hlisted : (key, place) ∈ table.listed writable (requests.unlisted (tables.take t)) :=
      LookupTable.mem_listed.2 ⟨mem_keysWith_unlisted.2 ⟨hkey, hearlier⟩, hi⟩
    exact Nat.not_lt.2 (hplaces t table htable writable _ hlisted) hplace

theorem takeLookups_of_not_listed
    (h : ∀ table ∈ tables, ∀ writable, ∀ key ∈ requests.keysWith (Access.isLoadable writable),
      key ∉ table.addresses) :
    requests.takeLookups tables = .ok ([], requests) := by
  induction tables with
  | nil => rfl
  | cons table tables ih =>
      rw [List.forall_mem_cons] at h
      have hlisted : ∀ writable, table.listed writable requests = [] := by
        intro writable
        rw [List.eq_nil_iff_forall_not_mem]
        intro entry hentry
        have hkey : entry.1 ∈ (table.listed writable requests).map Prod.fst := List.mem_map_of_mem hentry
        rw [LookupTable.mem_map_listed] at hkey
        exact h.1 writable entry.1 hkey.1 hkey.2
      have hnone : table.take? requests = .ok none := by
        simp [LookupTable.take?, hlisted]
      rw [takeLookups, hnone]
      exact ih h.2

end Requests

end LedgerTx
