import LedgerTx.Proofs.AccountTable.Counts
import LedgerTx.Proofs.AccountTable.Overflow
import LedgerTx.Proofs.Message.Placed
import LedgerTx.Proofs.Message.Reread

/-! When instructions are compiled with lookup tables, and what is loaded then. The tables only move keys: the
keys of the message and those that are loaded are together the keys that are named, each of them once, and
all signers are in the message. So it is decided without the tables whether there are too many keys, though
that is tested in two places, and the tables can fail by themselves only for a place that is no byte. -/

/-- Of lists that are not empty there are no more than what they hold together. -/
theorem List.length_le_length_flatMap {α β : Type} {f : α → List β} {l : List α}
    (h : ∀ a ∈ l, 0 < (f a).length) : l.length ≤ (l.flatMap f).length := by
  induction l with
  | nil => exact Nat.zero_le _
  | cons a l ih =>
      rw [List.forall_mem_cons] at h
      have hrest := ih h.2
      rw [List.flatMap_cons, List.length_append, List.length_cons]
      omega

namespace LedgerTx

open CompactLength (firstExcess?)

variable {instructions : List Instruction} {payer : Pubkey} {tables : List LookupTable} {blockhash : Hash}
  {left : Requests} {taken : List (TableLookup × LoadedAddresses)} {e : CompileError}

/-- A key that is left to tables has no place that a byte can name in the first table that lists it. -/
def Demand.Unplaceable (payer : Pubkey) (instructions : List Instruction) (tables : List LookupTable) : Prop :=
  ∃ key, LeftToTables payer instructions tables key ∧ LookupTable.ListsBeyond tables key

namespace Requests.Drained

variable (h : Drained tables (merged instructions (some payer)) taken left)

include h

theorem keyCount_eq : Demand.keyCount instructions (some payer) =
    ((Layout.ofRequests (some payer) left).keys ++ (LoadedAddresses.ofTaken taken).keys).length :=
  Demand.keyCount_eq_length h.allKeys_perm

theorem length_keys_le :
    (Layout.ofRequests (some payer) left).keys.length ≤ Demand.keyCount instructions (some payer) := by
  rw [h.keyCount_eq, List.length_append]
  exact Nat.le_add_right _ _

theorem signerCount_eq :
    (Layout.ofRequests (some payer) left).signerCount = Demand.signerCount instructions (some payer) := by
  apply (Layout.sorts_ofRequests h.faithful_left).signerCount_eq
  · exact h.layout_keys_perm.nodup_iff.2 h.ascending_left.nodup_keys
  · intro key hsigns
    exact h.layout_keys_perm.mem_iff.2 (h.mem_left_of_signs hsigns)

/-- The payer is not among the keys that are only named, so that a table has room for these. -/
theorem header_eq_error_iff : (Layout.ofRequests (some payer) left).header = .error e ↔
    (256 < (Layout.ofRequests (some payer) left).keys.length ∨
      255 < Demand.signerCount instructions (some payer)) ∧
    e = .tooManyAccountKeys (Layout.ofRequests (some payer) left).keys.length := by
  have hpayer : 0 < (Layout.ofRequests (some payer) left).writableSigners.length :=
    Nat.zero_lt_succ _
  have hlength := (Layout.ofRequests (some payer) left).length_keys
  have hsigners : (Layout.ofRequests (some payer) left).writableSigners.length ≤
      (Layout.ofRequests (some payer) left).signerCount := Nat.le_add_right _ _
  rw [Layout.header_eq_error_iff, ← h.signerCount_eq]
  apply and_congr_left
  intro _
  omega

theorem namedIn : ∀ instruction ∈ instructions, instruction.NamedIn
    ((Layout.ofRequests (some payer) left).keys ++ (LoadedAddresses.ofTaken taken).keys) := by
  apply Instruction.namedIn_of_names
  intro key hnames
  exact h.allKeys_perm.mem_iff.2 (mem_keys_merged.2 hnames)

end Requests.Drained

theorem Requests.not_placesFit_merged_iff :
    ¬(merged instructions (some payer)).PlacesFit tables ↔ Demand.Unplaceable payer instructions tables := by
  rw [not_placesFit_iff]
  apply exists_congr
  intro key
  rw [Demand.leftToTables_iff, and_assoc]
  apply and_congr_right
  intro _
  rw [iff_and_self]
  rintro ⟨t, table, place, hfirst, -⟩
  exact LookupTable.listed_of_firstListing? hfirst

/-- Either some key has no place, or all tables take what they list. -/
theorem Requests.takeLookups_cases (payer : Pubkey) (instructions : List Instruction)
    (tables : List LookupTable) :
    Demand.Unplaceable payer instructions tables ∧
      (merged instructions (some payer)).takeLookups tables = .error .lookupIndexOverflow ∨
    ¬Demand.Unplaceable payer instructions tables ∧
      ∃ taken left, (merged instructions (some payer)).takeLookups tables = .ok (taken, left) := by
  have hascending := ascending_merged instructions (some payer)
  rw [← not_placesFit_merged_iff]
  cases htaken : (merged instructions (some payer)).takeLookups tables with
  | error e =>
      obtain ⟨hplaces, rfl⟩ := (takeLookups_eq_error_iff hascending).1 htaken
      exact Or.inl ⟨hplaces, rfl⟩
  | ok taken =>
      have hplaces := (takeLookups_eq_ok hascending htaken).2.2
      exact Or.inr ⟨not_not.2 hplaces, taken.1, taken.2, rfl⟩

namespace V0Message

theorem compile_of_takeLookups_eq_error
    (htaken : (Requests.merged instructions (some payer)).takeLookups tables = .error e) :
    compile payer instructions tables blockhash = .error e :=
  Except.bind_eq_error.2 (Or.inl htaken)

/-- The keys of the message are counted first, and then, with what is loaded, all keys. -/
theorem compile_eq_error_iff_of_takeLookups
    (htaken : (Requests.merged instructions (some payer)).takeLookups tables = .ok (taken, left)) :
    compile payer instructions tables blockhash = .error e ↔
      (Layout.ofRequests (some payer) left).header = .error e ∨
      ∃ header, (Layout.ofRequests (some payer) left).header = .ok header ∧
        (256 < Demand.keyCount instructions (some payer) ∧
          e = .tooManyAccountKeys (Demand.keyCount instructions (some payer)) ∨
        Demand.keyCount instructions (some payer) ≤ 256 ∧
          ∃ n, firstExcess? (Instruction.allLengths instructions) = some n ∧ e = .lengthOverflow n) := by
  have hdrained := Requests.drained_of_takeLookups (Requests.ascending_merged _ _) htaken
  rw [compile, htaken, hdrained.keyCount_eq]
  change (_ >>= fun header => Instruction.compileAll _ instructions >>= _) = _ ↔ _
  rw [Except.bind_eq_error]
  simp only [Except.bind_pure_eq_error, Instruction.compileAll_eq_error_iff hdrained.namedIn]

/-- If the limits are kept only a length is refused. The header says no more than what is left. -/
theorem compile_eq_error_iff_of_le
    (htaken : (Requests.merged instructions (some payer)).takeLookups tables = .ok (taken, left))
    (hkeys : Demand.keyCount instructions (some payer) ≤ 256)
    (hsigners : Demand.signerCount instructions (some payer) ≤ 255) :
    compile payer instructions tables blockhash = .error e ↔
      ∃ n, firstExcess? (Instruction.allLengths instructions) = some n ∧ e = .lengthOverflow n := by
  have hdrained := Requests.drained_of_takeLookups (Requests.ascending_merged _ _) htaken
  have hleft := hdrained.length_keys_le
  obtain ⟨header, hheader⟩ : ∃ header, (Layout.ofRequests (some payer) left).header = .ok header := by
    rw [Except.exists_eq_ok_iff]
    rintro ⟨e, herror⟩
    have hlimits := (hdrained.header_eq_error_iff.1 herror).1
    omega
  simp only [compile_eq_error_iff_of_takeLookups htaken, hheader, reduceCtorEq, false_or, Except.ok.injEq,
    exists_eq_left', Nat.not_lt.2 hkeys, false_and, hkeys, true_and]

theorem exists_tooManyAccountKeys_iff_of_takeLookups
    (htaken : (Requests.merged instructions (some payer)).takeLookups tables = .ok (taken, left)) :
    (∃ count, compile payer instructions tables blockhash = .error (.tooManyAccountKeys count)) ↔
      256 < Demand.keyCount instructions (some payer) ∨
        255 < Demand.signerCount instructions (some payer) := by
  have hdrained := Requests.drained_of_takeLookups (Requests.ascending_merged _ _) htaken
  constructor
  · rintro ⟨count, hcompile⟩
    by_contra hlimits
    rw [not_or, Nat.not_lt, Nat.not_lt] at hlimits
    obtain ⟨n, -, ⟨⟩⟩ := (compile_eq_error_iff_of_le htaken hlimits.1 hlimits.2).1 hcompile
  · intro hlimits
    simp only [compile_eq_error_iff_of_takeLookups htaken]
    cases hheader : (Layout.ofRequests (some payer) left).header with
    | error e =>
        obtain ⟨-, rfl⟩ := hdrained.header_eq_error_iff.1 hheader
        exact ⟨_, Or.inl rfl⟩
    | ok header =>
        have hfits : ¬255 < Demand.signerCount instructions (some payer) := by
          intro hsigners
          rw [hdrained.header_eq_error_iff.2 ⟨Or.inr hsigners, rfl⟩] at hheader
          cases hheader
        exact ⟨_, Or.inr ⟨header, rfl, Or.inl ⟨hlimits.resolve_right hfits, rfl⟩⟩⟩

theorem exists_compile_iff :
    (∃ m, compile payer instructions tables blockhash = .ok m) ↔
      ¬Demand.Unplaceable payer instructions tables ∧ Demand.keyCount instructions (some payer) ≤ 256 ∧
        Demand.signerCount instructions (some payer) ≤ 255 ∧
        firstExcess? (Instruction.allLengths instructions) = none := by
  rcases Requests.takeLookups_cases payer instructions tables with ⟨hplace, htaken⟩ | ⟨hplace, taken, left, htaken⟩
  · refine iff_of_false ?_ fun h => h.1 hplace
    rintro ⟨m, hcompile⟩
    rw [compile_of_takeLookups_eq_error htaken] at hcompile
    cases hcompile
  · rw [and_iff_right hplace]
    by_cases hlimits : Demand.keyCount instructions (some payer) ≤ 256 ∧
        Demand.signerCount instructions (some payer) ≤ 255
    · rw [and_iff_right hlimits.1, and_iff_right hlimits.2]
      exact exists_eq_ok_iff_firstExcess?_eq_none fun _ =>
        compile_eq_error_iff_of_le htaken hlimits.1 hlimits.2
    · refine iff_of_false ?_ fun h => hlimits ⟨h.1, h.2.1⟩
      rw [not_and_or, Nat.not_le, Nat.not_le, ← exists_tooManyAccountKeys_iff_of_takeLookups htaken] at hlimits
      obtain ⟨count, herror⟩ := hlimits
      rintro ⟨m, hcompile⟩
      cases herror.symm.trans hcompile

variable {m : V0Message}

theorem accountCount_le_of_compile (h : compile payer instructions tables blockhash = .ok m) :
    m.accountCount ≤ 256 := by
  obtain ⟨taken, left, -, hassembled, hcompiled⟩ := compileAll_of_compile h
  rw [hassembled.accountCount_eq]
  exact (Instruction.compileAll_eq_ok.1 hcompiled).1

theorem length_pos_of_mem_lookups (h : compile payer instructions tables blockhash = .ok m)
    {lookup : TableLookup} (hlookup : lookup ∈ m.lookups) :
    0 < (lookup.writable ++ lookup.readonly).length := by
  obtain ⟨taken, left, htaken, hassembled⟩ := takeLookups_of_compile h
  have hascending := Requests.ascending_merged instructions (some payer)
  rw [hassembled.lookups, (Requests.takeLookups_eq_ok hascending htaken).2.1] at hlookup
  exact Requests.length_pos_of_mem_contributions hlookup

/-- The lists of a message are no longer than it has accounts, the instructions and what is in them apart. -/
theorem fits_of_compile (h : compile payer instructions tables blockhash = .ok m) : Fits m := by
  obtain ⟨taken, left, -, hassembled, hcompiled⟩ := compileAll_of_compile h
  have hcount : m.accountCount ≤ CompactLength.limit :=
    Nat.le_trans (accountCount_le_of_compile h) (by decide)
  have hkeys : m.accountKeys.length ≤ m.accountCount := Nat.le_add_right _ _
  have hloaded : (m.lookups.flatMap fun lookup => lookup.writable ++ lookup.readonly).length ≤
      m.accountCount := Nat.le_add_left _ _
  have hlookups := List.length_le_length_flatMap fun _ => length_pos_of_mem_lookups h
  refine fits_iff.2 ⟨Message.fits_iff.2 ⟨by omega, Instruction.fits_of_compileAll hcompiled⟩, by omega, ?_⟩
  intro lookup hlookup
  have hone := ((List.singleton_sublist.2 hlookup).flatMap
    fun lookup => lookup.writable ++ lookup.readonly).length_le
  rw [List.flatMap_singleton, List.length_append] at hone
  exact TableLookup.fits_iff.2 ⟨by omega, by omega⟩

end V0Message

end LedgerTx
