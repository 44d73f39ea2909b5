import LedgerTx.Proofs.AccountTable.Layout
import Mathlib.Data.Set.Card

/-! How many keys are demanded, and of which kind. A layout has room for 256 keys, and its header says in
bytes how many of them sign and how many are not written. The layout of faithful requests holds every key
once, so that it is refused exactly if too many different keys are demanded, however often each of them is
named. -/

/-- A list without duplicates is as long as the set of its members is large. -/
theorem List.ncard_eq_length {α : Type} {l : List α} {p : α → Prop} (hnodup : l.Nodup)
    (hmem : ∀ a, a ∈ l ↔ p a) : {a | p a}.ncard = l.length := by
  classical
  have hset : {a | p a} = (l.toFinset : Set α) := by
    ext a
    rw [Finset.mem_coe, List.mem_toFinset]
    exact (hmem a).symm
  rw [hset, Set.ncard_coe_finset, List.toFinset_card_of_nodup hnodup]

namespace LedgerTx

variable {instructions : List Instruction} {payer : Option Pubkey}

namespace Demand

/-- The number of keys that are named. -/
noncomputable def keyCount (instructions : List Instruction) (payer : Option Pubkey) : Nat :=
  {key | Names instructions payer key}.ncard

/-- The number of keys that have to sign. -/
noncomputable def signerCount (instructions : List Instruction) (payer : Option Pubkey) : Nat :=
  {key | Signs instructions payer key}.ncard

/-- The number of keys that are only named: they have neither to sign nor to be written. -/
noncomputable def readonlyCount (instructions : List Instruction) (payer : Option Pubkey) : Nat :=
  {key | Names instructions payer key ∧ ¬Signs instructions payer key ∧
    ¬Writes instructions payer key}.ncard

/-- More keys are demanded than a table has places for, or more of one kind than a byte can say. -/
def ExceedsTable (instructions : List Instruction) (payer : Option Pubkey) : Prop :=
  256 < keyCount instructions payer ∨ 255 < signerCount instructions payer ∨
    255 < readonlyCount instructions payer

theorem keyCount_eq_length {keys : List Pubkey}
    (hperm : keys.Perm ((Requests.merged instructions payer).map Prod.fst)) :
    keyCount instructions payer = keys.length := by
  apply List.ncard_eq_length
  · exact hperm.nodup_iff.2 (Requests.ascending_merged instructions payer).nodup_keys
  · intro key
    rw [hperm.mem_iff, Requests.mem_keys_merged]

end Demand

namespace Layout

variable {layout : Layout} {key : Pubkey} {e : CompileError}

theorem mem_keys : key ∈ layout.keys ↔ key ∈ layout.writableSigners ∨ key ∈ layout.readonlySigners ∨
    key ∈ layout.writableOthers ∨ key ∈ layout.readonlyOthers := by
  simp only [keys, List.mem_append]

/-- Whatever else a layout leaves out, it tells how many keys sign if it holds all that do. -/
theorem Sorts.signerCount_eq (hsorts : layout.Sorts instructions payer) (hnodup : layout.keys.Nodup)
    (hsigners : ∀ key, Demand.Signs instructions payer key → key ∈ layout.keys) :
    layout.signerCount = Demand.signerCount instructions payer := by
  have hmem : ∀ key, key ∈ layout.writableSigners ++ layout.readonlySigners ↔
      Demand.Signs instructions payer key := by
    intro key
    rw [List.mem_append]
    constructor
    · rintro (hkey | hkey)
      · exact (hsorts.writableSigners key hkey).1
      · exact (hsorts.readonlySigners key hkey).1
    · intro hsigns
      rcases mem_keys.1 (hsigners key hsigns) with hkey | hkey | hkey | hkey
      · exact Or.inl hkey
      · exact Or.inr hkey
      · exact absurd hsigns (hsorts.writableOthers key hkey).1
      · exact absurd hsigns (hsorts.readonlyOthers key hkey).1
  have hprefix : layout.writableSigners ++ layout.readonlySigners <+: layout.keys := by
    rw [keys, ← List.append_assoc]
    exact List.prefix_append _ _
  rw [Demand.signerCount, List.ncard_eq_length (hnodup.sublist hprefix.sublist) hmem, List.length_append]
  rfl

theorem Sorts.length_readonlyOthers_eq (hsorts : layout.Sorts instructions payer)
    (hnodup : layout.keys.Nodup) (hnames : ∀ key, key ∈ layout.keys ↔ Demand.Names instructions payer key) :
    layout.readonlyOthers.length = Demand.readonlyCount instructions payer := by
  have hmem : ∀ key, key ∈ layout.readonlyOthers ↔ Demand.Names instructions payer key ∧
      ¬Demand.Signs instructions payer key ∧ ¬Demand.Writes instructions payer key := by
    intro key
    constructor
    · intro hkey
      exact ⟨(hnames key).1 (mem_keys.2 (by simp [hkey])), hsorts.readonlyOthers key hkey⟩
    · rintro ⟨hnamed, hsigns, hwrites⟩
      rcases mem_keys.1 ((hnames key).2 hnamed) with hkey | hkey | hkey | hkey
      · exact absurd (hsorts.writableSigners key hkey).1 hsigns
      · exact absurd (hsorts.readonlySigners key hkey).1 hsigns
      · exact absurd (hsorts.writableOthers key hkey).2 hwrites
      · exact hkey
  have hsuffix : layout.readonlyOthers <:+ layout.keys := by
    simp only [keys, ← List.append_assoc]
    exact List.suffix_append _ _
  rw [Demand.readonlyCount, List.ncard_eq_length (hnodup.sublist hsuffix.sublist) hmem]

/-- Readonly signers are signers, so that their count needs no test of its own. -/
theorem header_eq_error_iff : layout.header = .error e ↔
    (256 < layout.keys.length ∨ 255 < layout.signerCount ∨ 255 < layout.readonlyOthers.length) ∧
      e = .tooManyAccountKeys layout.keys.length := by
  have hcount : layout.readonlySigners.length ≤ layout.signerCount := Nat.le_add_left _ _
  simp only [header]
  split_ifs with hlimits
  · rw [Except.error.injEq, eq_comm, and_iff_right (by omega)]
  · refine iff_of_false ?_ fun h => hlimits (by omega)
    rintro ⟨⟩

end Layout

end LedgerTx
