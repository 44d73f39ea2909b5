import LedgerTx.Proofs.Message.Places
import Mathlib.Algebra.Order.Ring.Nat

/-! What a message answers about a place. The answers come from the header, the table and the instructions, which
messages of both forms have, and of places in the table the two forms say the same. They part behind the table, where a
message of version 0 has the accounts that its lookups load: of these it knows how many come first, and so are written,
but not which keys they are. The legacy form has nothing there, and answers that nothing is written. -/

namespace LedgerTx

namespace Message

variable {m : Message} {i : Nat}

theorem isCalled_iff : m.isCalled i = true ↔ ∃ ix ∈ m.instructions, ix.program.toNat = i := by
  simp only [isCalled, List.any_eq_true, beq_iff_eq]

theorem isPassed_iff :
    m.isPassed i = true ↔ ∃ ix ∈ m.instructions, ∃ account ∈ ix.accounts, account.toNat = i := by
  simp only [isPassed, List.any_eq_true, beq_iff_eq]

theorem isNonLoader_eq_false_iff :
    m.isNonLoader i = false ↔ m.isCalled i = true ∧ ¬m.isPassed i = true := by
  simp [isNonLoader]

/-- Some instruction calls the account at a place, and the loader that writes programs is not in the table. -/
def Demotes (m : Message) (i : Nat) : Prop :=
  (∃ ix ∈ m.instructions, ix.program.toNat = i) ∧ SystemProgram.upgradeableLoader ∉ m.accountKeys

theorem isDemoted_iff : m.isDemoted i = true ↔ m.Demotes i := by
  have hloader : m.hasUpgradeableLoader = true ↔ SystemProgram.upgradeableLoader ∈ m.accountKeys :=
    List.contains_iff_mem
  rw [isDemoted, Bool.and_eq_true, isCalled_iff, Bool.not_eq_true', ← Bool.not_eq_true, hloader, Demotes]

theorem isWritable_iff : m.isWritable i = true ↔ m.isWritableIndex i = true ∧ ¬m.Demotes i := by
  rw [isWritable, Bool.and_eq_true, Bool.not_eq_true', ← Bool.not_eq_true, isDemoted_iff]

/-- Behind a table that has all keys that sign there is no place that the header has written. -/
theorem isWritable_eq_false_of_le (hkeys : m.required ≤ m.accountKeys.length) (hi : m.accountKeys.length ≤ i) :
    m.isWritable i = false := by
  rw [← Bool.not_eq_true, isWritable_iff, isWritableIndex_iff]
  omega

/-- What a message answers about a place is what its header, its table and its instructions say. -/
structure Answers (m : Message) (i : Nat) : Prop where
  signer : m.isSigner i = true ↔ i < m.required
  writable : m.isWritable i = true ↔
    (i < m.required - m.header.readonlySigned.toNat ∨
      m.required ≤ i ∧ i < m.accountKeys.length - m.header.readonlyUnsigned.toNat) ∧ ¬m.Demotes i
  called : m.isCalled i = true ↔ ∃ ix ∈ m.instructions, ix.program.toNat = i
  passed : m.isPassed i = true ↔ ∃ ix ∈ m.instructions, ∃ account ∈ ix.accounts, account.toNat = i
  nonLoader : m.isNonLoader i = false ↔ m.isCalled i = true ∧ ¬m.isPassed i = true

theorem answers (m : Message) (i : Nat) : m.Answers i where
  signer := isSigner_iff
  writable := by rw [isWritable_iff, isWritableIndex_iff]
  called := isCalled_iff
  passed := isPassed_iff
  nonLoader := isNonLoader_eq_false_iff

end Message

namespace V0Message

variable {m : V0Message} {i : Nat}

theorem isSigner_iff : m.isSigner i = true ↔ i < m.header.required.toNat := by
  rw [isSigner, decide_eq_true_iff]

theorem isCalled_iff : m.isCalled i = true ↔ ∃ ix ∈ m.instructions, ix.program.toNat = i := by
  simp only [isCalled, List.any_eq_true, beq_iff_eq]

theorem isPassed_iff :
    m.isPassed i = true ↔ ∃ ix ∈ m.instructions, ∃ account ∈ ix.accounts, account.toNat = i := by
  simp only [isPassed, List.any_eq_true, beq_iff_eq]

theorem isNonLoader_eq_false_iff :
    m.isNonLoader i = false ↔ m.isCalled i = true ∧ ¬m.isPassed i = true := by
  simp [isNonLoader]

theorem isMaybeWritable_iff : m.isMaybeWritable i = true ↔ m.isMaybeWritableIndex i = true ∧ ¬m.Demotes i := by
  have hloader : m.hasUpgradeableLoader = true ↔ SystemProgram.upgradeableLoader ∈ m.accountKeys :=
    List.contains_iff_mem
  have hdemoted : (m.isCalled i && !m.hasUpgradeableLoader) = true ↔ m.Demotes i := by
    rw [Bool.and_eq_true, Bool.not_eq_true', ← Bool.not_eq_true, hloader, isCalled_iff, Message.Demotes]
  rw [isMaybeWritable, Bool.and_eq_true, Bool.not_eq_true', ← Bool.not_eq_true, hdemoted]

theorem isSigner_toMessage (m : V0Message) (i : Nat) : m.toMessage.isSigner i = m.isSigner i := by
  rw [Bool.eq_iff_iff, Message.isSigner_iff, isSigner_iff, Message.required]

theorem isCalled_toMessage (m : V0Message) (i : Nat) : m.toMessage.isCalled i = m.isCalled i := by
  rw [Bool.eq_iff_iff, Message.isCalled_iff, isCalled_iff]

theorem isPassed_toMessage (m : V0Message) (i : Nat) : m.toMessage.isPassed i = m.isPassed i := by
  rw [Bool.eq_iff_iff, Message.isPassed_iff, isPassed_iff]

theorem isNonLoader_toMessage (m : V0Message) (i : Nat) : m.toMessage.isNonLoader i = m.isNonLoader i := by
  rw [Message.isNonLoader, isNonLoader, isCalled_toMessage, isPassed_toMessage]

theorem isMaybeWritable_eq_and :
    m.isMaybeWritable i = (m.isMaybeWritableIndex i && !m.toMessage.isDemoted i) := by
  rw [Bool.eq_iff_iff, isMaybeWritable_iff, Bool.and_eq_true, Bool.not_eq_true', ← Bool.not_eq_true,
    Message.isDemoted_iff]

theorem loadedWritable_eq_sum :
    m.loadedWritable = (m.lookups.map fun lookup => lookup.writable.length).sum :=
  List.length_flatMap

theorem isMaybeWritable_of_lt (hi : i < m.accountKeys.length) :
    m.isMaybeWritable i = m.toMessage.isWritable i := by
  rw [Bool.eq_iff_iff, isMaybeWritable_iff, isMaybeWritableIndex_of_lt hi, Message.isWritable_iff]

theorem isMaybeWritable_of_le (hi : m.accountKeys.length ≤ i) :
    m.isMaybeWritable i = true ↔ i - m.accountKeys.length < m.loadedWritable ∧ ¬m.Demotes i := by
  rw [isMaybeWritable_iff, isMaybeWritableIndex_of_le hi]

/-- Messages of the two forms give the same answers about a place. -/
structure AgreesAt (loading : V0Message) (m : Message) (i : Nat) : Prop where
  signer : loading.isSigner i = m.isSigner i
  writable : loading.isMaybeWritable i = m.isWritable i
  called : loading.isCalled i = m.isCalled i
  passed : loading.isPassed i = m.isPassed i
  nonLoader : loading.isNonLoader i = m.isNonLoader i

/-- The answers do not depend on the block hash, and within the table not on the lookups either. -/
theorem agreesAt_of_lt {header : Header} {keys : List Pubkey} {instructions : List CompiledInstruction}
    {lookups : List TableLookup} {blockhash other : Hash} (hi : i < keys.length) :
    AgreesAt ⟨⟨header, keys, blockhash, instructions⟩, lookups⟩ ⟨header, keys, other, instructions⟩ i where
  signer := (isSigner_toMessage _ i).symm
  writable := isMaybeWritable_of_lt hi
  called := (isCalled_toMessage _ i).symm
  passed := (isPassed_toMessage _ i).symm
  nonLoader := (isNonLoader_toMessage _ i).symm

/-- A legacy message and one of version 0 with the same header, table and instructions agree about all places in the
table, if this has the keys that sign; a header may make more of them readonly than there are. Behind the table the
legacy message has nothing written, and the other all that is loaded to be, as far as it is not called. -/
theorem agrees_within_table {header : Header} {keys : List Pubkey} (instructions : List CompiledInstruction)
    (lookups : List TableLookup) (blockhash other : Hash) (hkeys : header.required.toNat ≤ keys.length) :
    let loading : V0Message := ⟨⟨header, keys, blockhash, instructions⟩, lookups⟩
    let m : Message := ⟨header, keys, other, instructions⟩
    (∀ i < keys.length, loading.AgreesAt m i ∧ m.Answers i) ∧
    ∀ i, keys.length ≤ i → m.isWritable i = false ∧
      (loading.isMaybeWritable i = true ↔
        i - keys.length < (lookups.map fun lookup => lookup.writable.length).sum ∧
          ¬((∃ ix ∈ instructions, ix.program.toNat = i) ∧ SystemProgram.upgradeableLoader ∉ keys)) := by
  intro loading m
  refine ⟨fun i hi => ⟨agreesAt_of_lt hi, m.answers i⟩, ?_⟩
  intro i hi
  have hloaded : loading.isMaybeWritable i = true ↔
      i - keys.length < loading.loadedWritable ∧ ¬loading.Demotes i := isMaybeWritable_of_le hi
  rw [loadedWritable_eq_sum] at hloaded
  exact ⟨Message.isWritable_eq_false_of_le hkeys hi, hloaded⟩

/-- The header makes more keys readonly than there are of either kind. Two accounts are loaded to be written, and the
second of them is called. -/
theorem agrees_within_table_excess :
    let key (n : UInt8) : Pubkey := ⟨List.replicate 32 n, rfl⟩
    let header : Header := ⟨2, 3, 9⟩
    let keys : List Pubkey := [key 1, key 2, key 3, key 4]
    let instructions : List CompiledInstruction := [⟨5, [4, 3], []⟩, ⟨3, [6], [1]⟩]
    let lookups : List TableLookup := [⟨key 20, [7], []⟩, ⟨key 21, [0], [1]⟩]
    let other : Hash := ⟨List.replicate 32 30, rfl⟩
    let loading : V0Message := ⟨⟨header, keys, Fixed.zero, instructions⟩, lookups⟩
    let m : Message := ⟨header, keys, other, instructions⟩
    header.required.toNat ≤ keys.length ∧ (∀ i < 4, loading.AgreesAt m i ∧ m.Answers i) ∧
      m.isWritable 4 = false ∧ loading.isMaybeWritable 4 = true ∧ ¬loading.isMaybeWritable 5 = true := by
  intro key header keys instructions lookups other loading m
  have hkeys : header.required.toNat ≤ keys.length := by decide
  obtain ⟨hagrees, hbehind⟩ := agrees_within_table instructions lookups Fixed.zero other hkeys
  refine ⟨hkeys, hagrees, (hbehind 4 (by decide)).1, (hbehind 4 (by decide)).2.2 (by decide +kernel), ?_⟩
  rw [(hbehind 5 (by decide)).2]
  decide +kernel

end V0Message

end LedgerTx
