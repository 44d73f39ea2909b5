import LedgerTx.Message.Versioned
import Mathlib.Data.Nat.Count
import Mathlib.Order.Interval.Finset.Nat
import Mathlib.Tactic.SplitIfs

/-! Places in the table of a message. The two forms of messages tell by different tests whether a place is
written; over the table they come to the same. A header that fits the table cuts it into four stretches, one
for each answer to whether a place signs and whether it is written, and its counts are their lengths. -/

namespace LedgerTx

namespace V0Message

variable {m : V0Message}

theorem isMaybeWritableIndex_of_lt {i : Nat} (hi : i < m.accountKeys.length) :
    m.isMaybeWritableIndex i = m.toMessage.isWritableIndex i := by
  rw [Bool.eq_iff_iff]
  simp only [isMaybeWritableIndex, Message.isWritableIndex, Bool.or_eq_true, Bool.and_eq_true,
    decide_eq_true_iff]
  split_ifs with hloaded hothers
  · omega
  · rw [decide_eq_true_iff]
    omega
  · rw [decide_eq_true_iff]
    omega

theorem isMaybeWritableIndex_of_le {i : Nat} (hi : m.accountKeys.length ≤ i) :
    m.isMaybeWritableIndex i = true ↔ i - m.accountKeys.length < m.loadedWritable := by
  simp only [isMaybeWritableIndex, if_pos hi, decide_eq_true_iff]

end V0Message

namespace Message

variable {m : Message}

/-- Signers and unwritten others have places in the table, and some signer is written. -/
structure HeaderFits (m : Message) : Prop where
  keys : m.required + m.header.readonlyUnsigned.toNat ≤ m.accountKeys.length
  signers : m.header.readonlySigned.toNat < m.required

/-- The counts of the header are the numbers of places of each kind, for tests of which sign and are written. -/
structure Partitioned (m : Message) (isSigner isWritable : Nat → Bool) : Prop where
  writableSigners : Nat.count (fun i => isSigner i ∧ isWritable i) m.accountKeys.length =
    m.required - m.header.readonlySigned.toNat
  readonlySigners : Nat.count (fun i => isSigner i ∧ ¬isWritable i) m.accountKeys.length =
    m.header.readonlySigned.toNat
  writableOthers : Nat.count (fun i => ¬isSigner i ∧ isWritable i) m.accountKeys.length =
    m.accountKeys.length - m.required - m.header.readonlyUnsigned.toNat
  readonlyOthers : Nat.count (fun i => ¬isSigner i ∧ ¬isWritable i) m.accountKeys.length =
    m.header.readonlyUnsigned.toNat

/-- Places of which something holds are as many as the stretch that they make up is long. -/
theorem count_eq_of_stretch {p : Nat → Prop} [DecidablePred p] {count length : Nat} (first : Nat)
    (hlast : first + length ≤ count) (hp : ∀ i < count, p i ↔ first ≤ i ∧ i < first + length) :
    Nat.count p count = length := by
  have hplaces : (Finset.range count).filter p = Finset.Ico first (first + length) := by
    ext i
    rw [Finset.mem_filter, Finset.mem_range, Finset.mem_Ico]
    refine ⟨fun h => (hp i h.1).1 h.2, ?_⟩
    intro h
    have hi : i < count := Nat.lt_of_lt_of_le h.2 hlast
    exact ⟨hi, (hp i hi).2 h⟩
  rw [Nat.count_eq_card_filter_range, hplaces, Nat.card_Ico, Nat.add_sub_cancel_left]

theorem isSigner_iff {i : Nat} : m.isSigner i = true ↔ i < m.required := by
  rw [isSigner, decide_eq_true_iff]

theorem isWritableIndex_iff {i : Nat} : m.isWritableIndex i = true ↔
    i < m.required - m.header.readonlySigned.toNat ∨
      m.required ≤ i ∧ i < m.accountKeys.length - m.header.readonlyUnsigned.toNat := by
  simp only [isWritableIndex, Bool.or_eq_true, Bool.and_eq_true, decide_eq_true_iff]

/-- The four kinds follow one another in the table; each is a stretch from where the one before ends. -/
theorem HeaderFits.partitioned (h : m.HeaderFits) {isSigner isWritable : Nat → Bool}
    (hsigner : ∀ i, isSigner i = m.isSigner i)
    (hwritable : ∀ i < m.accountKeys.length, isWritable i = m.isWritableIndex i) :
    m.Partitioned isSigner isWritable := by
  obtain ⟨hkeys, hsigners⟩ := h
  have hplace : ∀ i < m.accountKeys.length, isWritable i = true ↔
      i < m.required - m.header.readonlySigned.toNat ∨
        m.required ≤ i ∧ i < m.accountKeys.length - m.header.readonlyUnsigned.toNat := by
    intro i hi
    rw [hwritable i hi, isWritableIndex_iff]
  refine ⟨count_eq_of_stretch 0 (by omega) ?_,
    count_eq_of_stretch (m.required - m.header.readonlySigned.toNat) (by omega) ?_,
    count_eq_of_stretch m.required (by omega) ?_,
    count_eq_of_stretch (m.accountKeys.length - m.header.readonlyUnsigned.toNat) (by omega) ?_⟩
  all_goals
    intro i hi
    rw [hsigner i, isSigner_iff, hplace i hi]
    omega

end Message

end LedgerTx
