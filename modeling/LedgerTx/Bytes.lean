/-! Byte strings, and the two ways a whole number is written in them. A byte string is a list, so that
layouts are concatenations and their lengths add up. A number takes exactly the width it is given, and
`ofLittleEndian_littleEndian` and `littleEndian_ofLittleEndian` say that writing and reading undo one
another as far as the width goes. -/

namespace LedgerTx

abbrev Bytes := List UInt8

namespace Bytes

/-- The low `width` bytes of `n`, least significant first. -/
def littleEndian : (width n : Nat) → Bytes
  | 0, _ => []
  | width + 1, n => UInt8.ofNat n :: littleEndian width (n / 256)

def bigEndian (width n : Nat) : Bytes :=
  (littleEndian width n).reverse

def ofLittleEndian (bs : Bytes) : Nat :=
  bs.foldr (fun b n => b.toNat + 256 * n) 0

def ofBigEndian (bs : Bytes) : Nat :=
  bs.foldl (fun n b => 256 * n + b.toNat) 0

@[simp] theorem length_littleEndian (width n : Nat) : (littleEndian width n).length = width := by
  induction width generalizing n with
  | zero => rfl
  | succ width ih => simp [littleEndian, ih]

@[simp] theorem length_bigEndian (width n : Nat) : (bigEndian width n).length = width := by
  simp [bigEndian]

theorem shiftLeft_succ_width (width : Nat) :
    1 <<< (8 * (width + 1)) = 256 * (1 <<< (8 * width)) := by
  rw [Nat.mul_succ, Nat.add_comm, Nat.shiftLeft_add, Nat.shiftLeft_eq, Nat.shiftLeft_eq 1 (8 * width),
    Nat.one_mul]
  rfl

theorem ofLittleEndian_lt (bs : Bytes) : ofLittleEndian bs < 1 <<< (8 * bs.length) := by
  induction bs with
  | nil => decide
  | cons b bs ih =>
    have hb := b.toNat_lt
    rw [List.length_cons, shiftLeft_succ_width]
    simp only [ofLittleEndian, List.foldr_cons] at *
    omega

/-- Reading back what was written gives the number modulo the first one that does not fit. -/
theorem ofLittleEndian_littleEndian (width n : Nat) :
    ofLittleEndian (littleEndian width n) = n % (1 <<< (8 * width)) := by
  induction width generalizing n with
  | zero => exact (Nat.mod_one n).symm
  | succ width ih =>
    have h := ih (n / 256)
    simp only [ofLittleEndian] at h
    simp only [littleEndian, ofLittleEndian, List.foldr_cons, h, UInt8.toNat_ofNat']
    rw [shiftLeft_succ_width, Nat.mod_mul]

theorem littleEndian_ofLittleEndian (bs : Bytes) :
    littleEndian bs.length (ofLittleEndian bs) = bs := by
  induction bs with
  | nil => rfl
  | cons b bs ih =>
    have hb := b.toNat_lt
    have hn : ofLittleEndian (b :: bs) = b.toNat + 256 * ofLittleEndian bs := rfl
    have hd : (b.toNat + 256 * ofLittleEndian bs) / 256 = ofLittleEndian bs := by omega
    simp only [List.length_cons, littleEndian, hn, hd, ih, List.cons.injEq, and_true]
    apply UInt8.toNat_inj.1
    simp only [UInt8.toNat_ofNat']
    omega

/-- The characters of a label, one byte each; labels are written in ASCII. -/
def ofLabel (label : String) : Bytes :=
  label.toList.map fun c => UInt8.ofNat c.toNat

def ofText (text : String) : Bytes :=
  text.toUTF8.toList

/-- The consecutive pieces of `width` bytes, where `width` is positive; the last one holds what is left
and may be shorter. -/
def pieces (width : Nat) : Bytes → List Bytes
  | [] => []
  | b :: bs => (b :: bs.take (width - 1)) :: pieces width (bs.drop (width - 1))
termination_by bs => bs.length
decreasing_by
  simp only [List.length_drop, List.length_cons]
  omega

theorem flatten_pieces (width : Nat) (bs : Bytes) : (pieces width bs).flatten = bs := by
  fun_induction pieces width bs with
  | case1 => rfl
  | case2 b bs ih => simp [ih]

end Bytes

end LedgerTx
