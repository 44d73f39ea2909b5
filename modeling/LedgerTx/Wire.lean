import LedgerTx.Fixed

/-! The wire form of values: what is written for one, and how one is read. A reader starts at a cursor, a place in
the bytes that are read, and gives a value, or the reason why there is none, together with the cursor afterwards:
a reading that fails may have moved on, and what is behind it can still be read. Sequences are written behind
their lengths. These are in groups of seven bits, lowest first, where the high bit of a byte says that another
follows. Any length can be written; only those up to 65535, in at most three bytes and without superfluous zero
groups, are read back, and `decode_encode` says that all of these are. A value is decoded from bytes only if it
takes all of them. -/

namespace LedgerTx

inductive DecodeError where
  | unexpectedEnd
  /-- A length above 65535. -/
  | lengthOverflow
  /-- A length that is not written in as few bytes as possible. -/
  | aliasedLength
  | trailingBytes (count : Nat)
  | unknownVersion (version : UInt8)
  | invalidBool (byte : UInt8)
  deriving DecidableEq

def DecodeError.message : DecodeError → String
  | .unexpectedEnd => "unexpected end of data"
  | .lengthOverflow => "compact length overflow"
  | .aliasedLength => "compact length is not canonically encoded"
  | .trailingBytes count => s!"{count} trailing bytes after value"
  | .unknownVersion version => s!"unknown message version: {version.toNat}"
  | .invalidBool byte => s!"invalid boolean byte: {byte.toNat}"

namespace CompactLength

/-- The greatest length that is read. -/
def limit : Nat := 65535

def encode (n : Nat) : Bytes :=
  if n < 128 then [UInt8.ofNat n] else UInt8.ofNat (n % 128 + 128) :: encode (n / 128)
termination_by n
decreasing_by omega

/-- The part of a length that starts with its group at the given place, and the number of bytes that it takes. -/
def decodeFrom : (place : Nat) → Bytes → Except DecodeError (Nat × Nat)
  | _, [] => .error .unexpectedEnd
  | place, b :: rest =>
    if 0 < place ∧ b = 0 then .error .aliasedLength
    else if 2 ≤ place ∧ 3 < b then .error .lengthOverflow
    else if b < 128 then .ok (b.toNat, 1)
    else do
      let (high, used) ← decodeFrom (place + 1) rest
      return (b.toNat - 128 + 128 * high, used + 1)

/-- The length in front of the bytes, and the number of bytes that it takes. -/
def decode (bs : Bytes) : Except DecodeError (Nat × Nat) :=
  decodeFrom 0 bs

/-- What is written from a place on is read back, if the whole length is up to the limit and the groups
from that place on are not superfluous. -/
theorem decodeFrom_encode {place n : Nat} (rest : Bytes) (hlimit : n ≤ limit >>> (7 * place))
    (hgroup : 0 < place → 0 < n) :
    decodeFrom place (encode n ++ rest) = .ok (n, (encode n).length) := by
  have hsmall : 2 ≤ place → n ≤ 3 := by
    intro h
    obtain ⟨k, rfl⟩ := Nat.exists_eq_add_of_le h
    rw [Nat.mul_add, Nat.shiftRight_add] at hlimit
    exact Nat.le_trans hlimit (Nat.shiftRight_le _ _)
  fun_induction encode n generalizing place with
  | case1 n h =>
    have hn : (UInt8.ofNat n).toNat = n := Nat.mod_eq_of_lt (by omega)
    have hzero : UInt8.ofNat n = 0 ↔ n = 0 := by simp [← UInt8.toNat_inj, hn]
    have hlow : 3 < UInt8.ofNat n ↔ 3 < n := by simp [UInt8.lt_iff_toNat_lt, hn]
    have hlast : UInt8.ofNat n < 128 ↔ n < 128 := by simp [UInt8.lt_iff_toNat_lt, hn]
    have h1 : ¬ (0 < place ∧ n = 0) := by omega
    have h2 : ¬ (2 ≤ place ∧ 3 < n) := by omega
    simp [decodeFrom, hzero, hlow, hlast, hn, h, h1, h2]
  | case2 n h ih =>
    have hn : (UInt8.ofNat (n % 128 + 128)).toNat = n % 128 + 128 := Nat.mod_eq_of_lt (by omega)
    have hzero : ¬ UInt8.ofNat (n % 128 + 128) = 0 := by
      rw [← UInt8.toNat_inj, hn]
      exact Nat.ne_of_gt (Nat.succ_pos _)
    have hlast : ¬ UInt8.ofNat (n % 128 + 128) < 128 := by
      rw [UInt8.lt_iff_toNat_lt, hn]
      exact Nat.not_lt.2 (Nat.le_add_left 128 _)
    have hplace : ¬ 2 ≤ place := by omega
    have hnext : n / 128 ≤ limit >>> (7 * (place + 1)) := by
      rw [Nat.mul_succ, Nat.shiftRight_add, Nat.shiftRight_eq_div_pow _ 7]
      exact Nat.div_le_div_right hlimit
    have ih := ih hnext (by omega) (by
      intro hp
      have hone : place = 1 := by omega
      subst hone
      exact hnext)
    simp only [List.cons_append, decodeFrom, hzero, hlast, hplace, and_false, false_and, if_false, ih, hn]
    simp only [bind, Except.bind, pure, Except.pure, Except.ok.injEq, Prod.mk.injEq, List.length_cons,
      and_true]
    omega

/-- A length up to the limit is read back, in as many bytes as are written for it. -/
theorem decode_encode {n : Nat} (h : n ≤ limit) (rest : Bytes) :
    decode (encode n ++ rest) = .ok (n, (encode n).length) :=
  decodeFrom_encode rest (by simpa using h) (by simp)

end CompactLength

/-- A place in an input, up to which it is read. What is behind the place is kept beside it, so that going on does
not start from the front of the input again. -/
structure Cursor where
  input : Bytes
  position : Nat
  rest : Bytes := input.drop position
  rest_eq : rest = input.drop position := by rfl

namespace Cursor

def start (input : Bytes) : Cursor where
  input := input
  position := 0

/-- The number of bytes that are unread. -/
def remaining (c : Cursor) : Nat := c.input.length - c.position

/-- The cursor so many bytes further on, whether or not there are as many. -/
def advance (c : Cursor) (count : Nat) : Cursor where
  input := c.input
  position := c.position + count
  rest := c.rest.drop count
  rest_eq := by rw [c.rest_eq, List.drop_drop]

theorem length_rest (c : Cursor) : c.rest.length = c.remaining := by
  rw [c.rest_eq, List.length_drop, remaining]

/-- There are fewer unread bytes than so many. -/
def Lacks (c : Cursor) (count : Nat) : Prop := c.remaining < count

theorem lacks_iff {c : Cursor} {count : Nat} : c.Lacks count ↔ (c.rest.take count).length < count := by
  rw [List.length_take, length_rest, Lacks]
  omega

instance (c : Cursor) (count : Nat) : Decidable (c.Lacks count) :=
  decidable_of_iff ((c.rest.take count).length < count) lacks_iff.symm

end Cursor

/-- A reading at a cursor, which also says where the cursor is afterwards. -/
abbrev Reader := EStateM DecodeError Cursor

namespace Reader

/-- The next byte, which stays unread. -/
def peek : Reader UInt8 := fun c =>
  match c.rest with
  | [] => .error .unexpectedEnd c
  | b :: _ => .ok b c

def byte : Reader UInt8 := do
  let b ← peek
  modify (·.advance 1)
  return b

def bool : Reader Bool := do
  match ← byte with
  | 0 => pure false
  | 1 => pure true
  | other => throw (.invalidBool other)

/-- The next `count` bytes; nothing is read if there are fewer. -/
def bytes (count : Nat) : Reader Bytes := fun c =>
  if c.Lacks count then .error .unexpectedEnd c else .ok (c.rest.take count) (c.advance count)

def fixed (kind : Kind) : Reader (Fixed kind) := fun c =>
  if h : c.Lacks kind.width then .error .unexpectedEnd c
  else
    have hlength : (c.rest.take kind.width).length = kind.width := by
      rw [Cursor.lacks_iff, List.length_take] at h
      rw [List.length_take]
      omega
    .ok ⟨c.rest.take kind.width, hlength⟩ (c.advance kind.width)

def littleEndian (width : Nat) : Reader Nat :=
  Bytes.ofLittleEndian <$> bytes width

/-- A compact length; nothing is read if it is refused. -/
def compactLength : Reader Nat := fun c =>
  match CompactLength.decode c.rest with
  | .ok (n, used) => .ok n (c.advance used)
  | .error e => .error e c

def compactBytes : Reader Bytes := do
  bytes (← compactLength)

/-- As many items as counted, put behind those read before, which are in reverse. -/
@[specialize] def itemsAfter {α : Type} (item : Reader α) :
    (count : Nat) → (before : List α) → Reader (List α)
  | 0, before => pure before.reverse
  | count + 1, before => do
    let value ← item
    itemsAfter item count (value :: before)

@[inline] def items {α : Type} (count : Nat) (item : Reader α) : Reader (List α) :=
  itemsAfter item count []

/-- Nothing, if nothing is unread. -/
def finish : Reader Unit := fun c =>
  match c.remaining with
  | 0 => .ok () c
  | count => .error (.trailingBytes count) c

end Reader

/-- What a reader gives at the cursor, and the cursor afterwards. -/
def Cursor.read {α : Type} (c : Cursor) (reader : Reader α) : Except DecodeError α × Cursor :=
  match reader c with
  | .ok value next => (.ok value, next)
  | .error e next => (.error e, next)

/-- The value that takes all of the bytes. -/
def Reader.all {α : Type} (reader : Reader α) (bs : Bytes) : Except DecodeError α :=
  ((Cursor.start bs).read do
    let value ← reader
    finish
    return value).1

class Wire (α : Type) where
  encode : α → Bytes
  decode : Reader α

@[specialize] def Reader.compactList (α : Type) [Wire α] : Reader (List α) := do
  items (← compactLength) Wire.decode

namespace Wire

def compactBytes (bs : Bytes) : Bytes :=
  CompactLength.encode bs.length ++ bs

def compactList {α : Type} [Wire α] (values : List α) : Bytes :=
  CompactLength.encode values.length ++ values.flatMap encode

def decodeAll (α : Type) [Wire α] (bs : Bytes) : Except DecodeError α :=
  Reader.all (decode : Reader α) bs

instance {kind : Kind} : Wire (Fixed kind) where
  encode value := value.bytes
  decode := Reader.fixed kind

end Wire

end LedgerTx
