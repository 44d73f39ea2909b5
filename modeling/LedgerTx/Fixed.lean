import LedgerTx.Bytes

/-! Byte strings whose width is fixed by what they stand for, and their text. The kind is part of the type, so
that a key is not taken for a hash of the same width. They are ordered as their bytes are, so that the order of
keys is the order of their bytes. Their text is base 58: the bytes are read as one number, most significant
first, and the number is written in the digits of an alphabet without look-alikes; as a number does not show its
leading zero bytes, each of them is written as a leading zero digit. A text that is too long for its kind is
refused by its length alone, whatever its characters are. -/

namespace LedgerTx

/-- What a byte string of fixed width stands for. -/
inductive Kind where
  | pubkey
  | hash
  | signature
  | seed
  | keypair
  deriving DecidableEq, Repr

def Kind.width : Kind → Nat
  | .pubkey | .hash | .seed => 32
  | .signature | .keypair => 64

structure Fixed (kind : Kind) where
  bytes : Bytes
  length_bytes : bytes.length = kind.width
  deriving DecidableEq

/-- The key of an account: a public key, or an address that no key pair has. -/
abbrev Pubkey := Fixed .pubkey

abbrev Hash := Fixed .hash

/-- A signature, or the placeholder of zeros in a slot that is not signed yet. -/
abbrev Signature := Fixed .signature

abbrev Seed := Fixed .seed

namespace Fixed

variable {kind : Kind}

attribute [simp] length_bytes

@[ext] theorem ext {a b : Fixed kind} (h : a.bytes = b.bytes) : a = b := by
  cases a; cases b; cases h; rfl

def ofBytes? (bs : Bytes) : Option (Fixed kind) :=
  if h : bs.length = kind.width then some ⟨bs, h⟩ else none

theorem ofBytes?_bytes (a : Fixed kind) : ofBytes? a.bytes = some a := by
  simp [ofBytes?]

theorem ofBytes?_eq_some {bs : Bytes} {a : Fixed kind} : ofBytes? bs = some a ↔ bs = a.bytes := by
  constructor
  · intro h
    simp only [ofBytes?, Option.dite_none_right_eq_some, Option.some.injEq] at h
    obtain ⟨_, rfl⟩ := h
    rfl
  · rintro rfl
    exact ofBytes?_bytes a

def zero : Fixed kind := ⟨List.replicate kind.width 0, List.length_replicate⟩

instance : Inhabited (Fixed kind) := ⟨zero⟩

instance : Ord (Fixed kind) := ⟨fun a b => compare a.bytes b.bytes⟩

theorem compare_def (a b : Fixed kind) : compare a b = compare a.bytes b.bytes := rfl

instance : Std.TransOrd (Fixed kind) where
  eq_swap := Std.OrientedOrd.eq_swap (α := Bytes)
  isLE_trans := Std.TransOrd.isLE_trans (α := Bytes)

instance : Std.LawfulEqOrd (Fixed kind) where
  eq_of_compare h := ext (Std.LawfulEqOrd.eq_of_compare (α := Bytes) h)

/-- The values in ascending order; equal values keep their places. -/
def sort (values : List (Fixed kind)) : List (Fixed kind) :=
  values.mergeSort fun a b => (compare a b).isLE

end Fixed

namespace Base58

/-- The digits of `n` to a base of at least two, least significant first, without a leading zero. -/
def digits (base : Nat) (n : Nat) : List Nat :=
  if _ : n = 0 ∨ base < 2 then [] else n % base :: digits base (n / base)
termination_by n
decreasing_by exact Nat.div_lt_self (by omega) (by omega)

def ofDigits (base : Nat) (ds : List Nat) : Nat :=
  ds.foldl (fun n d => base * n + d) 0

/-- The digits of the same number to another base, most significant first, with as many leading zeros. -/
def rebase (source target : Nat) (ds : List Nat) : List Nat :=
  ds.takeWhile (· = 0) ++ (digits target (ofDigits source ds)).reverse

def alphabet : List Char :=
  "123456789ABCDEFGHJKLMNPQRSTUVWXYZabcdefghijkmnopqrstuvwxyz".toList

def charOf (d : Nat) : Char := alphabet.getD d '1'

def digitOf? (c : Char) : Option Nat := alphabet.idxOf? c

def encode (bs : Bytes) : String :=
  String.ofList ((rebase 256 58 (bs.map UInt8.toNat)).map charOf)

def decode? (text : String) : Option Bytes := do
  let ds ← text.toList.mapM digitOf?
  return (rebase 58 256 ds).map UInt8.ofNat

end Base58

def Kind.name : Kind → String
  | .pubkey => "pubkey"
  | .hash => "hash"
  | .signature => "signature"
  | .seed => "seed"
  | .keypair => "keypair"

inductive ParseError where
  /-- The text is too long, or stands for another number of bytes. -/
  | wrongSize (kind : Kind)
  | invalid (kind : Kind)
  deriving DecidableEq

def ParseError.message : ParseError → String
  | .wrongSize kind => s!"string decoded to wrong size for {kind.name}"
  | .invalid kind => s!"failed to decode string to {kind.name}"

/-- The most UTF-8 bytes that a text of a kind may have: 1366 digits are enough for 1000 bytes. -/
def Kind.maxTextLength (kind : Kind) : Nat :=
  (kind.width * 1366 + 999) / 1000

namespace Fixed

variable {kind : Kind}

def text (value : Fixed kind) : String :=
  Base58.encode value.bytes

def ofBytes (bs : Bytes) : Except ParseError (Fixed kind) :=
  match ofBytes? bs with
  | some value => .ok value
  | none => .error (.wrongSize kind)

def parse (text : String) : Except ParseError (Fixed kind) :=
  if kind.maxTextLength < text.utf8ByteSize then .error (.wrongSize kind)
  else
    match Base58.decode? text with
    | none => .error (.invalid kind)
    | some bs => ofBytes bs

end Fixed

end LedgerTx
