import LedgerTx.Bytes

/-! The SHA-2 hash functions on 32-bit and on 64-bit words. Both are one construction: a message is
padded to whole blocks of sixteen words, each block is expanded into a schedule of one word a round,
and the rounds stir the schedule into a state of eight words. Only the word width, the number of
rounds and six triples of amounts differ; the constants are digits of roots of the first primes. -/

namespace LedgerTx.Sha2

/-- The operations on words that the construction uses. -/
class Word (α : Type) extends Add α, AndOp α, XorOp α, Complement α where
  width : Nat
  ofNat : Nat → α
  toNat : α → Nat
  rotateRight : α → Nat → α
  shiftRight : α → Nat → α

instance : Word UInt32 where
  width := 4
  ofNat := UInt32.ofNat
  toNat := UInt32.toNat
  rotateRight x n := (x >>> UInt32.ofNat n) ||| (x <<< UInt32.ofNat (32 - n))
  shiftRight x n := x >>> UInt32.ofNat n

instance : Word UInt64 where
  width := 8
  ofNat := UInt64.ofNat
  toNat := UInt64.toNat
  rotateRight x n := (x >>> UInt64.ofNat n) ||| (x <<< UInt64.ofNat (64 - n))
  shiftRight x n := x >>> UInt64.ofNat n

/-- What sets one member of the family apart: its rounds, and the amounts of its four mixing functions.
A large one rotates three times; a small one rotates twice, and its third amount is a shift. -/
structure Variant where
  rounds : Nat
  large0 : Nat × Nat × Nat
  large1 : Nat × Nat × Nat
  small0 : Nat × Nat × Nat
  small1 : Nat × Nat × Nat

def narrow : Variant := ⟨64, (2, 13, 22), (6, 11, 25), (7, 18, 3), (17, 19, 10)⟩

def wide : Variant := ⟨80, (28, 34, 39), (14, 18, 41), (1, 8, 7), (19, 61, 6)⟩

def square (n : Nat) : Nat := n * n

def cube (n : Nat) : Nat := n * n * n

/-- The greatest `r` that agrees with `high` above its low `bits` bits and has `power r ≤ n`, when
`high` itself has. -/
def rootFrom (power : Nat → Nat) (n : Nat) : (bits high : Nat) → Nat
  | 0, high => high
  | bits + 1, high =>
    let next := high + (1 <<< bits)
    rootFrom power n bits (if power next ≤ n then next else high)

/-- The first `bits` binary digits after the point of the root of `n` under the given power. -/
def rootDigits (power : Nat → Nat) (bits n : Nat) : Nat :=
  rootFrom power (n * power (1 <<< bits)) (bits + 5) 0 % (1 <<< bits)

/-- The first eighty primes, of which the last is 409. -/
def primes : List Nat :=
  (List.range 410).filter fun n => 2 ≤ n && (List.range n).all fun d => d < 2 || n % d != 0

section

variable {α : Type} [Word α]

structure State (α : Type) where
  a : α
  b : α
  c : α
  d : α
  e : α
  f : α
  g : α
  h : α

/-- The constant of each round: a word of cube-root digits for each prime. -/
def roundConstants (α : Type) [Word α] (rounds : Nat) : List α :=
  (primes.take rounds).map fun p => Word.ofNat (rootDigits cube (8 * Word.width α) p)

def initial (α : Type) [Word α] : State α :=
  let root (p : Nat) : α := Word.ofNat (rootDigits square (8 * Word.width α) p)
  ⟨root 2, root 3, root 5, root 7, root 11, root 13, root 17, root 19⟩

@[inline] def large (amounts : Nat × Nat × Nat) (x : α) : α :=
  Word.rotateRight x amounts.1 ^^^ Word.rotateRight x amounts.2.1 ^^^ Word.rotateRight x amounts.2.2

@[inline] def small (amounts : Nat × Nat × Nat) (x : α) : α :=
  Word.rotateRight x amounts.1 ^^^ Word.rotateRight x amounts.2.1 ^^^ Word.shiftRight x amounts.2.2

/-- The words of a block followed by those computed from them, one word a round. -/
@[specialize] def schedule (v : Variant) (block : Array α) : Array α :=
  (List.range (v.rounds - 16)).foldl (fun w t =>
    let word (i : Nat) : α := w.getD (t + i) (Word.ofNat 0)
    w.push (small v.small1 (word 14) + word 9 + small v.small0 (word 1) + word 0)) block

@[inline] def round (v : Variant) (s : State α) (k w : α) : State α :=
  let choice := (s.e &&& s.f) ^^^ (~~~s.e &&& s.g)
  let majority := (s.a &&& s.b) ^^^ (s.a &&& s.c) ^^^ (s.b &&& s.c)
  let t1 := s.h + large v.large1 s.e + choice + k + w
  let t2 := large v.large0 s.a + majority
  ⟨t1 + t2, s.a, s.b, s.c, s.d + t1, s.e, s.f, s.g⟩

@[specialize] def compress (v : Variant) (constants : List α) (s : State α) (block : Bytes) : State α :=
  let words := (block.pieces (Word.width α)).map fun bs => Word.ofNat (Bytes.ofBigEndian bs)
  let t := (constants.zip (schedule v words.toArray).toList).foldl
    (fun s (k, w) => round v s k w) s
  ⟨s.a + t.a, s.b + t.b, s.c + t.c, s.d + t.d, s.e + t.e, s.f + t.f, s.g + t.g, s.h + t.h⟩

/-- What follows a message of the given length in bytes: a set bit, zeros up to the end of a block, and
the length in bits in the block's last two words. -/
def padding (width length : Nat) : Bytes :=
  let block := 16 * width
  let zeros := (2 * block - (length + 1 + 2 * width) % block) % block
  0x80 :: (List.replicate zeros 0 ++ Bytes.bigEndian (2 * width) (8 * length))

def State.bytes (s : State α) : Bytes :=
  [s.a, s.b, s.c, s.d, s.e, s.f, s.g, s.h].flatMap fun x =>
    Bytes.bigEndian (Word.width α) (Word.toNat x)

@[simp] theorem State.length_bytes (s : State α) : s.bytes.length = 8 * Word.width α := by
  simp only [State.bytes, List.flatMap_cons, List.flatMap_nil, List.length_append,
    Bytes.length_bigEndian, List.length_nil]
  omega

@[specialize] def run (v : Variant) (constants : List α) (start : State α) (message : Bytes) : State α :=
  let padded := message ++ padding (Word.width α) message.length
  (padded.pieces (16 * Word.width α)).foldl (compress v constants) start

end

def constants32 : List UInt32 := roundConstants UInt32 narrow.rounds

def constants64 : List UInt64 := roundConstants UInt64 wide.rounds

def initial32 : State UInt32 := initial UInt32

def initial64 : State UInt64 := initial UInt64

def state256 (message : Bytes) : State UInt32 := run narrow constants32 initial32 message

def state512 (message : Bytes) : State UInt64 := run wide constants64 initial64 message

@[irreducible] def sha256 (message : Bytes) : Bytes := (state256 message).bytes

@[irreducible] def sha512 (message : Bytes) : Bytes := (state512 message).bytes

@[simp] theorem length_sha256 (message : Bytes) : (sha256 message).length = 32 := by
  rw [sha256, State.length_bytes]
  rfl

@[simp] theorem length_sha512 (message : Bytes) : (sha512 message).length = 64 := by
  rw [sha512, State.length_bytes]
  rfl

end LedgerTx.Sha2
