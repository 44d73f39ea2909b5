import LedgerTx.Digest.Sha2

/-! The BLAKE3 hash function with its 32-byte output and no key. A message is cut into chunks of 1024
bytes, each chunk is a chain of blocks of 64 bytes, and the chunks are the leaves of a binary tree whose
root gives the hash. A node is kept before its last compression, because only the root's is marked. -/

namespace LedgerTx.Blake3

/-- Eight words that stand for a subtree. -/
abbrev Chaining := Vector UInt32 8

/-- The sixteen words of a block, or of the state that a block is stirred into. -/
abbrev Block := Vector UInt32 16

def start : Chaining :=
  let s := Sha2.initial32
  #v[s.a, s.b, s.c, s.d, s.e, s.f, s.g, s.h]

def chunkStart : UInt32 := 1

def chunkEnd : UInt32 := 2

def joining : UInt32 := 4

def root : UInt32 := 8

@[inline] def rotateRight (x n : UInt32) : UInt32 :=
  (x >>> n) ||| (x <<< (32 - n))

/-- Stirs two words of the block into four words of the state. -/
def mix (s : Block) (a b c d : Fin 16) (x y : UInt32) : Block :=
  let va := s[a] + s[b] + x
  let vd := rotateRight (s[d] ^^^ va) 16
  let vc := s[c] + vd
  let vb := rotateRight (s[b] ^^^ vc) 12
  let va := va + vb + y
  let vd := rotateRight (vd ^^^ va) 8
  let vc := vc + vd
  let vb := rotateRight (vb ^^^ vc) 7
  (((s.set a va).set b vb).set c vc).set d vd

/-- One round: the columns of the state, then its diagonals. -/
def round (s m : Block) : Block :=
  let s := mix s 0 4 8 12 m[0] m[1]
  let s := mix s 1 5 9 13 m[2] m[3]
  let s := mix s 2 6 10 14 m[4] m[5]
  let s := mix s 3 7 11 15 m[6] m[7]
  let s := mix s 0 5 10 15 m[8] m[9]
  let s := mix s 1 6 11 12 m[10] m[11]
  let s := mix s 2 7 8 13 m[12] m[13]
  mix s 3 4 9 14 m[14] m[15]

def permute (m : Block) : Block :=
  #v[m[2], m[6], m[3], m[10], m[7], m[0], m[4], m[13],
    m[1], m[11], m[12], m[5], m[9], m[14], m[15], m[8]]

def rounds : (count : Nat) → (s m : Block) → Block
  | 0, s, _ => s
  | count + 1, s, m => rounds count (round s m) (permute m)

/-- A compression that is still to be done. `length` counts the block's bytes before padding. -/
structure Node where
  chaining : Chaining
  block : Block
  counter : Nat
  length : Nat
  marks : UInt32

def Node.compress (n : Node) (further : UInt32) : Chaining :=
  let h := n.chaining
  let s := rounds 7
    #v[h[0], h[1], h[2], h[3], h[4], h[5], h[6], h[7], start[0], start[1], start[2], start[3],
      UInt32.ofNat n.counter, UInt32.ofNat (n.counter >>> 32), UInt32.ofNat n.length,
      n.marks ||| further] n.block
  Vector.ofFn fun i : Fin 8 => s[i.val] ^^^ s[i.val + 8]

/-- The words of at most 64 bytes, least significant byte first, with zeros behind them. -/
def blockOf (bs : Bytes) : Block :=
  let words := ((bs.pieces 4).map fun w => UInt32.ofNat (Bytes.ofLittleEndian w)).toArray
  Vector.ofFn fun i : Fin 16 => words.getD i 0

/-- The node of a chunk whose earlier blocks gave `chaining` and whose other blocks are given. An empty
message has one chunk, of one empty block. -/
def chain (counter : Nat) (chaining : Chaining) (marks : UInt32) : List Bytes → Node
  | [] => ⟨chaining, blockOf [], counter, 0, marks ||| chunkEnd⟩
  | [last] => ⟨chaining, blockOf last, counter, last.length, marks ||| chunkEnd⟩
  | bs :: rest =>
    let node : Node := ⟨chaining, blockOf bs, counter, bs.length, marks⟩
    chain counter (node.compress 0) 0 rest

def leaf (counter : Nat) (chunk : Bytes) : Node :=
  chain counter start chunkStart (chunk.pieces 64)

def join (l r : Node) : Node :=
  ⟨start, l.compress 0 ++ r.compress 0, 0, 64, joining⟩

/-- Joins neighbours; a last node without a neighbour goes up as it is. -/
def joinPairs : List Node → List Node
  | l :: r :: rest => join l r :: joinPairs rest
  | rest => rest

theorem length_joinPairs_le (nodes : List Node) : (joinPairs nodes).length ≤ nodes.length := by
  fun_induction joinPairs nodes with
  | case1 l r rest ih => simp only [List.length_cons]; omega
  | case2 rest => exact Nat.le_refl _

def rootOf (first : Node) : List Node → Node
  | [] => first
  | second :: rest => rootOf (join first second) (joinPairs rest)
termination_by rest => rest.length
decreasing_by
  have := length_joinPairs_le rest
  simp only [List.length_cons]
  omega

def leaves (message : Bytes) : List Node :=
  (message.pieces 1024).zipIdx.map fun (chunk, i) => leaf i chunk

@[irreducible] def digest (message : Bytes) : Bytes :=
  let node := match leaves message with
    | [] => leaf 0 []
    | first :: rest => rootOf first rest
  (node.compress root).toList.flatMap fun x => Bytes.littleEndian 4 x.toNat

@[simp] theorem length_digest (message : Bytes) : (digest message).length = 32 := by
  simp [digest, List.length_flatMap, List.map_const']

end LedgerTx.Blake3
