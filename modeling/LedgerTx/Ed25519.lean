import LedgerTx.Digest.Sha2

/-! Ed25519 signatures. The field of the curve is the whole numbers modulo 2 ^ 255 - 19: powers are taken by
repeated squaring, and they give inverses and square roots, because the order of the field is a prime congruent
to five modulo eight. The points are those of the twisted Edwards curve -x² + y² = 1 + d x² y², kept in extended
coordinates, in which one formula adds any two of them. Verification is strict: it refuses scalars that are not
reduced, and keys and commitments of small order, so that a signature of zeros never passes. -/

namespace LedgerTx.Ed25519

def fieldOrder : Nat := (1 <<< 255) - 19

/-- The field has a zero and a one. The zero of whole numbers is spelled out, so that it is the same one
wherever the field is used. -/
instance : @NeZero Nat Zero.ofOfNat0 fieldOrder := ⟨by decide⟩

abbrev Field := Fin fieldOrder

namespace Field

/-- The element to the power of the low `bits` bits of `n`. -/
def power (x : Field) : (bits n : Nat) → Field
  | 0, _ => 1
  | bits + 1, n =>
    let root := x.power bits (n / 2)
    if n % 2 = 1 then root * root * x else root * root

/-- The inverse of an element other than zero; zero for zero. -/
def inverse (x : Field) : Field :=
  x.power 255 (fieldOrder - 2)

def imaginary : Field :=
  Field.power 2 255 ((fieldOrder - 1) / 4)

/-- A square root of `u / v`, if it has one. -/
def sqrtRatio? (u v : Field) : Option Field :=
  let v3 := v * v * v
  let r := u * v3 * (u * v3 * v3 * v).power 255 ((fieldOrder - 5) / 8)
  let square := v * (r * r)
  if square = u then some r else if square = -u then some (r * imaginary) else none

end Field

/-- The point with the affine coordinates `x / z` and `y / z`, where `t / z` is their product. -/
structure Point where
  x : Field
  y : Field
  z : Field
  t : Field

namespace Point

def curveD : Field := -121665 * Field.inverse 121666

def neutral : Point := ⟨0, 1, 1, 0⟩

def add (p q : Point) : Point :=
  let a := (p.y - p.x) * (q.y - q.x)
  let b := (p.y + p.x) * (q.y + q.x)
  let c := 2 * curveD * p.t * q.t
  let d := 2 * p.z * q.z
  ⟨(b - a) * (d - c), (d + c) * (b + a), (d - c) * (d + c), (b - a) * (b + a)⟩

def neg (p : Point) : Point :=
  ⟨-p.x, p.y, p.z, -p.t⟩

/-- The multiple of a point by the low `bits` bits of `n`. -/
def scale : (bits n : Nat) → Point → Point
  | 0, _, _ => neutral
  | bits + 1, n, p =>
    let rest := scale bits (n / 2) (p.add p)
    if n % 2 = 1 then rest.add p else rest

def same (p q : Point) : Bool :=
  p.x * q.z == q.x * p.z && p.y * q.z == q.y * p.z

/-- Whether eight times the point is the neutral point. -/
def hasSmallOrder (p : Point) : Bool :=
  (p.scale 4 8).same neutral

/-- The weight of the top bit of 32 bytes, which the 32-byte form of a point has to spare. -/
def topBit : Nat := 1 <<< 255

/-- The 32-byte form: the affine y, least significant byte first, with the parity of x as top bit. -/
def encode (p : Point) : Bytes :=
  let zi := p.z.inverse
  let x := p.x * zi
  let y := p.y * zi
  Bytes.littleEndian 32 (y.val + topBit * (x.val % 2))

@[simp] theorem length_encode (p : Point) : p.encode.length = 32 := Bytes.length_littleEndian 32 _

/-- The point with the given form, if there is one. The y of a form need not be reduced, and a set top
bit is accepted for x = 0. -/
def decode? (bs : Bytes) : Option Point := do
  let n := Bytes.ofLittleEndian bs
  let y : Field := Fin.ofNat fieldOrder (n % topBit)
  let root ← Field.sqrtRatio? (y * y - 1) (curveD * y * y + 1)
  let x := if root.val % 2 = n / topBit % 2 then root else -root
  return ⟨x, y, 1, x * y⟩

/-- The generator: the point with y = 4 / 5 and even x. -/
def generator : Point :=
  (decode? (Bytes.littleEndian 32 (4 * Field.inverse 5).val)).getD neutral

def generatorOrder : Nat := (1 <<< 252) + 27742317777372353535851937790883648493

end Point

def scalarOf (hash : Bytes) : Nat := Bytes.ofLittleEndian hash

/-- The secret scalar of a seed: the first half of its hash, with the low three bits and the top bit
cleared and the next bit set. -/
def secretScalar (seed : Bytes) : Nat :=
  let n := scalarOf ((Sha2.sha512 seed).take 32)
  let high := 1 <<< 254
  n % high / 8 * 8 + high

@[irreducible] def publicKey (seed : Bytes) : Bytes :=
  (Point.generator.scale 255 (secretScalar seed)).encode

def challenge (commitment publicKey message : Bytes) : Nat :=
  scalarOf (Sha2.sha512 (commitment ++ (publicKey ++ message))) % Point.generatorOrder

/-- The signature of a message under a seed with the given public key: the form of a commitment, and the
scalar that answers its challenge. -/
@[irreducible] def sign (seed publicKey message : Bytes) : Bytes :=
  let nonce := scalarOf (Sha2.sha512 ((Sha2.sha512 seed).drop 32 ++ message)) % Point.generatorOrder
  let commitment := (Point.generator.scale 253 nonce).encode
  let answer := nonce + challenge commitment publicKey message * secretScalar seed
  commitment ++ Bytes.littleEndian 32 (answer % Point.generatorOrder)

@[simp] theorem length_publicKey (seed : Bytes) : (publicKey seed).length = 32 := by
  rw [publicKey, Point.length_encode]

@[simp] theorem length_sign (seed publicKey message : Bytes) :
    (sign seed publicKey message).length = 64 := by
  simp [sign]

/-- Whether an answer fits a commitment, a key and a challenge: the generator times the answer is the
commitment plus the key times the challenge. -/
def answers (answer : Nat) (commitment key : Point) (challenge : Nat) : Bool :=
  ((Point.generator.scale 253 answer).add (key.neg.scale 253 challenge)).same commitment

@[irreducible] def verify (publicKey message signature : Bytes) : Bool :=
  match Point.decode? publicKey, Point.decode? (signature.take 32) with
  | some key, some commitment =>
    let answer := Bytes.ofLittleEndian (signature.drop 32)
    publicKey.length == 32 && answer < Point.generatorOrder && !commitment.hasSmallOrder &&
      !key.hasSmallOrder &&
      answers answer commitment key (challenge (signature.take 32) publicKey message)
  | _, _ => false

@[irreducible] def onCurve (bs : Bytes) : Bool :=
  (Point.decode? bs).isSome

end LedgerTx.Ed25519
