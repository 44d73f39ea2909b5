import LedgerTx.Ed25519
import LedgerTx.Fixed

/-! Addresses that are hashes. A program address is the hash of seeds, a program and a marker, and must
not be a point of the curve, so that no key pair has it; a bump seed is searched for that makes it so.
A seeded address is the hash of a base key, a text and an owner. The hash and the curve are parameters,
and `AddressScheme.standard` gives the ones in use. -/

namespace LedgerTx

structure AddressScheme where
  hash : Bytes → Pubkey
  onCurve : Pubkey → Bool

def Fixed.onCurve (key : Pubkey) : Bool :=
  Ed25519.onCurve key.bytes

def AddressScheme.standard : AddressScheme where
  hash preimage := ⟨Sha2.sha256 preimage, Sha2.length_sha256 _⟩
  onCurve := Fixed.onCurve

inductive AddressError where
  /-- There are too many seeds, or one is too long. -/
  | maxSeedLengthExceeded
  /-- The hash is a point of the curve. -/
  | invalidSeeds
  /-- The owner ends with the marker of program addresses. -/
  | illegalOwner
  /-- Every bump seed leads to a point of the curve. -/
  | noViableBumpSeed
  deriving DecidableEq

def AddressError.message : AddressError → String
  | .maxSeedLengthExceeded => "length of the seed is too long for address generation"
  | .invalidSeeds => "provided seeds do not result in a valid address"
  | .illegalOwner => "provided owner is not allowed"
  | .noViableBumpSeed => "unable to find a viable program address bump seed"

namespace DerivedAddress

/-- The most seeds of a program address, its bump seed included. -/
def maxSeeds : Nat := 16

def maxSeedLength : Nat := 32

/-- What the hashed bytes of every program address end with. -/
def marker : Bytes := Bytes.ofLabel "ProgramDerivedAddress"

def programPreimage (seeds : List Bytes) (program : Pubkey) : Bytes :=
  seeds.flatten ++ (program.bytes ++ marker)

def seededPreimage (base : Pubkey) (seed : String) (owner : Pubkey) : Bytes :=
  base.bytes ++ (Bytes.ofText seed ++ owner.bytes)

def hasLongSeed (seeds : List Bytes) : Bool :=
  seeds.any fun seed => maxSeedLength < seed.length

variable (scheme : AddressScheme)

def ofProgram (seeds : List Bytes) (program : Pubkey) : Except AddressError Pubkey :=
  if maxSeeds < seeds.length ∨ hasLongSeed seeds then .error .maxSeedLengthExceeded
  else
    let address := scheme.hash (programPreimage seeds program)
    if scheme.onCurve address then .error .invalidSeeds else .ok address

/-- The first program address off the curve, among those of the seeds followed by a bump seed below
`bumps`, from the greatest down; none as soon as the seeds are refused for another reason. -/
def searchBelow (seeds : List Bytes) (program : Pubkey) : (bumps : Nat) → Option (Pubkey × UInt8)
  | 0 => none
  | bump + 1 =>
    match ofProgram scheme (seeds ++ [[UInt8.ofNat bump]]) program with
    | .ok address => some (address, UInt8.ofNat bump)
    | .error .invalidSeeds => searchBelow seeds program bump
    | .error _ => none

def find? (seeds : List Bytes) (program : Pubkey) : Option (Pubkey × UInt8) :=
  searchBelow scheme seeds program 256

def find (seeds : List Bytes) (program : Pubkey) : Except AddressError (Pubkey × UInt8) :=
  if maxSeeds ≤ seeds.length ∨ hasLongSeed seeds then .error .maxSeedLengthExceeded
  else
    match find? scheme seeds program with
    | some found => .ok found
    | none => .error .noViableBumpSeed

/-- The address seeded by a text, which counts by its UTF-8 bytes. -/
def ofSeed (base : Pubkey) (seed : String) (owner : Pubkey) : Except AddressError Pubkey :=
  if maxSeedLength < seed.utf8ByteSize then .error .maxSeedLengthExceeded
  else if marker.isSuffixOf owner.bytes then .error .illegalOwner
  else .ok (scheme.hash (seededPreimage base seed owner))

end DerivedAddress

end LedgerTx
