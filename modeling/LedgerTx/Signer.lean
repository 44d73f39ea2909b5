import LedgerTx.Ed25519
import LedgerTx.Fixed

/-! Those who sign. What transactions ask of a signature scheme is public keys of seeds, signatures, and a test of
signatures; signing and verifying transactions is written for any scheme, and `ed25519` is the one in use. A key
pair is a seed together with the public key derived from it, which the type keeps true; written out it is its
seed followed by its key, and it is read back only if the two belong together. Signers are holders of a key pair,
signatures made beforehand, and placeholders for a signature that comes later. Two signers are taken for the same
if they sign for the same key. -/

namespace LedgerTx

structure SignatureScheme where
  publicKey : Seed → Pubkey
  sign : Seed → Bytes → Signature
  verify : Pubkey → Bytes → Signature → Bool
  /-- Whether 32 bytes can be read as a public key at all. -/
  isKey : Pubkey → Bool

def ed25519 : SignatureScheme where
  publicKey seed := ⟨Ed25519.publicKey seed.bytes, Ed25519.length_publicKey _⟩
  sign seed message :=
    ⟨Ed25519.sign seed.bytes (Ed25519.publicKey seed.bytes) message, Ed25519.length_sign _ _ _⟩
  verify key message signature := Ed25519.verify key.bytes message signature.bytes
  isKey key := Ed25519.onCurve key.bytes

/-- An input that does not fit what is signed. -/
inductive InputFault where
  | seedTooShort
  /-- A transaction whose signature slots are not as many as its message requires. -/
  | slotCount (slots required : Nat)
  /-- A message with fewer keys than signatures that it requires. -/
  | fewerKeys
  deriving DecidableEq

def InputFault.message : InputFault → String
  | .seedTooShort => "Seed is too short"
  | .slotCount slots required =>
    s!"transaction has {slots} signature slots but its message requires {required}"
  | .fewerKeys => "message has fewer keys than required signers"

/-- Bytes that are not a key pair. -/
inductive KeypairFault where
  | length (found : Nat)
  | notAKey
  /-- The public half is the key of another seed. -/
  | mismatched
  deriving DecidableEq

def KeypairFault.message : KeypairFault → String
  | .length found => s!"expected 64 bytes, got {found}"
  | .notAKey => "signature error: Cannot decompress Edwards point"
  | .mismatched => "signature error: Mismatched Keypair detected"

inductive SignerError where
  | keypairPubkeyMismatch
  | notEnoughSigners
  | tooManySigners
  /-- A signature made beforehand does not pass for the message. -/
  | presigner
  | invalidInput (fault : InputFault)
  | invalidKeypair (fault : KeypairFault)
  deriving DecidableEq

def SignerError.message : SignerError → String
  | .keypairPubkeyMismatch => "keypair-pubkey mismatch"
  | .notEnoughSigners => "not enough signers"
  | .tooManySigners => "too many signers"
  | .presigner => "presigner error"
  | .invalidInput fault => s!"invalid input: {fault.message}"
  | .invalidKeypair fault => s!"invalid keypair: {fault.message}"

structure Keypair (scheme : SignatureScheme) where
  seed : Seed
  pubkey : Pubkey
  pubkey_eq : pubkey = scheme.publicKey seed

namespace Keypair

variable {scheme : SignatureScheme}

def ofSeed (seed : Seed) : Keypair scheme :=
  ⟨seed, scheme.publicKey seed, rfl⟩

/-- The key pair whose seed is the first 32 bytes. -/
def ofSeedBytes (bs : Bytes) : Except SignerError (Keypair scheme) :=
  match Fixed.ofBytes? (bs.take Kind.seed.width) with
  | some seed => .ok (ofSeed seed)
  | none => .error (.invalidInput .seedTooShort)

def sign (pair : Keypair scheme) (message : Bytes) : Signature :=
  scheme.sign pair.seed message

/-- The seed followed by the public key. -/
def toFixed (pair : Keypair scheme) : Fixed .keypair :=
  ⟨pair.seed.bytes ++ pair.pubkey.bytes, by simp [Kind.width]⟩

def ofHalves (seed : Seed) (key : Pubkey) : Except SignerError (Keypair scheme) :=
  let pair : Keypair scheme := ofSeed seed
  if !scheme.isKey key then .error (.invalidKeypair .notAKey)
  else if pair.pubkey ≠ key then .error (.invalidKeypair .mismatched)
  else .ok pair

def ofBytes (bs : Bytes) : Except SignerError (Keypair scheme) :=
  match Fixed.ofBytes? (bs.take Kind.seed.width), Fixed.ofBytes? (bs.drop Kind.seed.width) with
  | some seed, some key => ofHalves seed key
  | _, _ => .error (.invalidKeypair (.length bs.length))

def text (pair : Keypair scheme) : String :=
  pair.toFixed.text

def parse (text : String) : Except ParseError (Keypair scheme) := do
  let fixed : Fixed .keypair ← Fixed.parse text
  match ofBytes fixed.bytes with
  | .ok pair => .ok pair
  | .error _ => .error (.invalid .keypair)

/-- How a pair is shown where its seed must stay hidden. -/
def redacted (pair : Keypair scheme) : String :=
  s!"Keypair({pair.pubkey.text})"

end Keypair

/-- Somebody or something that signs for a key. -/
inductive Signer (scheme : SignatureScheme) where
  | keypair (pair : Keypair scheme)
  /-- A signature made beforehand. -/
  | presigner (pubkey : Pubkey) (signature : Signature)
  /-- A placeholder, which leaves its slot unsigned. -/
  | null (pubkey : Pubkey)

namespace Signer

variable {scheme : SignatureScheme}

def pubkey : Signer scheme → Pubkey
  | .keypair pair => pair.pubkey
  | .presigner pubkey _ => pubkey
  | .null pubkey => pubkey

/-- The signature of a message. One made beforehand is given out only if it passes for the message. -/
def sign : Signer scheme → Bytes → Except SignerError Signature
  | .keypair pair, message => .ok (pair.sign message)
  | .presigner pubkey signature, message =>
    if scheme.verify pubkey message signature then .ok signature else .error .presigner
  | .null _, _ => .ok Fixed.zero

instance : BEq (Signer scheme) := ⟨fun a b => a.pubkey == b.pubkey⟩

end Signer

end LedgerTx
