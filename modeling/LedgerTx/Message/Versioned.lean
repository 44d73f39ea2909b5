import LedgerTx.Message

/-! Messages of version 0, and messages of either form. Besides the accounts in its table a message of version 0 uses
accounts of lookup tables: their places come after the table's, first everything that the lookups load to be
written, in the order of the lookups, and then everything that they load to be read. Its wire form is without the
version, which is put in front of it where it stands alone, and where it may be of either form: there the first
byte tells the forms apart. With its high bit set it is a version, and without it the first count of a legacy
header. -/

namespace LedgerTx

/-- Entries of one lookup table, by their places in it. -/
structure TableLookup where
  key : Pubkey
  writable : Bytes
  readonly : Bytes
  deriving DecidableEq

structure LookupTable where
  key : Pubkey
  addresses : List Pubkey

/-- The keys that lookups stand for. -/
structure LoadedAddresses where
  writable : List Pubkey
  readonly : List Pubkey
  deriving DecidableEq

namespace LoadedAddresses

/-- All the parts as one, each side in the order of the parts. -/
def join (parts : List LoadedAddresses) : LoadedAddresses :=
  ⟨parts.flatMap writable, parts.flatMap readonly⟩

def keys (loaded : LoadedAddresses) : List Pubkey := loaded.writable ++ loaded.readonly

end LoadedAddresses

structure V0Message extends Message where
  lookups : List TableLookup
  deriving DecidableEq

/-- The first byte of a message of version 0. Only the high bit is set: it says that the other bits are
a version. -/
def versionByte : UInt8 := 0x80

/-- Passes over the byte of version 0. Of any other byte, the low seven bits are the version. -/
def Reader.version : Reader Unit := do
  let first ← byte
  if first = versionByte then pure () else throw (.unknownVersion (first % 128))

instance : Wire TableLookup where
  encode lookup :=
    lookup.key.bytes ++ (Wire.compactBytes lookup.writable ++ Wire.compactBytes lookup.readonly)
  decode := do
    let key ← Wire.decode
    let writable ← Reader.compactBytes
    let readonly ← Reader.compactBytes
    return ⟨key, writable, readonly⟩

/-- The version is not part of the form. -/
instance : Wire V0Message where
  encode m := Wire.encode m.toMessage ++ Wire.compactList m.lookups
  decode := do
    let message ← Wire.decode
    let lookups ← Reader.compactList TableLookup
    return ⟨message, lookups⟩

namespace V0Message

variable (m : V0Message)

/-- The message behind its version. -/
def serialize : Bytes := versionByte :: Wire.encode m

def deserialize (bs : Bytes) : Except DecodeError V0Message :=
  Reader.all (do Reader.version; Wire.decode) bs

def hash : Hash := messageHash m.serialize

def isSigner (i : Nat) : Bool := i < m.header.required.toNat

def isCalled (i : Nat) : Bool :=
  m.instructions.any fun instruction => instruction.program.toNat == i

def isPassed (i : Nat) : Bool :=
  m.instructions.any fun instruction => instruction.accounts.any fun account => account.toNat == i

def isNonLoader (i : Nat) : Bool := !m.isCalled i || m.isPassed i

def hasUpgradeableLoader : Bool := m.accountKeys.contains SystemProgram.upgradeableLoader

/-- The number of accounts that the lookups load to be written. -/
def loadedWritable : Nat := (m.lookups.flatMap TableLookup.writable).length

def accountCount : Nat :=
  m.accountKeys.length + (m.lookups.flatMap fun lookup => lookup.writable ++ lookup.readonly).length

/-- Whether a place is in one of the writable categories, or is loaded to be written. -/
def isMaybeWritableIndex (i : Nat) : Bool :=
  let keys := m.accountKeys.length
  if keys ≤ i then i - keys < m.loadedWritable
  else if m.required ≤ i then i - m.required < keys - m.required - m.header.readonlyUnsigned.toNat
  else i < m.required - m.header.readonlySigned.toNat

def isMaybeWritable (i : Nat) : Bool :=
  m.isMaybeWritableIndex i && !(m.isCalled i && !m.hasUpgradeableLoader)

/-- Refuses a message that does not hold together. Programs must be in the table, every lookup must load
something, and there may not be more accounts than places that a byte can name. -/
def sanitize : Except SanitizeError Unit :=
  let count := m.accountKeys.length
  if m.headerExceedsKeys then .error .indexOutOfBounds
  else if m.lacksWritableSigner then .error .invalidValue
  else if m.lookups.any fun lookup => lookup.writable.isEmpty && lookup.readonly.isEmpty then
    .error .invalidValue
  else if 256 < m.accountCount then .error .indexOutOfBounds
  else if !m.instructions.all (·.isWithin count m.accountCount) then .error .indexOutOfBounds
  else .ok ()

end V0Message

/-- A message of either form. -/
inductive VersionedMessage where
  | legacy (m : Message)
  | v0 (m : V0Message)
  deriving DecidableEq

instance : Wire VersionedMessage where
  encode
    | .legacy m => Wire.encode m
    | .v0 m => versionByte :: Wire.encode m
  decode := do
    let first ← Reader.peek
    if first < 128 then .legacy <$> Wire.decode
    else
      let _ ← Reader.byte
      if first % 128 = 0 then .v0 <$> Wire.decode else throw (.unknownVersion (first % 128))

namespace VersionedMessage

def header : VersionedMessage → Header
  | .legacy m => m.header
  | .v0 m => m.header

/-- The keys that are written into the message itself. -/
def keys : VersionedMessage → List Pubkey
  | .legacy m => m.accountKeys
  | .v0 m => m.accountKeys

def recentBlockhash : VersionedMessage → Hash
  | .legacy m => m.recentBlockhash
  | .v0 m => m.recentBlockhash

def instructions : VersionedMessage → List CompiledInstruction
  | .legacy m => m.instructions
  | .v0 m => m.instructions

/-- The version; the legacy form has none. -/
def version? : VersionedMessage → Option Nat
  | .legacy _ => none
  | .v0 _ => some 0

def withBlockhash (blockhash : Hash) : VersionedMessage → VersionedMessage
  | .legacy m => .legacy { m with recentBlockhash := blockhash }
  | .v0 m => .v0 { m with recentBlockhash := blockhash }

def isMaybeWritable : VersionedMessage → Nat → Bool
  | .legacy m => m.isWritable
  | .v0 m => m.isMaybeWritable

def isCalled : VersionedMessage → Nat → Bool
  | .legacy m => m.isCalled
  | .v0 m => m.isCalled

def isNonLoader : VersionedMessage → Nat → Bool
  | .legacy m => m.isNonLoader
  | .v0 m => m.isNonLoader

def sanitize : VersionedMessage → Except SanitizeError Unit
  | .legacy m => m.sanitize
  | .v0 m => m.sanitize

variable (m : VersionedMessage)

def serialize : Bytes := Wire.encode m

def hash : Hash := messageHash m.serialize

/-- The number of signatures that a message requires. -/
def required : Nat := m.header.required.toNat

/-- The keys that sign, in the order of their signatures. -/
def signerKeys : List Pubkey := m.keys.take m.required

def isSigner (i : Nat) : Bool := i < m.required

def nonceInstruction? : Option CompiledInstruction :=
  nonceInstructionOf? m.keys m.instructions m.isMaybeWritable

end VersionedMessage

end LedgerTx
