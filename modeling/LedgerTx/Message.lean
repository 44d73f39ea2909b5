import LedgerTx.Digest.Blake3
import LedgerTx.Instruction

/-! Messages: what signatures are made for. A message is a table of account keys that its header cuts
into four categories, a recent block hash, and instructions that name accounts by their places in the
table. This is the legacy form; other forms add to it. A message answers which of its accounts sign, are written
and are called, where places in the table are counted from zero and may be asked for beyond its end. One that
comes from elsewhere holds together if its header fits the table, the first account signs and is written, and no
instruction names an account that is not there or calls the first one. A message may carry the value of a nonce
account in place of a recent block hash; it then starts by advancing the nonce, with a call of the system program
whose first account is written. -/

namespace LedgerTx

/-- The counts that cut a table of keys into categories. The first `required` keys sign, and the last
`readonlySigned` of these are not written; of the others, the last `readonlyUnsigned` are not. -/
structure Header where
  required : UInt8
  readonlySigned : UInt8
  readonlyUnsigned : UInt8
  deriving DecidableEq, Inhabited

/-- A message whose accounts are all in its table of keys. -/
structure Message where
  header : Header
  accountKeys : List Pubkey
  recentBlockhash : Hash
  instructions : List CompiledInstruction
  deriving DecidableEq, Inhabited

instance : Wire Header where
  encode header := [header.required, header.readonlySigned, header.readonlyUnsigned]
  decode := do
    let required ← Reader.byte
    let readonlySigned ← Reader.byte
    let readonlyUnsigned ← Reader.byte
    return ⟨required, readonlySigned, readonlyUnsigned⟩

instance : Wire Message where
  encode m :=
    Wire.encode m.header ++
      (Wire.compactList m.accountKeys ++
        (Wire.encode m.recentBlockhash ++ Wire.compactList m.instructions))
  decode := do
    let header ← Wire.decode
    let accountKeys ← Reader.compactList Pubkey
    let recentBlockhash ← Wire.decode
    let instructions ← Reader.compactList CompiledInstruction
    return ⟨header, accountKeys, recentBlockhash, instructions⟩

/-- What is put in front of a message's bytes before they are hashed. -/
def hashLabel : Bytes := Bytes.ofLabel "solana-tx-message-v1"

def messageHash (bs : Bytes) : Hash :=
  ⟨Blake3.digest (hashLabel ++ bs), Blake3.length_digest _⟩

namespace Message

variable (m : Message)

def serialize : Bytes := Wire.encode m

def hash : Hash := messageHash m.serialize

/-- The number of signatures that a message requires. -/
def required : Nat := m.header.required.toNat

def isSigner (i : Nat) : Bool := i < m.required

/-- The keys that sign, in the order of their signatures. -/
def signerKeys : List Pubkey := m.accountKeys.take m.required

/-- Whether a place is in one of the two writable categories. -/
def isWritableIndex (i : Nat) : Bool :=
  i < m.required - m.header.readonlySigned.toNat ||
    m.required ≤ i && i < m.accountKeys.length - m.header.readonlyUnsigned.toNat

/-- Whether some instruction calls the account at a place as its program. -/
def isCalled (i : Nat) : Bool :=
  m.instructions.any fun instruction => instruction.program.toNat == i

/-- Whether some instruction passes the account at a place to its program. -/
def isPassed (i : Nat) : Bool :=
  m.instructions.any fun instruction => instruction.accounts.any fun account => account.toNat == i

/-- Whether the account at a place is not only called. -/
def isNonLoader (i : Nat) : Bool := !m.isCalled i || m.isPassed i

def hasUpgradeableLoader : Bool := m.accountKeys.contains SystemProgram.upgradeableLoader

/-- Whether the account at a place keeps out of writing because it is called; it does unless the loader
of upgradeable programs is there to write it. -/
def isDemoted (i : Nat) : Bool := m.isCalled i && !m.hasUpgradeableLoader

def isWritable (i : Nat) : Bool := m.isWritableIndex i && !m.isDemoted i

def hasDuplicates : Bool := !decide m.accountKeys.Nodup

def programKey? (instruction : Nat) : Option Pubkey :=
  m.instructions[instruction]?.bind fun instruction => instruction.programKey? m.accountKeys

def programIndex? (instruction : Nat) : Option Nat :=
  m.instructions[instruction]?.map fun instruction => instruction.program.toNat

/-- The keys of the programs called, in the order of the instructions, as far as they are in the table. -/
def programKeys : List Pubkey :=
  m.instructions.filterMap fun instruction => instruction.programKey? m.accountKeys

/-- The first position among the programs called that has the key at a place of the table. -/
def programPosition? (i : Nat) : Option Nat :=
  m.accountKeys[i]?.bind fun key => m.programKeys.idxOf? key

def maybeExecutable (i : Nat) : Bool := (m.programPosition? i).isSome

end Message

inductive SanitizeError where
  | indexOutOfBounds
  | invalidValue
  deriving DecidableEq

def SanitizeError.message : SanitizeError → String
  | .indexOutOfBounds => "index out of bounds"
  | .invalidValue => "invalid value"

/-- Whether the signers and the unwritten others are more than there are keys. -/
def Message.headerExceedsKeys (m : Message) : Bool :=
  m.accountKeys.length < m.required + m.header.readonlyUnsigned.toNat

/-- Whether no signer is written, and so not the first one. -/
def Message.lacksWritableSigner (m : Message) : Bool :=
  m.header.required ≤ m.header.readonlySigned

/-- Whether an instruction calls a program among the first `programs` places but not at the first of all,
and names accounts among the first `accounts` places. -/
def CompiledInstruction.isWithin (instruction : CompiledInstruction) (programs accounts : Nat) : Bool :=
  instruction.program != 0 && instruction.program.toNat < programs &&
    instruction.accounts.all fun account => account.toNat < accounts

def Message.sanitize (m : Message) : Except SanitizeError Unit :=
  let count := m.accountKeys.length
  if m.headerExceedsKeys then .error .indexOutOfBounds
  else if m.lacksWritableSigner then .error .indexOutOfBounds
  else if !m.instructions.all (·.isWithin count count) then .error .indexOutOfBounds
  else .ok ()

namespace CompiledInstruction

variable (instruction : CompiledInstruction)

def firstAccount? : Option Nat := instruction.accounts.head?.map UInt8.toNat

/-- The nonce account of an instruction that advances a nonce: the key of its first account. -/
def nonceKey? (keys : List Pubkey) : Option Pubkey :=
  instruction.firstAccount?.bind fun i => keys[i]?

/-- Whether an instruction advances a nonce, given the table of keys and which places are written. -/
def advancesNonce (keys : List Pubkey) (isWritable : Nat → Bool) : Bool :=
  instruction.programKey? keys == some SystemProgram.key &&
    SystemProgram.advanceNonceTag.isPrefixOf instruction.data &&
      instruction.firstAccount?.any isWritable

end CompiledInstruction

/-- The first instruction, if it advances a nonce. -/
def nonceInstructionOf? (keys : List Pubkey) (instructions : List CompiledInstruction)
    (isWritable : Nat → Bool) : Option CompiledInstruction :=
  instructions.head?.filter fun instruction => instruction.advancesNonce keys isWritable

def Message.nonceInstruction? (m : Message) : Option CompiledInstruction :=
  nonceInstructionOf? m.accountKeys m.instructions m.isWritable

end LedgerTx
