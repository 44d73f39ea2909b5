import LedgerTx.AccountTable
import LedgerTx.Signer

/-! Legacy transactions: a message together with a slot for each signature that it requires, in the order of
the keys. A slot that is not signed yet holds the signature of zeros. To verify a transaction is to test each
signature under the key at its own place, for the bytes of the message. A signature without a key, or a key without
a signature, is not tested; that there are as many signatures as required is asked separately. -/

namespace LedgerTx

structure Transaction where
  signatures : List Signature
  message : Message
  deriving DecidableEq

instance : Wire Transaction where
  encode t := Wire.compactList t.signatures ++ Wire.encode t.message
  decode := do
    let signatures ← Reader.compactList Signature
    let message ← Wire.decode
    return ⟨signatures, message⟩

inductive TransactionError where
  | signatureFailure
  | sanitize (error : SanitizeError)
  | signer (error : SignerError)
  | compile (error : CompileError)
  deriving DecidableEq

def TransactionError.message : TransactionError → String
  | .signatureFailure => "transaction did not pass signature verification"
  | .sanitize error =>
    s!"transaction failed to sanitize accounts offsets correctly: {error.message}"
  | .signer error => s!"signing failed: {error.message}"
  | .compile error => s!"message compilation failed: {error.message}"

/-- For each signature that has a key at its place, whether it passes under the key. -/
def verifySignatures (scheme : SignatureScheme) (signatures : List Signature) (keys : List Pubkey) (bs : Bytes) :
    List Bool :=
  (signatures.zip keys).map fun (signature, key) => scheme.verify key bs signature

namespace Transaction

/-- The transaction of a message with none of its slots signed. -/
def unsigned (message : Message) : Transaction :=
  ⟨List.replicate message.required Fixed.zero, message⟩

variable (t : Transaction)

/-- The bytes that the signatures are for. -/
def messageBytes : Bytes := t.message.serialize

def required : Nat := t.message.required

def keys : List Pubkey := t.message.accountKeys

def nonceInstruction? : Option CompiledInstruction := t.message.nonceInstruction?

def data? (instruction : Nat) : Option Bytes :=
  t.message.instructions[instruction]?.map fun instruction => instruction.data

def accountIndex? (instruction account : Nat) : Option Nat := do
  let instruction ← t.message.instructions[instruction]?
  let i ← instruction.accounts[account]?
  return i.toNat

def key? (instruction account : Nat) : Option Pubkey :=
  (t.accountIndex? instruction account).bind fun i => t.message.accountKeys[i]?

/-- The key of an account that an instruction names, if there is a slot for its signature. -/
def signerKey? (instruction account : Nat) : Option Pubkey :=
  (t.accountIndex? instruction account).bind fun i =>
    if i < t.signatures.length then t.message.accountKeys[i]? else none

/-- Refuses a transaction whose message does not hold together, or that has too few signatures for the
message, or more than there are keys. -/
def sanitize : Except SanitizeError Unit :=
  match t.message.sanitize with
  | .error e => .error e
  | .ok _ =>
    if t.signatures.length < t.required ∨ t.message.accountKeys.length < t.signatures.length then
      .error .indexOutOfBounds
    else .ok ()

section

variable (scheme : SignatureScheme)

def verifyEach : List Bool :=
  verifySignatures scheme t.signatures t.keys t.messageBytes

/-- The hash of the message, if there are as many signatures as required, and every one that is tested passes. -/
def verifyAndHash : Except TransactionError Hash :=
  let bs := t.messageBytes
  if t.signatures.length ≠ t.required ∨ !(verifySignatures scheme t.signatures t.keys bs).all id then
    .error .signatureFailure
  else .ok (messageHash bs)

def verify : Except TransactionError Unit := (t.verifyAndHash scheme).map fun _ => ()

/-- Whether there are as many signatures as required, none is left open, and every one that is tested
passes. -/
def isSigned : Bool :=
  t.signatures.length == t.required && t.signatures.all (· != Fixed.zero) &&
    (t.verifyEach scheme).all id

end

end Transaction

end LedgerTx
