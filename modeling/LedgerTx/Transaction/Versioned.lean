import LedgerTx.Transaction

/-! Transactions of messages of either form. They are signed at once by exactly the signers that are
required, given in any order, and are verified as legacy transactions are, with the keys and the bytes of the
message that they carry. A legacy transaction can be carried as one of these, and got back. -/

namespace LedgerTx

structure VersionedTransaction where
  signatures : List Signature
  message : VersionedMessage
  deriving DecidableEq

instance : Wire VersionedTransaction where
  encode t := Wire.compactList t.signatures ++ Wire.encode t.message
  decode := do
    let signatures ← Reader.compactList Signature
    let message ← Wire.decode
    return ⟨signatures, message⟩

def Transaction.toVersioned (t : Transaction) : VersionedTransaction :=
  ⟨t.signatures, .legacy t.message⟩

namespace VersionedTransaction

variable (t : VersionedTransaction)

def toLegacy? : Option Transaction :=
  match t.message with
  | .legacy message => some ⟨t.signatures, message⟩
  | .v0 _ => none

/-- The bytes that the signatures are for. -/
def messageBytes : Bytes := t.message.serialize

def required : Nat := t.message.required

def keys : List Pubkey := t.message.keys

def nonceInstruction? : Option CompiledInstruction := t.message.nonceInstruction?

/-- Refuses a transaction whose message does not hold together, or that has not as many signatures as
the message requires, or more than there are keys. -/
def sanitize : Except SanitizeError Unit :=
  match t.message.sanitize with
  | .error e => .error e
  | .ok _ =>
    if t.signatures.length < t.required then .error .indexOutOfBounds
    else if t.required < t.signatures.length then .error .invalidValue
    else if t.keys.length < t.signatures.length then .error .indexOutOfBounds
    else .ok ()

section

variable (scheme : SignatureScheme)

def verifyEach : List Bool :=
  verifySignatures scheme t.signatures t.keys t.messageBytes

/-- The hash of the message, if there are as many signatures as required, and every one that is tested passes. -/
def verifyAndHash : Except TransactionError Hash :=
  let bs := t.messageBytes
  let verified := verifySignatures scheme t.signatures t.keys bs
  if t.signatures.length ≠ t.required ∨ !verified.all id then .error .signatureFailure
  else .ok (messageHash bs)

/-- Whether there are as many signatures as required, none is left open, and every one that is tested
passes. -/
def isSigned : Bool :=
  t.signatures.length == t.required && t.signatures.all (· != Fixed.zero) &&
    (t.verifyEach scheme).all id

end

variable {scheme : SignatureScheme}

def signerFor (signers : List (Signer scheme)) (key : Pubkey) : Except SignerError (Signer scheme) :=
  match signers.find? fun signer => signer.pubkey == key with
  | some signer => .ok signer
  | none => .error .keypairPubkeyMismatch

def signaturesFor (message : VersionedMessage) (signers : List (Signer scheme)) :
    Except SignerError (List Signature) := do
  let chosen ← message.signerKeys.mapM (signerFor signers)
  chosen.mapM fun signer => signer.sign message.serialize

/-- The transaction of a message, signed by as many signers as it requires, each for one of its keys. -/
def signedBy (message : VersionedMessage) (signers : List (Signer scheme)) :
    Except SignerError VersionedTransaction :=
  if message.keys.length < message.required then .error (.invalidInput .fewerKeys)
  else if message.required < signers.length then .error .tooManySigners
  else if signers.length < message.required then .error .notEnoughSigners
  else (signaturesFor message signers).map fun signatures => ⟨signatures, message⟩

end VersionedTransaction

end LedgerTx
