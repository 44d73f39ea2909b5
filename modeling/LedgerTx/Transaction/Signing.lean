import LedgerTx.Transaction

/-! Signing legacy transactions, all at once or a few signers at a time. Signing changes a transaction
even when it fails midway, so it is an action on the transaction, and what was done before the failure
stays done. -/

namespace LedgerTx.Transaction

variable {scheme : SignatureScheme}

/-- An action on a legacy transaction that may fail. -/
abbrev Action (ε : Type) := EStateM ε Transaction

/-- The slot of the signature for a key: its first place among the keys that sign. -/
def slot? (t : Transaction) (key : Pubkey) : Option Nat :=
  (t.message.signerKeys.idxOf? key).filter fun i => i < t.signatures.length

/-- The transaction with another recent block hash. As this changes what is signed, every slot is opened
again, unless the hash is the same as before. -/
def withBlockhash (t : Transaction) (blockhash : Hash) : Transaction :=
  if t.message.recentBlockhash = blockhash then t
  else ⟨t.signatures.map fun _ => Fixed.zero, { t.message with recentBlockhash := blockhash }⟩

def fill (bs : Bytes) (signer : Signer scheme) : Action SignerError Unit := fun t =>
  match t.slot? signer.pubkey with
  | none => .error .keypairPubkeyMismatch t
  | some i =>
    match signer.sign bs with
    | .error e => .error e t
    | .ok signature => .ok () { t with signatures := t.signatures.set i signature }

/-- Fills the slots of the signers, in their order, under a block hash. Nothing changes if there are not
as many slots as signatures required, or if the first signer has no slot. -/
def partialSign (signers : List (Signer scheme)) (blockhash : Hash) : Action SignerError Unit := fun t =>
  if t.signatures.length ≠ t.required then
    .error (.invalidInput (.slotCount t.signatures.length t.required)) t
  else if signers.head?.any fun signer => (t.slot? signer.pubkey).isNone then
    .error .keypairPubkeyMismatch t
  else
    let t := t.withBlockhash blockhash
    signers.forM (fill t.messageBytes) t

def requireFilled : Action SignerError Unit := fun t =>
  if t.signatures.any (· == Fixed.zero) then .error .notEnoughSigners t else .ok () t

/-- Fills the slots of the signers and asks that none is left open. -/
def sign (signers : List (Signer scheme)) (blockhash : Hash) : Action SignerError Unit := do
  partialSign signers blockhash
  requireFilled

/-- The transaction that an action leaves behind, if it does not fail. -/
def after {ε : Type} (action : Action ε Unit) (t : Transaction) : Except ε Transaction :=
  match action t with
  | .ok _ left => .ok left
  | .error e _ => .error e

def signed (signers : List (Signer scheme)) (message : Message) (blockhash : Hash) :
    Except SignerError Transaction :=
  after (sign signers blockhash) (unsigned message)

def ofInstructions (instructions : List Instruction) (payer : Option Pubkey)
    (signers : List (Signer scheme)) (blockhash : Hash) : Except TransactionError Transaction := do
  let message ← (Message.compile instructions payer Fixed.zero).mapError TransactionError.compile
  (signed signers message blockhash).mapError TransactionError.signer

/-- The signed transaction of compiled instructions. Its table has first the keys of the signers, all of
them written, then other keys, and then programs, which are not written. -/
def ofCompiled (signers : List (Signer scheme)) (others programs : List Pubkey)
    (instructions : List CompiledInstruction) (blockhash : Hash) :
    Except TransactionError Transaction :=
  let keys := signers.map Signer.pubkey ++ (others ++ programs)
  if 255 < signers.length ∨ 255 < programs.length then
    .error (.compile (.tooManyAccountKeys keys.length))
  else
    let header : Header := ⟨UInt8.ofNat signers.length, 0, UInt8.ofNat programs.length⟩
    (signed signers ⟨header, keys, Fixed.zero, instructions⟩ blockhash).mapError TransactionError.signer

def signingPositions (t : Transaction) (keys : List Pubkey) :
    Except TransactionError (List (Option Nat)) :=
  if t.message.accountKeys.length < t.required then .error (.sanitize .indexOutOfBounds)
  else .ok (keys.map fun key => t.message.signerKeys.idxOf? key)

/-- Puts the keys and signatures of all signers in the place of those there were, and verifies the
outcome. Nothing changes if they, the slots or the keys do not fit what the message requires. -/
def replaceSignatures (scheme : SignatureScheme) (entries : List (Pubkey × Signature)) :
    Action TransactionError Unit := fun t =>
  if entries.length ≠ t.required ∨ t.signatures.length ≠ t.required ∨
      t.message.accountKeys.length < t.required then
    .error (.sanitize .indexOutOfBounds) t
  else
    let keys := entries.map Prod.fst ++ t.message.accountKeys.drop t.required
    let t : Transaction := ⟨entries.map Prod.snd, { t.message with accountKeys := keys }⟩
    match t.verify scheme with
    | .ok _ => .ok () t
    | .error e => .error e t

end LedgerTx.Transaction
