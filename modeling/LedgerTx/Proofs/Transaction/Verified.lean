import LedgerTx.Proofs.SignatureScheme
import LedgerTx.Proofs.Wire.Formats
import LedgerTx.Transaction.Versioned
import Mathlib.Data.List.Zip

/-! What it means that a transaction is verified. Signatures are tested in pairs with keys, and there are
only as many pairs as the shorter side has members; the number of signatures is compared with the header,
and the number of keys is not. Hence a verified transaction is signed by all if its table has a key for
every signature that the header requires, and otherwise it is not. Transactions of both forms are verified alike,
each by functions of its own; what these look at is the sealing of the transaction. -/

namespace LedgerTx

/-- What is looked at when a transaction is verified, whatever the form of its message. -/
structure Sealing where
  signatures : List Signature
  keys : List Pubkey
  required : Nat
  bytes : Bytes

def Transaction.sealing (t : Transaction) : Sealing :=
  ⟨t.signatures, t.keys, t.required, t.messageBytes⟩

def VersionedTransaction.sealing (t : VersionedTransaction) : Sealing :=
  ⟨t.signatures, t.keys, t.required, t.messageBytes⟩

namespace Sealing

variable {scheme : SignatureScheme} {s : Sealing}

/-- Each signature that has a key at its place passes under it. -/
def EachPasses (scheme : SignatureScheme) (s : Sealing) : Prop :=
  ∀ (i : Nat) (signature : Signature) (key : Pubkey), s.signatures[i]? = some signature →
    s.keys[i]? = some key → scheme.verify key s.bytes signature = true

/-- There are as many signatures as required, and each that has a key passes under it. -/
structure Verified (scheme : SignatureScheme) (s : Sealing) : Prop where
  count : s.signatures.length = s.required
  each : s.EachPasses scheme

/-- A verified sealing of which no slot is open. -/
structure Signed (scheme : SignatureScheme) (s : Sealing) : Prop extends s.Verified scheme where
  filled : ∀ signature ∈ s.signatures, signature ≠ Fixed.zero

/-- For each signature that is required there is a key at its place, under which the signature there
passes. -/
def SignedByAll (scheme : SignatureScheme) (s : Sealing) : Prop :=
  ∀ i < s.required, ∃ key signature, s.keys[i]? = some key ∧ s.signatures[i]? = some signature ∧
    scheme.verify key s.bytes signature = true

theorem all_verifySignatures_iff :
    (verifySignatures scheme s.signatures s.keys s.bytes).all id = true ↔ s.EachPasses scheme := by
  simp only [verifySignatures, List.all_map, List.all_eq_true, Function.comp_apply, id]
  constructor
  · intro h i signature key hsignature hkey
    exact h (signature, key)
      (List.mem_of_getElem? (List.getElem?_zip_eq_some.2 ⟨hsignature, hkey⟩))
  · intro h pair hmem
    obtain ⟨i, hi⟩ := List.mem_iff_getElem?.1 hmem
    obtain ⟨hsignature, hkey⟩ := List.getElem?_zip_eq_some.1 hi
    exact h i pair.1 pair.2 hsignature hkey

/-- The three tests of a signed transaction are passed just if its sealing is signed. -/
theorem signed_iff :
    (s.signatures.length == s.required && s.signatures.all (· != Fixed.zero) &&
      (verifySignatures scheme s.signatures s.keys s.bytes).all id) = true ↔ s.Signed scheme := by
  rw [Bool.and_eq_true, Bool.and_eq_true, beq_iff_eq, all_verifySignatures_iff]
  simp only [List.all_eq_true, bne_iff_ne]
  exact ⟨fun h => ⟨⟨h.1.1, h.2⟩, h.1.2⟩, fun h => ⟨⟨h.count, h.filled⟩, h.each⟩⟩

/-- What is given out if a sealing is verified, and what if it is not. -/
structure Decides (scheme : SignatureScheme) (s : Sealing) (hash : Hash)
    (outcome : Except TransactionError Hash) : Prop where
  ok : s.Verified scheme → outcome = .ok hash
  error : ¬s.Verified scheme → outcome = .error .signatureFailure

theorem Decides.verified {hash found : Hash} {outcome : Except TransactionError Hash}
    (h : s.Decides scheme hash outcome) (hfound : outcome = .ok found) : s.Verified scheme := by
  by_contra hverified
  rw [h.error hverified] at hfound
  cases hfound

/-- What is refused is just what is not verified. -/
theorem decides_ite (scheme : SignatureScheme) (s : Sealing) : s.Decides scheme (messageHash s.bytes)
    (if s.signatures.length ≠ s.required ∨ !(verifySignatures scheme s.signatures s.keys s.bytes).all id then
      .error .signatureFailure
    else .ok (messageHash s.bytes)) := by
  have hrefused : (s.signatures.length ≠ s.required ∨
      (!(verifySignatures scheme s.signatures s.keys s.bytes).all id) = true) ↔ ¬s.Verified scheme := by
    rw [Bool.not_eq_true', ← Bool.not_eq_true, all_verifySignatures_iff, ← not_and_or]
    exact not_congr ⟨fun h => ⟨h.1, h.2⟩, fun h => ⟨h.count, h.each⟩⟩
  constructor
  · intro h
    exact if_neg fun hfails => hrefused.1 hfails h
  · intro h
    exact if_pos (hrefused.2 h)

theorem SignedByAll.required_le (h : s.SignedByAll scheme) : s.required ≤ s.keys.length := by
  by_contra hlt
  obtain ⟨key, -, hkey, -⟩ := h s.keys.length (Nat.lt_of_not_le hlt)
  rw [List.getElem?_eq_none (Nat.le_refl _)] at hkey
  cases hkey

theorem Verified.signedByAll (h : s.Verified scheme) (hkeys : s.required ≤ s.keys.length) :
    s.SignedByAll scheme := by
  intro i hi
  have hslot : i < s.signatures.length := Nat.lt_of_lt_of_eq hi h.count.symm
  have hsignature : s.signatures[i]? = some s.signatures[i] := List.getElem?_eq_getElem hslot
  have hkey : s.keys[i]? = some s.keys[i] := List.getElem?_eq_getElem (Nat.lt_of_lt_of_le hi hkeys)
  exact ⟨_, _, hkey, hsignature, h.each i _ _ hsignature hkey⟩

/-- Whichever of the two tests is passed, all have signed exactly if there is a key for each of them. -/
theorem signedByAll_iff_of_passed {signed : Bool} {hash : Hash} {outcome : Except TransactionError Hash}
    (hsigned : signed = true ↔ s.Signed scheme) (hdecides : s.Decides scheme hash outcome)
    (h : (∃ found, outcome = .ok found) ∨ signed = true) :
    s.SignedByAll scheme ↔ s.required ≤ s.keys.length := by
  have hverified : s.Verified scheme := by
    rcases h with ⟨found, hfound⟩ | hpasses
    · exact hdecides.verified hfound
    · exact (hsigned.1 hpasses).toVerified
  exact ⟨SignedByAll.required_le, hverified.signedByAll⟩

end Sealing

namespace Transaction

variable {scheme : SignatureScheme} {t : Transaction}

theorem isSigned_iff : t.isSigned scheme = true ↔ t.sealing.Signed scheme :=
  Sealing.signed_iff (s := t.sealing)

/-- The hash of the bytes that the signatures are for is the message's own. -/
theorem messageHash_messageBytes (t : Transaction) : messageHash t.messageBytes = t.message.hash := by
  rw [messageBytes, Message.hash]

theorem decides_verifyAndHash (scheme : SignatureScheme) (t : Transaction) :
    t.sealing.Decides scheme t.message.hash (t.verifyAndHash scheme) := by
  rw [← messageHash_messageBytes]
  exact Sealing.decides_ite scheme t.sealing

theorem verify_of_isSigned (h : t.isSigned scheme = true) : t.verify scheme = .ok () := by
  rw [verify, (decides_verifyAndHash scheme t).ok (isSigned_iff.1 h).toVerified]
  rfl

end Transaction

namespace VersionedTransaction

variable {scheme : SignatureScheme} {t : VersionedTransaction}

theorem isSigned_iff : t.isSigned scheme = true ↔ t.sealing.Signed scheme :=
  Sealing.signed_iff (s := t.sealing)

theorem messageHash_messageBytes (t : VersionedTransaction) : messageHash t.messageBytes = t.message.hash := by
  rw [messageBytes, VersionedMessage.hash]

theorem decides_verifyAndHash (scheme : SignatureScheme) (t : VersionedTransaction) :
    t.sealing.Decides scheme t.message.hash (t.verifyAndHash scheme) := by
  rw [← messageHash_messageBytes]
  exact Sealing.decides_ite scheme t.sealing

end VersionedTransaction

/-- A verified transaction, of either form, is signed by all whose signatures are required exactly if there is a
key for each of them. -/
theorem signedByAll_iff_of_verified (scheme : SignatureScheme) :
    (∀ t : Transaction, (∃ hash, t.verifyAndHash scheme = .ok hash) ∨ t.isSigned scheme = true →
      (t.sealing.SignedByAll scheme ↔ t.required ≤ t.keys.length)) ∧
    ∀ t : VersionedTransaction, (∃ hash, t.verifyAndHash scheme = .ok hash) ∨ t.isSigned scheme = true →
      (t.sealing.SignedByAll scheme ↔ t.required ≤ t.keys.length) := by
  constructor
  · intro t h
    exact Sealing.signedByAll_iff_of_passed Transaction.isSigned_iff (Transaction.decides_verifyAndHash scheme t) h
  · intro t h
    exact Sealing.signedByAll_iff_of_passed VersionedTransaction.isSigned_iff
      (VersionedTransaction.decides_verifyAndHash scheme t) h

/-- Two signatures are required, and there are two keys, under which the two signatures pass. -/
theorem signedByAll_iff_of_verified_recorded :
    (Wire.decodeAll Transaction (Wire.encode Recorded.signed) = .ok Recorded.signed ∧
      Recorded.signed.isSigned Recorded.scheme = true ∧
      Recorded.signed.required ≤ Recorded.signed.keys.length ∧
      Recorded.signed.sealing.SignedByAll Recorded.scheme) ∧
    (Wire.decodeAll VersionedTransaction (Wire.encode Recorded.signed.toVersioned) =
        .ok Recorded.signed.toVersioned ∧
      (∃ hash, Recorded.signed.toVersioned.verifyAndHash Recorded.scheme = .ok hash) ∧
      Recorded.signed.toVersioned.sealing.SignedByAll Recorded.scheme) := by
  have hsigned : Recorded.signed.isSigned Recorded.scheme = true := by decide +kernel
  have hverified : ∃ hash, Recorded.signed.toVersioned.verifyAndHash Recorded.scheme = .ok hash :=
    Except.exists_eq_ok_of_isOk (by decide +kernel)
  obtain ⟨hlegacy, hversioned⟩ := signedByAll_iff_of_verified Recorded.scheme
  exact ⟨⟨by decide +kernel, hsigned, by decide, (hlegacy _ (Or.inr hsigned)).2 (by decide)⟩,
    by decide +kernel, hverified, (hversioned _ (Or.inl hverified)).2 (by decide)⟩

/-- One signature is required and is there, but there is no key, and so the signature, whatever it is,
counts as verified. Here it is so for both forms of messages. -/
theorem exists_verified_not_signedByAll :
    let legacy : Bytes := 1 :: List.replicate 64 7 ++ [1, 0, 0, 0] ++ List.replicate 32 0 ++ [0]
    let v0 : Bytes := 1 :: List.replicate 64 7 ++ [0x80, 1, 0, 0, 0] ++ List.replicate 32 0 ++ [0, 0]
    (∃ t, Wire.decodeAll Transaction legacy = .ok t ∧ t.isSigned ed25519 = true ∧
      (∃ hash, t.verifyAndHash ed25519 = .ok hash) ∧ ¬t.sealing.SignedByAll ed25519) ∧
    ∃ t, Wire.decodeAll VersionedTransaction v0 = .ok t ∧ t.isSigned ed25519 = true ∧
      (∃ hash, t.verifyAndHash ed25519 = .ok hash) ∧ ¬t.sealing.SignedByAll ed25519 := by
  intro legacy v0
  let signature : Signature := ⟨List.replicate 64 7, rfl⟩
  let m : Message := ⟨⟨1, 0, 0⟩, [], Fixed.zero, []⟩
  refine ⟨⟨⟨[signature], m⟩, by decide +kernel, rfl, ⟨_, rfl⟩, ?_⟩,
    ⟨[signature], .v0 ⟨m, []⟩⟩, by decide +kernel, rfl, ⟨_, rfl⟩, ?_⟩
  · intro h
    exact absurd h.required_le (by decide)
  · intro h
    exact absurd h.required_le (by decide)

end LedgerTx
