import LedgerTx.Proofs.Transaction.Verified

/-! The verdicts on a transaction agree. That no slot is open is asked by one of them only, but the placeholder
is refused by strict verification under every key and for every message: its commitment is the form of a
point of small order. So an open slot that has a key does not verify, and where there are as many keys as
signatures nothing more is asked. -/

namespace LedgerTx

/-- Whether bytes are the form of a point of small order. -/
def Ed25519.isSmallOrder (bs : Bytes) : Bool :=
  (Point.decode? bs).any Point.hasSmallOrder

/-- Zeros are the form of a point of order four. -/
theorem Ed25519.isSmallOrder_zero : isSmallOrder (List.replicate 32 0) = true := by
  decide +kernel

namespace SignatureScheme

/-- No signature passes whose first half, the commitment, is the form of a point of small order. -/
def RejectsSmallOrder (scheme : SignatureScheme) : Prop :=
  ∀ (key : Pubkey) (message : Bytes) (signature : Signature),
    Ed25519.isSmallOrder (signature.bytes.take 32) = true → scheme.verify key message signature = false

theorem rejectsSmallOrder_ed25519 : ed25519.RejectsSmallOrder := by
  intro key message signature hsmall
  obtain ⟨commitment, hcommitment, horder⟩ := (Option.any_eq_true _ _).1 hsmall
  show Ed25519.verify key.bytes message signature.bytes = false
  unfold Ed25519.verify
  split
  · rename_i point decoded _ hdecoded
    obtain rfl : commitment = decoded := Option.some.inj (hcommitment.symm.trans hdecoded)
    simp [horder]
  · rfl

/-- The scheme that passes what the given one does, but nothing with a commitment of small order. -/
def strict (scheme : SignatureScheme) : SignatureScheme :=
  { scheme with
    verify := fun key message signature =>
      !Ed25519.isSmallOrder (signature.bytes.take 32) && scheme.verify key message signature }

theorem rejectsSmallOrder_strict (scheme : SignatureScheme) : scheme.strict.RejectsSmallOrder := by
  intro key message signature hsmall
  simp [strict, hsmall]

variable {scheme : SignatureScheme}

theorem RejectsSmallOrder.rejectsZero (h : scheme.RejectsSmallOrder) : scheme.RejectsZero :=
  fun key message => h key message Fixed.zero Ed25519.isSmallOrder_zero

end SignatureScheme

namespace Sealing

variable {scheme : SignatureScheme} {s : Sealing}

/-- If every signature has a key and passes under it, no slot is open. -/
theorem EachPasses.ne_zero (h : s.EachPasses scheme) (hstrict : scheme.RejectsSmallOrder)
    (hkeys : s.signatures.length ≤ s.keys.length) : ∀ signature ∈ s.signatures, signature ≠ Fixed.zero := by
  intro signature hsignature
  obtain ⟨i, hi, rfl⟩ := List.getElem_of_mem hsignature
  have hkey : s.keys[i]? = some s.keys[i] := List.getElem?_eq_getElem (by omega)
  exact hstrict.rejectsZero.ne_zero (h i _ _ (List.getElem?_eq_getElem hi) hkey)

theorem signed_iff_verified (hstrict : scheme.RejectsSmallOrder)
    (hkeys : s.signatures.length ≤ s.keys.length) : s.Signed scheme ↔ s.Verified scheme := by
  constructor
  · exact Signed.toVerified
  · intro h
    exact ⟨h, h.each.ne_zero hstrict hkeys⟩

theorem verified_iff_signedByAll (hkeys : s.signatures.length ≤ s.keys.length) :
    s.Verified scheme ↔ s.signatures.length = s.required ∧ s.SignedByAll scheme := by
  constructor
  · intro h
    have hcount := h.count
    exact ⟨hcount, h.signedByAll (by omega)⟩
  · intro h
    obtain ⟨hcount, hall⟩ := h
    refine ⟨hcount, ?_⟩
    intro i signature key hsignature hkey
    obtain ⟨hi, -⟩ := List.getElem?_eq_some_iff.1 hsignature
    obtain ⟨key', signature', hkey', hsignature', hverify⟩ := hall i (by omega)
    cases hkey.symm.trans hkey'
    cases hsignature.symm.trans hsignature'
    exact hverify

/-- The verdicts on a transaction are one: that it is signed, that it is verified, and that there are as many
signatures as required, all of which pass under the keys at their places. An open slot makes it fail, and the
hash that is given out is the given one. -/
structure VerdictsAgree (scheme : SignatureScheme) (s : Sealing) (signed : Bool)
    (outcome : Except TransactionError Hash) (hash : Hash) : Prop where
  verified : signed = true ↔ ∃ found, outcome = .ok found
  slots : signed = true ↔ s.signatures.length = s.required ∧ s.SignedByAll scheme
  placeholder : Fixed.zero ∈ s.signatures → signed = false ∧ outcome = .error .signatureFailure ∧
    ¬(s.signatures.length = s.required ∧ s.SignedByAll scheme)
  hash : ∀ found, outcome = .ok found → found = hash

/-- Verdicts agree where there is a key for every signature, if each of them is what its name says. -/
theorem verdictsAgree_of_length_le (hstrict : scheme.RejectsSmallOrder)
    (hkeys : s.signatures.length ≤ s.keys.length) {signed : Bool} {outcome : Except TransactionError Hash}
    {hash : Hash} (hsigned : signed = true ↔ s.Signed scheme) (hdecides : s.Decides scheme hash outcome) :
    s.VerdictsAgree scheme signed outcome hash := by
  have hverified : signed = true ↔ s.Verified scheme := hsigned.trans (signed_iff_verified hstrict hkeys)
  have hslots := hverified.trans (verified_iff_signedByAll hkeys)
  refine ⟨?_, hslots, ?_, ?_⟩
  · rw [hverified]
    exact ⟨fun h => ⟨hash, hdecides.ok h⟩, fun ⟨_, hfound⟩ => hdecides.verified hfound⟩
  · intro hopen
    have hfails : ¬signed = true := fun h => (hsigned.1 h).filled Fixed.zero hopen rfl
    exact ⟨Bool.eq_false_of_not_eq_true hfails, hdecides.error (hverified.not.1 hfails), hslots.not.1 hfails⟩
  · intro found hfound
    rw [hdecides.ok (hdecides.verified hfound)] at hfound
    exact (Except.ok.inj hfound).symm

end Sealing

theorem Transaction.sanitize_eq_ok_iff {t : Transaction} :
    t.sanitize = .ok () ↔ t.message.sanitize = .ok () ∧ t.required ≤ t.signatures.length ∧
      t.signatures.length ≤ t.keys.length := by
  unfold sanitize
  cases t.message.sanitize with
  | error e => exact iff_of_false nofun nofun
  | ok _ =>
      show ite _ _ _ = _ ↔ _ ∧ t.required ≤ _ ∧ t.signatures.length ≤ t.message.accountKeys.length
      split_ifs with hfits
      · exact iff_of_false nofun (by omega)
      · exact iff_of_true rfl ⟨rfl, by omega⟩

theorem VersionedTransaction.sanitize_eq_ok_iff {t : VersionedTransaction} :
    t.sanitize = .ok () ↔ t.message.sanitize = .ok () ∧ t.signatures.length = t.required ∧
      t.signatures.length ≤ t.keys.length := by
  unfold sanitize
  cases t.message.sanitize with
  | error e => exact iff_of_false nofun nofun
  | ok _ =>
      show ite _ _ _ = _ ↔ _
      split_ifs with hfewer hmore hkeys
      · exact iff_of_false nofun (by omega)
      · exact iff_of_false nofun (by omega)
      · exact iff_of_false nofun (by omega)
      · exact iff_of_true rfl ⟨rfl, by omega⟩

/-- Under strict verification the verdicts on transactions of both forms agree wherever there is a key for
every signature, as there is in a sanitized transaction. The hash is the message's own. -/
theorem verdictsAgree_of_strict {scheme : SignatureScheme} (hstrict : scheme.RejectsSmallOrder) :
    (∀ t : Transaction, t.sanitize = .ok () → t.signatures.length ≤ t.keys.length) ∧
    (∀ t : VersionedTransaction, t.sanitize = .ok () → t.signatures.length ≤ t.keys.length) ∧
    (∀ t : Transaction, t.signatures.length ≤ t.keys.length →
      t.sealing.VerdictsAgree scheme (t.isSigned scheme) (t.verifyAndHash scheme) t.message.hash) ∧
    ∀ t : VersionedTransaction, t.signatures.length ≤ t.keys.length →
      t.sealing.VerdictsAgree scheme (t.isSigned scheme) (t.verifyAndHash scheme) t.message.hash := by
  refine ⟨fun t h => ?_, fun t h => ?_, fun t hkeys => ?_, fun t hkeys => ?_⟩
  · exact (Transaction.sanitize_eq_ok_iff.1 h).2.2
  · exact (VersionedTransaction.sanitize_eq_ok_iff.1 h).2.2
  · exact Sealing.verdictsAgree_of_length_le hstrict hkeys Transaction.isSigned_iff
      (Transaction.decides_verifyAndHash scheme t)
  · exact Sealing.verdictsAgree_of_length_le hstrict hkeys VersionedTransaction.isSigned_iff
      (VersionedTransaction.decides_verifyAndHash scheme t)

/-- With two recorded signatures a transaction is signed and verified, and a fresh one is neither. -/
theorem verdictsAgree_of_strict_recorded :
    let fresh : Transaction := .unsigned Recorded.message
    let scheme := Recorded.scheme.strict
    (ed25519.RejectsSmallOrder ∧ fresh.isSigned ed25519 = false ∧
      fresh.verifyAndHash ed25519 = .error .signatureFailure) ∧
    scheme.RejectsSmallOrder ∧ Recorded.signed.isSigned scheme = true ∧
      Recorded.signed.verifyAndHash scheme = .ok Recorded.message.hash := by
  intro fresh scheme
  have hstrict : scheme.RejectsSmallOrder := SignatureScheme.rejectsSmallOrder_strict Recorded.scheme
  obtain ⟨-, -, hfresh, -⟩ := verdictsAgree_of_strict SignatureScheme.rejectsSmallOrder_ed25519
  obtain ⟨-, -, hsigned, -⟩ := verdictsAgree_of_strict hstrict
  have hopen : Fixed.zero ∈ fresh.signatures := List.mem_cons_self
  obtain ⟨hunsigned, hrefused, -⟩ := (hfresh fresh (by decide)).placeholder hopen
  have hpasses : Recorded.signed.isSigned scheme = true := by decide +kernel
  have hverdicts := hsigned Recorded.signed (by decide)
  obtain ⟨hash, hhash⟩ := hverdicts.verified.1 hpasses
  obtain rfl : hash = Recorded.message.hash := hverdicts.hash hash hhash
  exact ⟨⟨SignatureScheme.rejectsSmallOrder_ed25519, hunsigned, hrefused⟩, hstrict, hpasses, hhash⟩

end LedgerTx
