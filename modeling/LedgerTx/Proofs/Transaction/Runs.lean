import LedgerTx.Proofs.Transaction.Slots
import LedgerTx.Proofs.Transaction.Verified

/-! However often a transaction is signed, what stands in its slots is good. The invariant is stated of the
transaction that a call leaves behind, so that calls which fail midway are covered; it compares with the
message that the transaction was made for, and what is in a slot is tested for the bytes of the message as
it is now. A signer is given these bytes before it signs, and another block hash opens all slots. -/

namespace LedgerTx.Transaction

variable {scheme : SignatureScheme} {m : Message} {t : Transaction} {signer : Signer scheme}

/-- A transaction of a message under some block hash in which each slot is open or holds a signature that
passes under the key at its place. -/
structure Consistent (scheme : SignatureScheme) (m : Message) (t : Transaction) : Prop where
  slots : t.signatures.length = m.required
  header : t.message.header = m.header
  accountKeys : t.message.accountKeys = m.accountKeys
  instructions : t.message.instructions = m.instructions
  filled : ∀ (i : Nat) (signature : Signature), t.signatures[i]? = some signature →
    signature ≠ Fixed.zero → ∃ key, t.message.accountKeys[i]? = some key ∧
      scheme.verify key t.messageBytes signature = true

/-- Signing partially or fully, with any signers, under any block hash. -/
inductive Call (scheme : SignatureScheme) where
  | partialSign (signers : List (Signer scheme)) (blockhash : Hash)
  | sign (signers : List (Signer scheme)) (blockhash : Hash)

def Call.action : Call scheme → Action SignerError Unit
  | .partialSign signers blockhash => Transaction.partialSign signers blockhash
  | .sign signers blockhash => Transaction.sign signers blockhash

/-- What calls leave behind one after the other, whether or not they fail. -/
def leftByCalls (calls : List (Call scheme)) (t : Transaction) : Transaction :=
  calls.foldl (fun t call => call.action.leftBy t) t

namespace Consistent

theorem unsigned (scheme : SignatureScheme) (m : Message) :
    Consistent scheme m (Transaction.unsigned m) where
  slots := List.length_replicate
  header := rfl
  accountKeys := rfl
  instructions := rfl
  filled := by
    intro i signature hi hsignature
    have hmem : signature ∈ List.replicate m.required Fixed.zero := List.mem_of_getElem? hi
    exact absurd (List.eq_of_mem_replicate hmem) hsignature

theorem withBlockhash (h : Consistent scheme m t) (blockhash : Hash) :
    Consistent scheme m (t.withBlockhash blockhash) := by
  by_cases hsame : t.message.recentBlockhash = blockhash
  · rw [withBlockhash_of_eq hsame]
    exact h
  · rw [withBlockhash_of_ne hsame]
    refine ⟨(List.length_map _).trans h.slots, h.header, h.accountKeys, h.instructions, ?_⟩
    intro i signature hi hsignature
    obtain ⟨_, -, hzero⟩ := List.mem_map.1 (List.mem_of_getElem? hi)
    exact absurd hzero.symm hsignature

/-- A signature that passes under a key, or none, may be put into the slot of the key. -/
theorem set {i : Nat} {key : Pubkey} {signature : Signature} (h : Consistent scheme m t)
    (hslot : t.slot? key = some i)
    (hverify : signature ≠ Fixed.zero → scheme.verify key t.messageBytes signature = true) :
    Consistent scheme m ⟨t.signatures.set i signature, t.message⟩ := by
  refine ⟨List.length_set.trans h.slots, h.header, h.accountKeys, h.instructions, ?_⟩
  intro j found hj hfound
  by_cases hij : i = j
  · subst hij
    obtain ⟨hlt, hkey⟩ := slot?_eq_some hslot
    rw [List.getElem?_set_self hlt] at hj
    cases hj
    exact ⟨key, hkey, hverify hfound⟩
  · rw [List.getElem?_set_ne hij] at hj
    exact h.filled j found hj hfound

/-- The message is fixed along with the invariant, so that what is signed stays what is tested. -/
theorem keeps_fill (hcomplete : scheme.Complete) (message : Message) (signer : Signer scheme) :
    (fill message.serialize signer).Keeps
      fun t => Consistent scheme m t ∧ t.message = message := by
  apply Transaction.keeps_fill
  rintro t i signature ⟨ht, rfl⟩ hslot hsign
  exact ⟨ht.set hslot (Signer.verify_of_sign_eq_ok hcomplete hsign), rfl⟩

theorem keeps_partialSign (hcomplete : scheme.Complete) (signers : List (Signer scheme))
    (blockhash : Hash) :
    (partialSign signers blockhash).Keeps fun t => Consistent scheme m t := by
  intro t ht
  rcases partialSign_cases signers blockhash t with ⟨-, h⟩ | ⟨-, -, h⟩ | ⟨-, -, h⟩
  · rw [EStateM.leftBy_of_error h]
    exact ht
  · rw [EStateM.leftBy_of_error h]
    exact ht
  · let message := (t.withBlockhash blockhash).message
    have hfills : (signers.forM (fill message.serialize)).Keeps
        fun t => Consistent scheme m t ∧ t.message = message :=
      EStateM.Keeps.forM fun signer _ => keeps_fill hcomplete message signer
    rw [EStateM.leftBy, h]
    exact (hfills (t.withBlockhash blockhash) ⟨ht.withBlockhash blockhash, rfl⟩).1

theorem keeps_action (hcomplete : scheme.Complete) (call : Call scheme) :
    call.action.Keeps fun t => Consistent scheme m t := by
  cases call with
  | partialSign signers blockhash => exact keeps_partialSign hcomplete signers blockhash
  | sign signers blockhash =>
      exact (keeps_partialSign hcomplete signers blockhash).bind fun _ => keeps_requireFilled _

theorem leftByCalls (hcomplete : scheme.Complete) (h : Consistent scheme m t) (calls : List (Call scheme)) :
    Consistent scheme m (t.leftByCalls calls) := by
  induction calls generalizing t with
  | nil => exact h
  | cons call calls ih => exact ih (keeps_action hcomplete call t h)

theorem eachPasses (h : Consistent scheme m t)
    (hfilled : ∀ signature ∈ t.signatures, signature ≠ Fixed.zero) : t.sealing.EachPasses scheme := by
  intro i signature key hsignature hkey
  obtain ⟨found, hfound, hverify⟩ :=
    h.filled i signature hsignature (hfilled signature (List.mem_of_getElem? hsignature))
  cases hfound.symm.trans hkey
  exact hverify

theorem required_eq (h : Consistent scheme m t) : t.required = m.required :=
  congrArg (fun header : Header => header.required.toNat) h.header

theorem isSigned (h : Consistent scheme m t)
    (hfilled : ∀ signature ∈ t.signatures, signature ≠ Fixed.zero) : t.isSigned scheme = true :=
  isSigned_iff.2 ⟨⟨h.slots.trans h.required_eq.symm, h.eachPasses hfilled⟩, hfilled⟩

end Consistent

/-- Whatever calls were made, slots that are not open hold signatures that pass, and a call that signs
fully and does not fail leaves a signed transaction. -/
theorem consistent_of_calls (hcomplete : scheme.Complete) (m : Message) (calls : List (Call scheme)) :
    Consistent scheme m ((unsigned m).leftByCalls calls) ∧
      ∀ (signers : List (Signer scheme)) (blockhash : Hash) (left : Transaction),
        sign signers blockhash ((unsigned m).leftByCalls calls) = .ok () left →
          left.isSigned scheme = true ∧ left.verify scheme = .ok () := by
  have hcalls := (Consistent.unsigned scheme m).leftByCalls hcomplete calls
  refine ⟨hcalls, ?_⟩
  intro signers blockhash left hsign
  obtain ⟨hpartial, hfilled⟩ := sign_eq_ok.1 hsign
  have hleft : Consistent scheme m left :=
    (Consistent.keeps_partialSign hcomplete signers blockhash).of_ok hcalls hpartial
  have hsigned := hleft.isSigned hfilled
  exact ⟨hsigned, verify_of_isSigned hsigned⟩

/-- The second signer refuses another block hash, and then fills its slot in a call that fails for a
stranger. -/
def recordedCalls : List (Call Recorded.scheme) :=
  [.partialSign [Recorded.second] Fixed.zero,
    .sign [Recorded.second, .null Fixed.zero] Recorded.blockhash]

/-- What these calls leave behind. -/
def recordedHalf : Transaction :=
  ⟨[Fixed.zero, Recorded.secondSignature], Recorded.message⟩

theorem consistent_of_calls_recorded :
    Recorded.scheme.Complete ∧
      (unsigned Recorded.message).leftByCalls recordedCalls = recordedHalf ∧
      Consistent Recorded.scheme Recorded.message recordedHalf ∧
      sign [Recorded.first] Recorded.blockhash recordedHalf = .ok () Recorded.signed ∧
      Recorded.signed.isSigned Recorded.scheme = true ∧ Recorded.signed.verify Recorded.scheme = .ok () := by
  have hcalls : (unsigned Recorded.message).leftByCalls recordedCalls = recordedHalf := by
    with_unfolding_all rfl
  have hsign : sign [Recorded.first] Recorded.blockhash recordedHalf = .ok () Recorded.signed := by
    with_unfolding_all rfl
  obtain ⟨hconsistent, hsigned⟩ :=
    consistent_of_calls Recorded.complete_scheme Recorded.message recordedCalls
  rw [hcalls] at hconsistent hsigned
  exact ⟨Recorded.complete_scheme, hcalls, hconsistent, hsign, hsigned _ _ _ hsign⟩

end LedgerTx.Transaction
