import LedgerTx.Signer
import LedgerTx.Transaction

/-! What signing transactions asks of a signature scheme: that the signatures that it makes pass. Where open
slots have to be told from signed ones, it is asked besides that the placeholder does not pass. There are
schemes of which the first is plain: those that hold one signature of every key for every message, and let no
other pass. One of these is as `ed25519` for two keys and one message. -/

namespace LedgerTx

namespace SignatureScheme

/-- What is signed passes under the public key of the seed. -/
def Complete (scheme : SignatureScheme) : Prop :=
  ∀ seed message, scheme.verify (scheme.publicKey seed) message (scheme.sign seed message) = true

/-- The placeholder passes under no key and for no message. -/
def RejectsZero (scheme : SignatureScheme) : Prop :=
  ∀ (key : Pubkey) (message : Bytes), scheme.verify key message Fixed.zero = false

theorem RejectsZero.ne_zero {scheme : SignatureScheme} (h : scheme.RejectsZero) {key : Pubkey} {message : Bytes}
    {signature : Signature} (hverify : scheme.verify key message signature = true) :
    signature ≠ Fixed.zero := by
  intro hzero
  rw [hzero, h] at hverify
  cases hverify

/-- The scheme in which a key has one signature for a message. -/
def ofTable (publicKey : Seed → Pubkey) (signature : Pubkey → Bytes → Signature) : SignatureScheme where
  publicKey := publicKey
  sign seed := signature (publicKey seed)
  verify key message found := found == signature key message
  isKey _ := true

theorem complete_ofTable (publicKey : Seed → Pubkey) (signature : Pubkey → Bytes → Signature) :
    (ofTable publicKey signature).Complete :=
  fun _ _ => beq_self_eq_true _

theorem rejectsZero_ofTable (publicKey : Seed → Pubkey) {signature : Pubkey → Bytes → Signature}
    (h : ∀ key message, signature key message ≠ Fixed.zero) : (ofTable publicKey signature).RejectsZero :=
  fun key message => beq_false_of_ne (h key message).symm

end SignatureScheme

/-- What a signer signs with is the placeholder or passes under the key of the signer. -/
theorem Signer.verify_of_sign_eq_ok {scheme : SignatureScheme} (hcomplete : scheme.Complete)
    {signer : Signer scheme} {message : Bytes} {signature : Signature}
    (h : signer.sign message = .ok signature) (hsignature : signature ≠ Fixed.zero) :
    scheme.verify signer.pubkey message signature = true := by
  cases signer with
  | keypair pair =>
      cases h
      rw [pubkey, pair.pubkey_eq]
      exact hcomplete pair.seed message
  | presigner key made =>
      rw [sign] at h
      split at h
      · rename_i hverify
        cases h
        exact hverify
      · cases h
  | null key =>
      cases h
      exact absurd rfl hsignature

/-- If signatures pass and the placeholder does not, only placeholders sign with it. -/
theorem Signer.sign_eq_zero_iff {scheme : SignatureScheme} (hcomplete : scheme.Complete)
    (hrejects : scheme.RejectsZero) {signer : Signer scheme} {message : Bytes} :
    signer.sign message = .ok Fixed.zero ↔ ∃ key, signer = .null key := by
  cases signer with
  | keypair pair =>
      refine iff_of_false ?_ nofun
      intro h
      exact hrejects.ne_zero (hcomplete pair.seed message) (Except.ok.inj h)
  | presigner key made =>
      refine iff_of_false ?_ nofun
      intro h
      rw [sign] at h
      split at h
      · rename_i hverify
        exact hrejects.ne_zero hverify (Except.ok.inj h)
      · cases h
  | null key => exact iff_of_true rfl ⟨key, rfl⟩

/-! ### Two signatures of `ed25519` -/

namespace Recorded

/-- The seed of 32 bytes of one. -/
def firstSeed : Seed := ⟨List.replicate 32 1, rfl⟩

/-- The public key of the first seed. -/
def firstKey : Pubkey :=
  ⟨Bytes.bigEndian 32 0x8a88e3dd7409f195fd52db2d3cba5d72ca6709bf1d94121bf3748801b40f6f5c,
    Bytes.length_bigEndian 32 _⟩

/-- The public key of the seed of 32 bytes of two. -/
def secondKey : Pubkey :=
  ⟨Bytes.bigEndian 32 0x8139770ea87d175f56a35466c34c7ecccb8d8a91b4ee37a25df60f5b8fc9b394,
    Bytes.length_bigEndian 32 _⟩

def blockhash : Hash := ⟨List.replicate 32 7, rfl⟩

/-- A message that requires the signatures of both keys. -/
def message : Message := ⟨⟨2, 0, 0⟩, [firstKey, secondKey], blockhash, []⟩

def signature (commitment answer : Nat) : Signature :=
  ⟨Bytes.bigEndian 32 commitment ++ Bytes.bigEndian 32 answer, by simp [Kind.width]⟩

/-- The signature of the message by the first key. -/
def firstSignature : Signature :=
  signature 0xff3b81c5bca9fb781de67c96647fd3217a27e90503fb9f81ab920d841ffe024b
    0x9110d746892da702658e06de1baad75c7626e76f2743e027e070408025d10c01

/-- The signature of the message by the second key. -/
def secondSignature : Signature :=
  signature 0xbbe9e535aa2e0772f974938c66d8a9804bd69de571903013010a62be6ccc0f4b
    0xfdf007104e19f72148344b4c44d915768e7f1285df553fda96c708b10716db0e

/-- The message with both signatures. -/
def signed : Transaction := ⟨[firstSignature, secondSignature], message⟩

/-- The scheme that has these two signatures, and the placeholder for whatever else is signed. -/
def scheme : SignatureScheme :=
  SignatureScheme.ofTable
    (fun seed => if seed = firstSeed then firstKey else ⟨seed.bytes, seed.length_bytes⟩)
    fun key bs =>
      if bs ≠ Wire.encode message then Fixed.zero
      else if key = firstKey then firstSignature
      else if key = secondKey then secondSignature
      else Fixed.zero

theorem complete_scheme : scheme.Complete :=
  SignatureScheme.complete_ofTable _ _

/-- The scheme in which the two signatures are those of their keys for every message. -/
def constant : SignatureScheme :=
  SignatureScheme.ofTable scheme.publicKey fun key _ => if key = secondKey then secondSignature else firstSignature

theorem complete_constant : constant.Complete :=
  SignatureScheme.complete_ofTable _ _

theorem rejectsZero_constant : constant.RejectsZero := by
  apply SignatureScheme.rejectsZero_ofTable
  intro key message
  split
  · decide
  · decide

def first : Signer scheme := .keypair (.ofSeed firstSeed)

/-- A signer who brings the signature along, and so refuses whatever else is to be signed. -/
def second : Signer scheme := .presigner secondKey secondSignature

end Recorded

end LedgerTx
