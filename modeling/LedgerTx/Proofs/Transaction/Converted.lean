import LedgerTx.Proofs.Transaction.Verdicts

/-! Legacy transactions carried as transactions of either form. The two have functions of their own for their bytes,
for verifying and for nonces, and these are compared here. All that they ask of a message is the same for a legacy
message that is carried as one of either form, so no question about bytes, signatures or nonces tells the transactions
apart. They are told apart by whether they hold together, which each form asks in its own way: a legacy transaction may
have more signatures than are required. -/

namespace LedgerTx

theorem VersionedMessage.nonceInstruction?_legacy (m : Message) :
    (legacy m).nonceInstruction? = m.nonceInstruction? := by
  rw [VersionedMessage.nonceInstruction?, Message.nonceInstruction?, keys, instructions, isMaybeWritable]

theorem VersionedMessage.serialize_legacy (m : Message) : (legacy m).serialize = m.serialize := by
  rw [serialize, Message.serialize]
  rfl

theorem VersionedMessage.hash_legacy (m : Message) : (legacy m).hash = m.hash := by
  rw [hash, Message.hash, serialize_legacy]

/-- What is asked of a transaction of either form has the same answer as for a legacy one. -/
structure AnswersAlike (scheme : SignatureScheme) (v : VersionedTransaction) (t : Transaction) : Prop where
  encode : Wire.encode v = Wire.encode t
  verifyEach : v.verifyEach scheme = t.verifyEach scheme
  verifyAndHash : v.verifyAndHash scheme = t.verifyAndHash scheme
  isSigned : v.isSigned scheme = t.isSigned scheme
  nonceInstruction : v.nonceInstruction? = t.nonceInstruction?
  nonceKey : ∀ instruction : CompiledInstruction, instruction.nonceKey? v.keys = instruction.nonceKey? t.keys

namespace Transaction

variable (t : Transaction)

theorem messageBytes_toVersioned : t.toVersioned.messageBytes = t.messageBytes := by
  rw [VersionedTransaction.messageBytes, messageBytes, toVersioned, VersionedMessage.serialize_legacy]

theorem keys_toVersioned : t.toVersioned.keys = t.keys := by
  rw [VersionedTransaction.keys, keys, toVersioned, VersionedMessage.keys]

theorem required_toVersioned : t.toVersioned.required = t.required := by
  rw [VersionedTransaction.required, required, toVersioned, VersionedMessage.required, VersionedMessage.header,
    Message.required]

theorem sealing_toVersioned : t.toVersioned.sealing = t.sealing := by
  rw [VersionedTransaction.sealing, sealing, keys_toVersioned, required_toVersioned, messageBytes_toVersioned,
    toVersioned]

theorem encode_toVersioned : Wire.encode t.toVersioned = Wire.encode t := by
  show Wire.compactList t.signatures ++ (VersionedMessage.legacy t.message).serialize =
    Wire.compactList t.signatures ++ t.message.serialize
  rw [VersionedMessage.serialize_legacy]

variable (scheme : SignatureScheme)

theorem verifyEach_toVersioned : t.toVersioned.verifyEach scheme = t.verifyEach scheme := by
  rw [VersionedTransaction.verifyEach, verifyEach, keys_toVersioned, messageBytes_toVersioned, toVersioned]

theorem isSigned_toVersioned : t.toVersioned.isSigned scheme = t.isSigned scheme := by
  rw [Bool.eq_iff_iff, VersionedTransaction.isSigned_iff, isSigned_iff, sealing_toVersioned]

/-- Both decide about the same sealing, and give out the same hash. -/
theorem verifyAndHash_toVersioned : t.toVersioned.verifyAndHash scheme = t.verifyAndHash scheme := by
  have hlegacy := decides_verifyAndHash scheme t
  have hcarried := VersionedTransaction.decides_verifyAndHash scheme t.toVersioned
  have hhash : t.toVersioned.message.hash = t.message.hash := VersionedMessage.hash_legacy t.message
  rw [sealing_toVersioned, hhash] at hcarried
  by_cases h : t.sealing.Verified scheme
  · rw [hcarried.ok h, hlegacy.ok h]
  · rw [hcarried.error h, hlegacy.error h]

theorem answersAlike_toVersioned : AnswersAlike scheme t.toVersioned t where
  encode := encode_toVersioned t
  verifyEach := verifyEach_toVersioned t scheme
  verifyAndHash := verifyAndHash_toVersioned t scheme
  isSigned := isSigned_toVersioned t scheme
  nonceInstruction := VersionedMessage.nonceInstruction?_legacy t.message
  nonceKey _ := by rw [keys_toVersioned]

variable {t}

theorem toLegacy?_eq_some_iff {v : VersionedTransaction} : v.toLegacy? = some t ↔ v = t.toVersioned := by
  obtain ⟨signatures, message⟩ := v
  obtain ⟨slots, m⟩ := t
  cases message with
  | legacy n => simp [VersionedTransaction.toLegacy?, toVersioned]
  | v0 n => exact iff_of_false nofun nofun

/-- As either form, a transaction holds together just if it does as a legacy one and has no signature in excess. -/
theorem sanitize_toVersioned_iff :
    t.toVersioned.sanitize = .ok () ↔ t.sanitize = .ok () ∧ t.signatures.length = t.required := by
  rw [VersionedTransaction.sanitize_eq_ok_iff, sanitize_eq_ok_iff, required_toVersioned, keys_toVersioned]
  show t.message.sanitize = .ok () ∧ t.signatures.length = t.required ∧ t.signatures.length ≤ t.keys.length ↔ _
  constructor
  · rintro ⟨hmessage, hslots, hkeys⟩
    exact ⟨⟨hmessage, Nat.le_of_eq hslots.symm, hkeys⟩, hslots⟩
  · rintro ⟨⟨hmessage, -, hkeys⟩, hslots⟩
    exact ⟨hmessage, hslots, hkeys⟩

/-- Nothing is lost of a legacy transaction that is carried as one of either form: it is got back, and until then bytes,
verdicts and nonces are the same. Only what holds together with more signatures than required no longer does. -/
theorem toVersioned_answersAlike (scheme : SignatureScheme) (t : Transaction) :
    t.toVersioned.toLegacy? = some t ∧ AnswersAlike scheme t.toVersioned t ∧
      (t.toVersioned.sanitize = .ok () ↔ t.sanitize = .ok () ∧ t.signatures.length = t.required) :=
  ⟨toLegacy?_eq_some_iff.2 rfl, answersAlike_toVersioned t scheme, sanitize_toVersioned_iff⟩

/-- One signature is required, and there are two, with a key for each. -/
example :
    let key (n : UInt8) : Pubkey := ⟨List.replicate 32 n, rfl⟩
    let t : Transaction := ⟨[Fixed.zero, Fixed.zero], ⟨⟨1, 0, 0⟩, [key 1, key 2], Fixed.zero, []⟩⟩
    t.sanitize = .ok () ∧ t.toVersioned.sanitize = .error .invalidValue := by
  decide

end Transaction

end LedgerTx
