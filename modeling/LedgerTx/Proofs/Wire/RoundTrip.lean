import LedgerTx.Proofs.Wire.Formats
import LedgerTx.Proofs.Wire.SelfDelimiting

/-! What is written is read back exactly as far as compact lengths go, and nothing else is read:
`decodeAll_encode` says for every value what its bytes decode to, and `encode_of_decodeAll` says for all
bytes that what they decode to is written as these bytes. The signatures of a decoded transaction are
therefore tested for the bytes that were received. -/

namespace LedgerTx

open Cursor LawfulWire

instance {α : Type} [Measured α] (a : α) : Decidable (Fits a) :=
  inferInstanceAs (Decidable (∀ n ∈ Measured.lengths a, n ≤ CompactLength.limit))

section

variable {α : Type} [Wire α] [LawfulWire α] [Measured α]

/-- Where fitting is all that reading back takes, a value that does not fit is refused for its length. -/
theorem Wire.decodeAll_encode_eq_ite [RefusesLong α] (hreadable : ∀ a : α, Readable a ↔ Fits a) (a : α) :
    Wire.decodeAll α (Wire.encode a) = if Fits a then .ok a else .error .lengthOverflow := by
  by_cases ha : Fits a
  · rw [if_pos ha]
    exact Wire.decodeAll_eq_ok.2 ⟨(hreadable a).2 ha, rfl⟩
  · rw [if_neg ha]
    exact Wire.decodeAll_encode_of_not_readable fun h => ha ((hreadable a).1 h)

end

theorem Wire.decodeAll_encode_eq_ok {α : Type} [Wire α] [LawfulWire α] (a : α) :
    Wire.decodeAll α (Wire.encode a) = .ok a ↔ Readable a := by
  rw [Wire.decodeAll_eq_ok, and_iff_left rfl]

theorem Wire.encode_of_decodeAll_eq_ok {α : Type} [Wire α] [LawfulWire α] {bs : Bytes} {a : α}
    (h : Wire.decodeAll α bs = .ok a) : Wire.encode a = bs :=
  (Wire.decodeAll_eq_ok.1 h).2.symm

namespace V0Message

variable {m : V0Message} {bs : Bytes}

theorem deserialize_eq_ok : deserialize bs = .ok m ↔ Fits m ∧ bs = m.serialize := by
  constructor
  · intro h
    obtain ⟨d, hread, hend⟩ := Reader.all_eq_ok.1 h
    obtain ⟨middle, hversion, hbody⟩ := EStateM.bind_unit_eq_ok.1 hread
    obtain ⟨hfits, hbody⟩ := decode_eq_ok.1 hbody
    exact ⟨hfits, exists_passes_start_iff.1 ⟨d, (Reader.version_eq_ok.1 hversion).trans hbody, hend⟩⟩
  · rintro ⟨hfits, hbytes⟩
    obtain ⟨d, hpasses, hend⟩ := exists_passes_start_iff.2 hbytes
    obtain ⟨middle, hversion, hbody⟩ := passes_cons.1 hpasses
    refine Reader.all_eq_ok.2 ⟨d, EStateM.bind_unit_eq_ok.2 ⟨middle, ?_, ?_⟩, hend⟩
    · exact Reader.version_eq_ok.2 hversion
    · exact decode_eq_ok.2 ⟨hfits, hbody⟩

theorem deserialize_serialize_eq_ite (m : V0Message) :
    deserialize m.serialize = if Fits m then .ok m else .error .lengthOverflow := by
  by_cases hfits : Fits m
  · rw [if_pos hfits]
    exact deserialize_eq_ok.2 ⟨hfits, rfl⟩
  · rw [if_neg hfits]
    obtain ⟨d, hpasses, -⟩ := exists_passes_start_iff.2 (rfl : m.serialize = m.serialize)
    obtain ⟨middle, hversion, hbody⟩ := passes_cons.1 hpasses
    apply Reader.all_of_refuses
    exact Reader.Refuses.bind_of_ok (Reader.version_eq_ok.2 hversion) (RefusesLong.decode_refuses hfits hbody)

end V0Message

/-- Decoding what is written for a message or a transaction gives it back if no sequence in it is longer
than a compact length can say, and is otherwise refused for that reason; a message of either form besides
has to be told by its first byte. -/
theorem decodeAll_encode :
    (∀ m : Message, Wire.decodeAll Message (Wire.encode m) =
      if Fits m then .ok m else .error .lengthOverflow) ∧
    (∀ m : V0Message, V0Message.deserialize m.serialize =
      if Fits m then .ok m else .error .lengthOverflow) ∧
    (∀ t : Transaction, Wire.decodeAll Transaction (Wire.encode t) =
      if Fits t then .ok t else .error .lengthOverflow) ∧
    (∀ m : VersionedMessage, Wire.decodeAll VersionedMessage (Wire.encode m) = .ok m ↔
      Fits m ∧ m.TellsForm) ∧
    (∀ t : VersionedTransaction, Wire.decodeAll VersionedTransaction (Wire.encode t) = .ok t ↔
      Fits t ∧ t.message.TellsForm) := by
  refine ⟨?_, ?_, ?_, ?_, ?_⟩
  · exact Wire.decodeAll_encode_eq_ite fun m => Iff.rfl
  · exact V0Message.deserialize_serialize_eq_ite
  · exact Wire.decodeAll_encode_eq_ite fun t => Transaction.fits_iff.symm
  · exact Wire.decodeAll_encode_eq_ok
  · intro t
    rw [Wire.decodeAll_encode_eq_ok, VersionedTransaction.fits_iff, and_assoc]
    rfl

/-- Of what is written for signatures and then for a message, reading the signatures leaves the message. -/
theorem Reader.exists_compactList_signatures {signatures : List Signature}
    (h : signatures.length ≤ CompactLength.limit) (message : Bytes) :
    ∃ c, compactList Signature (start (Wire.compactList signatures ++ message)) = .ok signatures c ∧
      c.rest = message := by
  have hpasses : Passes (start (Wire.compactList signatures ++ message)) (Wire.compactList signatures) _ :=
    passes_advance (List.prefix_append _ message)
  exact ⟨_, compactList_eq_ok.2 ⟨⟨h, fun _ _ => trivial⟩, hpasses⟩, (List.append_cancel_left hpasses.rest).symm⟩

/-- No bytes but those that are written for a message or a transaction decode to it. What is left
after the signatures of a transaction is its message, and it is these bytes that the signatures are tested for. -/
theorem encode_of_decodeAll (bs : Bytes) :
    (∀ m : Message, Wire.decodeAll Message bs = .ok m → Wire.encode m = bs) ∧
    (∀ m : V0Message, V0Message.deserialize bs = .ok m → m.serialize = bs) ∧
    (∀ m : VersionedMessage, Wire.decodeAll VersionedMessage bs = .ok m → Wire.encode m = bs) ∧
    (∀ t : Transaction, Wire.decodeAll Transaction bs = .ok t → Wire.encode t = bs ∧
      ∃ c, Reader.compactList Signature (start bs) = .ok t.signatures c ∧ c.rest = t.message.serialize ∧
        ∀ scheme, t.verifyEach scheme = verifySignatures scheme t.signatures t.keys c.rest) ∧
    (∀ t : VersionedTransaction, Wire.decodeAll VersionedTransaction bs = .ok t → Wire.encode t = bs ∧
      ∃ c, Reader.compactList Signature (start bs) = .ok t.signatures c ∧ c.rest = t.message.serialize ∧
        ∀ scheme, t.verifyEach scheme = verifySignatures scheme t.signatures t.keys c.rest) := by
  refine ⟨?_, ?_, ?_, ?_, ?_⟩
  · exact fun m => Wire.encode_of_decodeAll_eq_ok
  · exact fun m h => (V0Message.deserialize_eq_ok.1 h).2.symm
  · exact fun m => Wire.encode_of_decodeAll_eq_ok
  · intro t h
    obtain ⟨⟨hsignatures, -⟩, rfl⟩ := Wire.decodeAll_eq_ok.1 h
    obtain ⟨c, hread, hrest⟩ := Reader.exists_compactList_signatures hsignatures (Wire.encode t.message)
    refine ⟨rfl, c, hread, hrest, ?_⟩
    intro scheme
    rw [hrest]
    rfl
  · intro t h
    obtain ⟨⟨hsignatures, -⟩, rfl⟩ := Wire.decodeAll_eq_ok.1 h
    obtain ⟨c, hread, hrest⟩ := Reader.exists_compactList_signatures hsignatures (Wire.encode t.message)
    refine ⟨rfl, c, hread, hrest, ?_⟩
    intro scheme
    rw [hrest]
    rfl

/-- A transaction of version 0 with one signature, one instruction and one lookup. -/
theorem encode_of_decodeAll_lookup :
    let bs : Bytes := 1 :: List.replicate 64 7 ++ [0x80, 1, 0, 1, 2] ++ List.replicate 32 1 ++
      List.replicate 32 2 ++ List.replicate 32 3 ++ [1, 1, 2, 0, 2, 3, 9, 8, 7] ++
      1 :: List.replicate 32 4 ++ [1, 5, 0]
    ∃ t, Wire.decodeAll VersionedTransaction bs = .ok t ∧ Wire.encode t = bs ∧
      ∃ c, Reader.compactList Signature (start bs) = .ok t.signatures c ∧ c.rest = t.message.serialize ∧
        ∀ scheme, t.verifyEach scheme = verifySignatures scheme t.signatures t.keys c.rest := by
  intro bs
  obtain ⟨t, ht⟩ : ∃ t, Wire.decodeAll VersionedTransaction bs = .ok t :=
    Except.exists_eq_ok_of_isOk (by decide +kernel)
  exact ⟨t, ht, (encode_of_decodeAll bs).2.2.2.2 t ht⟩

end LedgerTx
