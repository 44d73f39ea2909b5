import LedgerTx.Proofs.Wire.Formats
import LedgerTx.Transaction.Versioned

/-! The first byte of a message decides which decoder is at work. The decoder of both forms looks at that
byte and, where it is a version, passes over it and tests its low bits, while the decoder of version 0 reads
it and compares it as a whole. They come to the same for all bytes, and so do the decoders of transactions,
which meet that byte only behind the signatures; faults are compared along with values. -/

namespace LedgerTx

open Cursor

namespace Reader

variable {α β : Type} {reader : Reader α} {other : Reader β} {f : α → β} {bs : Bytes}

/-- Readers that agree up to a conversion of values also agree on what takes all of the bytes. -/
theorem all_eq_map (h : other (start bs) = (f <$> reader) (start bs)) : other.all bs = (reader.all bs).map f := by
  cases hread : reader (start bs) with
  | error e d =>
      rw [EStateM.map_of_error f hread] at h
      rw [all_of_refuses ⟨d, h⟩, all_of_refuses ⟨d, hread⟩]
      rfl
  | ok a d =>
      rw [EStateM.map_of_ok f hread] at h
      rw [all_of_ok h, all_of_ok hread]
      split
      · rfl
      · rfl

end Reader

theorem VersionedMessage.decodeAll_eq_ite (bs : Bytes) :
    Wire.decodeAll VersionedMessage bs =
      if bs.head?.any (128 ≤ ·) then (V0Message.deserialize bs).map v0
      else (Wire.decodeAll Message bs).map legacy := by
  split_ifs with hhigh
  · obtain ⟨first, hfirst, hle⟩ := (Option.any_eq_true _ _).1 hhigh
    obtain ⟨rest, rfl⟩ := List.head?_eq_some_iff.1 hfirst
    exact Reader.all_eq_map (decode_eq_v0 rfl (UInt8.not_lt.2 (of_decide_eq_true hle)))
  · apply Reader.all_eq_map
    apply decode_eq_legacy
    intro first hfirst
    have hbs : bs.head? = some first := hfirst
    rw [hbs, Option.any_some, decide_eq_true_iff] at hhigh
    exact UInt8.not_le.1 hhigh

namespace Transaction

variable {bs : Bytes} {c : Cursor} {signatures : List Signature}

/-- No byte with a high bit follows the signatures: these are refused, or nothing follows them, or the byte
that does has no high bit. -/
def Unversioned (bs : Bytes) : Prop :=
  ∀ signatures c first, Reader.compactList Signature (start bs) = .ok signatures c →
    c.rest.head? = some first → first < 128

theorem unversioned_iff (hread : Reader.compactList Signature (start bs) = .ok signatures c) :
    Unversioned bs ↔ ∀ first, c.rest.head? = some first → first < 128 := by
  refine ⟨fun h first => h signatures c first hread, ?_⟩
  intro h found left first hfound
  cases hread.symm.trans hfound
  exact h first

/-- The decoders of both types read signatures and then a message. -/
theorem decode_eq_bind :
    (Wire.decode : Reader Transaction) =
      Reader.compactList Signature >>= fun signatures => Transaction.mk signatures <$> Wire.decode := by
  simp only [← bind_pure_comp]
  rfl

theorem versioned_decode_eq_bind :
    (Wire.decode : Reader VersionedTransaction) =
      Reader.compactList Signature >>= fun signatures => VersionedTransaction.mk signatures <$> Wire.decode := by
  simp only [← bind_pure_comp]
  rfl

theorem toVersioned_decode :
    (toVersioned <$> Wire.decode : Reader VersionedTransaction) =
      Reader.compactList Signature >>= fun signatures =>
        VersionedTransaction.mk signatures <$> (VersionedMessage.legacy <$> Wire.decode) := by
  rw [decode_eq_bind, map_bind]
  simp only [Functor.map_map]
  rfl

theorem decode_eq_toVersioned (h : Unversioned bs) :
    (Wire.decode : Reader VersionedTransaction) (start bs) =
      (toVersioned <$> Wire.decode : Reader VersionedTransaction) (start bs) := by
  rw [versioned_decode_eq_bind, toVersioned_decode]
  cases hread : Reader.compactList Signature (start bs) with
  | error e c => rw [EStateM.bind_of_error hread, EStateM.bind_of_error hread]
  | ok signatures c =>
      rw [EStateM.bind_of_ok hread, EStateM.bind_of_ok hread]
      exact EStateM.map_congr _ (VersionedMessage.decode_eq_legacy ((unversioned_iff hread).1 h))

/-- With a version behind the signatures, what is decoded is not legacy. -/
theorem toLegacy?_of_decodeAll {t : VersionedTransaction} (h : ¬Unversioned bs)
    (hdecode : Wire.decodeAll VersionedTransaction bs = .ok t) : t.toLegacy? = none := by
  obtain ⟨d, hread, -⟩ := Reader.all_eq_ok.1 hdecode
  simp only [Unversioned, not_forall] at h
  obtain ⟨signatures, c, first, hsignatures, hfirst, hhigh⟩ := h
  obtain ⟨more, hrest⟩ := List.head?_eq_some_iff.1 hfirst
  rw [versioned_decode_eq_bind, EStateM.bind_of_ok hsignatures,
    EStateM.map_congr _ (VersionedMessage.decode_eq_v0 hrest hhigh), Functor.map_map] at hread
  obtain ⟨m, -, rfl⟩ := Reader.map_eq_ok.1 hread
  rfl

end Transaction

/-- For all bytes, be they accepted or refused, a message of either form is decoded as what its first byte
says, and a transaction as a legacy one unless the byte behind its signatures says that it is none. -/
theorem decodeAll_of_first_byte (bs : Bytes) :
    (Wire.decodeAll VersionedMessage bs =
      if bs.head?.any (128 ≤ ·) then (V0Message.deserialize bs).map .v0
      else (Wire.decodeAll Message bs).map .legacy) ∧
    (Transaction.Unversioned bs →
      Wire.decodeAll VersionedTransaction bs =
        (Wire.decodeAll Transaction bs).map Transaction.toVersioned) ∧
    (¬Transaction.Unversioned bs → ∀ t : VersionedTransaction,
      Wire.decodeAll VersionedTransaction bs = .ok t → t.toLegacy? = none) :=
  ⟨VersionedMessage.decodeAll_eq_ite bs,
    fun h => Reader.all_eq_map (Transaction.decode_eq_toVersioned h),
    fun h _ => Transaction.toLegacy?_of_decodeAll h⟩

/-- A legacy transaction and one of version 0, both with a signature that is not required. -/
theorem decodeAll_of_first_byte_both :
    let signature : Bytes := 1 :: List.replicate 64 7
    let legacy : Bytes := signature ++ ([0, 0, 0, 0] ++ List.replicate 32 3 ++ [0])
    let v0 : Bytes := signature ++ ([0x80, 0, 0, 0, 0] ++ List.replicate 32 3 ++ [0, 0])
    (Transaction.Unversioned legacy ∧ (∃ t, Wire.decodeAll Transaction legacy = .ok t) ∧
      Wire.decodeAll VersionedTransaction legacy =
        (Wire.decodeAll Transaction legacy).map Transaction.toVersioned) ∧
    ¬Transaction.Unversioned v0 ∧
      ∃ t, Wire.decodeAll VersionedTransaction v0 = .ok t ∧ t.toLegacy? = none := by
  intro signature legacy v0
  have hread : ∀ bs, ∃ c, Reader.compactList Signature (start (signature ++ bs)) =
      .ok [⟨List.replicate 64 7, rfl⟩] c ∧ c.rest = bs := fun _ => ⟨_, rfl, rfl⟩
  have hlegacy : Transaction.Unversioned legacy := by
    obtain ⟨c, hc, hrest⟩ := hread _
    rw [Transaction.unversioned_iff hc, hrest]
    rintro _ ⟨⟩
    decide
  have hv0 : ¬Transaction.Unversioned v0 := by
    obtain ⟨c, hc, hrest⟩ := hread _
    rw [Transaction.unversioned_iff hc, hrest]
    exact fun h => absurd (h 0x80 rfl) (by decide)
  obtain ⟨t, ht⟩ : ∃ t, Wire.decodeAll Transaction legacy = .ok t :=
    Except.exists_eq_ok_of_isOk (by decide +kernel)
  obtain ⟨v, hv⟩ : ∃ v, Wire.decodeAll VersionedTransaction v0 = .ok v :=
    Except.exists_eq_ok_of_isOk (by decide +kernel)
  exact ⟨⟨hlegacy, ⟨t, ht⟩, (decodeAll_of_first_byte legacy).2.1 hlegacy⟩, hv0, v, hv,
    (decodeAll_of_first_byte v0).2.2 hv0 v hv⟩

end LedgerTx
