import LedgerTx.Proofs.Wire.Exact
import LedgerTx.Transaction.Versioned

/-! The wire forms of messages and transactions are lawful. What is read back is told by lengths alone: a
value is read back if no sequence in it, at any depth, is longer than a compact length can say. Messages
of either form are read back if besides their first byte tells the form, which it does not for a legacy
message that requires 128 signatures or more. -/

namespace LedgerTx

open Cursor LawfulWire RefusesLong

/-- A type of values in which sequences are written behind compact lengths. -/
class Measured (α : Type) where
  /-- The lengths of all those sequences, at any depth. -/
  lengths : α → List Nat

/-- No sequence in a value is longer than a compact length can say. -/
def Fits {α : Type} [Measured α] (a : α) : Prop :=
  ∀ n ∈ Measured.lengths a, n ≤ CompactLength.limit

instance : Measured CompiledInstruction where
  lengths instruction := [instruction.accounts.length, instruction.data.length]

instance : Measured TableLookup where
  lengths lookup := [lookup.writable.length, lookup.readonly.length]

instance : Measured Message where
  lengths m :=
    m.accountKeys.length :: m.instructions.length :: m.instructions.flatMap Measured.lengths

instance : Measured V0Message where
  lengths m :=
    Measured.lengths m.toMessage ++ m.lookups.length :: m.lookups.flatMap Measured.lengths

instance : Measured VersionedMessage where
  lengths
    | .legacy m => Measured.lengths m
    | .v0 m => Measured.lengths m

instance : Measured Transaction where
  lengths t := t.signatures.length :: Measured.lengths t.message

instance : Measured VersionedTransaction where
  lengths t := t.signatures.length :: Measured.lengths t.message

/-- The first byte of a message is written so that it tells the form: the count of signatures that a
legacy message starts with has no high bit. -/
def VersionedMessage.TellsForm : VersionedMessage → Prop
  | .legacy m => m.header.required < 128
  | .v0 _ => True

theorem forall_lengths_flatMap {α : Type} [Measured α] {values : List α} :
    (∀ n ∈ values.flatMap Measured.lengths, n ≤ CompactLength.limit) ↔ ∀ a ∈ values, Fits a := by
  simp only [List.mem_flatMap, Fits]
  refine ⟨?_, ?_⟩
  · intro h a ha n hn
    exact h n ⟨a, ha, hn⟩
  · rintro h n ⟨a, ha, hn⟩
    exact h a ha n hn

theorem CompiledInstruction.fits_iff {instruction : CompiledInstruction} :
    Fits instruction ↔ instruction.accounts.length ≤ CompactLength.limit ∧
      instruction.data.length ≤ CompactLength.limit := by
  simp [Fits, Measured.lengths]

theorem TableLookup.fits_iff {lookup : TableLookup} :
    Fits lookup ↔ lookup.writable.length ≤ CompactLength.limit ∧
      lookup.readonly.length ≤ CompactLength.limit := by
  simp [Fits, Measured.lengths]

theorem Message.fits_iff {m : Message} :
    Fits m ↔ m.accountKeys.length ≤ CompactLength.limit ∧
      m.instructions.length ≤ CompactLength.limit ∧ ∀ i ∈ m.instructions, Fits i := by
  rw [← forall_lengths_flatMap]
  simp only [Fits, Measured.lengths, List.forall_mem_cons]

theorem V0Message.fits_iff {m : V0Message} :
    Fits m ↔ Fits m.toMessage ∧ m.lookups.length ≤ CompactLength.limit ∧
      ∀ l ∈ m.lookups, Fits l := by
  rw [← forall_lengths_flatMap]
  simp only [Fits, Measured.lengths, List.forall_mem_append, List.forall_mem_cons]

theorem Transaction.fits_iff {t : Transaction} :
    Fits t ↔ t.signatures.length ≤ CompactLength.limit ∧ Fits t.message := by
  simp only [Fits, Measured.lengths, List.forall_mem_cons]

theorem VersionedTransaction.fits_iff {t : VersionedTransaction} :
    Fits t ↔ t.signatures.length ≤ CompactLength.limit ∧ Fits t.message := by
  simp only [Fits, Measured.lengths, List.forall_mem_cons]

instance {kind : Kind} : LawfulWire (Fixed kind) where
  Readable _ := True
  decode_eq_ok := by
    intro c d value
    rw [true_and]
    exact Reader.fixed_eq_ok

instance {kind : Kind} : RefusesLong (Fixed kind) where
  decode_refuses h := (h trivial).elim

instance : LawfulWire Header where
  Readable _ := True
  decode_eq_ok := by
    intro c d header
    change (Reader.byte >>= fun required => Reader.byte >>= fun readonlySigned =>
      Reader.byte >>= fun readonlyUnsigned =>
        pure ⟨required, readonlySigned, readonlyUnsigned⟩ : Reader Header) c = _ ↔
      True ∧ Passes c ([header.required] ++ ([header.readonlySigned] ++ [header.readonlyUnsigned])) d
    simp only [true_and, passes_append, EStateM.bind_eq_ok, Reader.byte_eq_ok, Reader.pure_eq_ok]
    constructor
    · rintro ⟨_, c₁, h₁, _, c₂, h₂, _, _, h₃, rfl, rfl⟩
      exact ⟨c₁, h₁, c₂, h₂, h₃⟩
    · rintro ⟨c₁, h₁, c₂, h₂, h₃⟩
      exact ⟨_, c₁, h₁, _, c₂, h₂, _, d, h₃, rfl, rfl⟩

instance : LawfulWire CompiledInstruction where
  Readable := Fits
  decode_eq_ok := by
    intro c d instruction
    change (Reader.byte >>= fun program => Reader.compactBytes >>= fun accounts =>
      Reader.compactBytes >>= fun data => pure ⟨program, accounts, data⟩ :
        Reader CompiledInstruction) c = _ ↔
      _ ∧ Passes c ([instruction.program] ++
        (Wire.compactBytes instruction.accounts ++ Wire.compactBytes instruction.data)) d
    simp only [EStateM.bind_eq_ok, Reader.byte_eq_ok, Reader.compactBytes_eq_ok, Reader.pure_eq_ok,
      CompiledInstruction.fits_iff, passes_append]
    constructor
    · rintro ⟨_, c₁, h₁, _, c₂, ⟨haccounts, h₂⟩, _, _, ⟨hdata, h₃⟩, rfl, rfl⟩
      exact ⟨⟨haccounts, hdata⟩, c₁, h₁, c₂, h₂, h₃⟩
    · rintro ⟨⟨haccounts, hdata⟩, c₁, h₁, c₂, h₂, h₃⟩
      exact ⟨_, c₁, h₁, _, c₂, ⟨haccounts, h₂⟩, _, d, ⟨hdata, h₃⟩, rfl, rfl⟩

instance : RefusesLong CompiledInstruction where
  decode_refuses := by
    intro c d instruction h hpasses
    change ¬Fits instruction at h
    rw [CompiledInstruction.fits_iff] at h
    obtain ⟨c₁, hprogram, hbytes⟩ := passes_cons.1 hpasses
    apply Reader.Refuses.bind_of_ok (Reader.byte_eq_ok.2 hprogram)
    exact Reader.compactBytes_bind_refuses h hbytes

instance : LawfulWire TableLookup where
  Readable := Fits
  decode_eq_ok := by
    intro c d lookup
    change (Reader.fixed .pubkey >>= fun key => Reader.compactBytes >>= fun writable =>
      Reader.compactBytes >>= fun readonly => pure ⟨key, writable, readonly⟩ :
        Reader TableLookup) c = _ ↔
      _ ∧ Passes c (lookup.key.bytes ++
        (Wire.compactBytes lookup.writable ++ Wire.compactBytes lookup.readonly)) d
    simp only [EStateM.bind_eq_ok, Reader.fixed_eq_ok, Reader.compactBytes_eq_ok, Reader.pure_eq_ok,
      TableLookup.fits_iff, passes_append]
    constructor
    · rintro ⟨_, c₁, h₁, _, c₂, ⟨hwritable, h₂⟩, _, _, ⟨hreadonly, h₃⟩, rfl, rfl⟩
      exact ⟨⟨hwritable, hreadonly⟩, c₁, h₁, c₂, h₂, h₃⟩
    · rintro ⟨⟨hwritable, hreadonly⟩, c₁, h₁, c₂, h₂, h₃⟩
      exact ⟨_, c₁, h₁, _, c₂, ⟨hwritable, h₂⟩, _, d, ⟨hreadonly, h₃⟩, rfl, rfl⟩

instance : RefusesLong TableLookup where
  decode_refuses := by
    intro c d lookup h hpasses
    change ¬Fits lookup at h
    rw [TableLookup.fits_iff] at h
    obtain ⟨c₁, hkey, hbytes⟩ := passes_append.1 hpasses
    apply Reader.Refuses.bind_of_ok (Reader.fixed_eq_ok.2 hkey)
    exact Reader.compactBytes_bind_refuses h hbytes

instance : LawfulWire Message where
  Readable := Fits
  decode_eq_ok := by
    intro c d m
    change (Wire.decode >>= fun header => Reader.compactList Pubkey >>= fun accountKeys =>
      Wire.decode >>= fun recentBlockhash => Reader.compactList CompiledInstruction >>=
        fun instructions => pure ⟨header, accountKeys, recentBlockhash, instructions⟩ :
          Reader Message) c = _ ↔
      _ ∧ Passes c (Wire.encode m.header ++ (Wire.compactList m.accountKeys ++
        (Wire.encode m.recentBlockhash ++ Wire.compactList m.instructions))) d
    simp only [EStateM.bind_eq_ok, Reader.compactList_eq_ok, decode_eq_ok, Reader.pure_eq_ok,
      Message.fits_iff, passes_append]
    constructor
    · rintro ⟨_, c₁, ⟨-, h₁⟩, _, c₂, ⟨⟨hkeys, -⟩, h₂⟩, _, c₃, ⟨-, h₃⟩, _, _, ⟨hinstructions, h₄⟩, rfl, rfl⟩
      exact ⟨⟨hkeys, hinstructions⟩, c₁, h₁, c₂, h₂, c₃, h₃, h₄⟩
    · rintro ⟨⟨hkeys, hinstructions⟩, c₁, h₁, c₂, h₂, c₃, h₃, h₄⟩
      exact ⟨_, c₁, ⟨trivial, h₁⟩, _, c₂, ⟨⟨hkeys, fun _ _ => trivial⟩, h₂⟩, _, c₃, ⟨trivial, h₃⟩,
        _, d, ⟨hinstructions, h₄⟩, rfl, rfl⟩

instance : RefusesLong Message where
  decode_refuses := by
    intro c d m h hpasses
    change ¬Fits m at h
    rw [Message.fits_iff] at h
    obtain ⟨c₁, hheader, hpasses⟩ := passes_append.1 hpasses
    obtain ⟨c₂, haccounts, hpasses⟩ := passes_append.1 hpasses
    obtain ⟨c₃, hblockhash, hinstructions⟩ := passes_append.1 hpasses
    apply Reader.Refuses.bind_of_ok (decode_eq_ok.2 ⟨trivial, hheader⟩)
    by_cases hkeys : m.accountKeys.length ≤ CompactLength.limit
    · refine Reader.Refuses.bind_of_ok
        (Reader.compactList_eq_ok.2 ⟨⟨hkeys, fun _ _ => trivial⟩, haccounts⟩) ?_
      apply Reader.Refuses.bind_of_ok (decode_eq_ok.2 ⟨trivial, hblockhash⟩)
      exact (Reader.compactList_refuses (fun hall => h ⟨hkeys, hall⟩) hinstructions).bind
    · exact (Reader.compactList_refuses (fun hall => hkeys hall.1) haccounts).bind

instance : LawfulWire V0Message where
  Readable := Fits
  decode_eq_ok := by
    intro c d m
    change (Wire.decode >>= fun message => Reader.compactList TableLookup >>= fun lookups =>
      pure ⟨message, lookups⟩ : Reader V0Message) c = _ ↔
      _ ∧ Passes c (Wire.encode m.toMessage ++ Wire.compactList m.lookups) d
    simp only [EStateM.bind_eq_ok, Reader.compactList_eq_ok, decode_eq_ok, Reader.pure_eq_ok,
      V0Message.fits_iff, passes_append]
    constructor
    · rintro ⟨_, c₁, ⟨hmessage, h₁⟩, _, _, ⟨hlookups, h₂⟩, rfl, rfl⟩
      exact ⟨⟨hmessage, hlookups⟩, c₁, h₁, h₂⟩
    · rintro ⟨⟨hmessage, hlookups⟩, c₁, h₁, h₂⟩
      exact ⟨_, c₁, ⟨hmessage, h₁⟩, _, d, ⟨hlookups, h₂⟩, rfl, rfl⟩

instance : RefusesLong V0Message where
  decode_refuses := by
    intro c d m h hpasses
    change ¬Fits m at h
    rw [V0Message.fits_iff] at h
    obtain ⟨c₁, hcore, hlookups⟩ := passes_append.1 hpasses
    by_cases hmessage : Fits m.toMessage
    · apply Reader.Refuses.bind_of_ok (decode_eq_ok.2 ⟨hmessage, hcore⟩)
      exact (Reader.compactList_refuses (fun hall => h ⟨hmessage, hall⟩) hlookups).bind
    · exact (decode_refuses hmessage hcore).bind

/-- Of the bytes that are versions, the one known is told by its low seven bits. -/
theorem mod_eq_zero_iff_eq_versionByte {first : UInt8} (h : ¬first < 128) :
    first % 128 = 0 ↔ first = versionByte := by
  have hlow : 128 ≤ first.toNat := Nat.le_of_not_lt fun hlt => h (UInt8.lt_iff_toNat_lt.2 hlt)
  have hlt := first.toNat_lt
  simp only [← UInt8.toNat_inj, UInt8.toNat_mod]
  change first.toNat % 128 = 0 ↔ first.toNat = 128
  omega

theorem Cursor.Passes.head?_eq {c d : Cursor} {b : UInt8} {front : Bytes} (h : Passes c (b :: front) d) :
    c.rest.head? = some b := by
  rw [h.rest]
  rfl

/-- The version is passed over exactly if it is the one known. -/
theorem Reader.version_eq_ok {c d : Cursor} : Reader.version c = .ok () d ↔ Passes c [versionByte] d := by
  simp only [Reader.version, EStateM.bind_eq_ok, Reader.byte_eq_ok]
  constructor
  · rintro ⟨first, middle, hfirst, h⟩
    split at h
    · rename_i hversion
      obtain ⟨-, rfl⟩ := Reader.pure_eq_ok.1 h
      rw [← hversion]
      exact hfirst
    · cases h
  · intro h
    exact ⟨versionByte, d, h, by rw [if_pos rfl]; rfl⟩

namespace VersionedMessage

variable {c d : Cursor} {first : UInt8} {more : Bytes}

/-- Without a high bit in front, be it that there is no byte, a message is read in the legacy form. -/
theorem decode_eq_legacy (h : ∀ first, c.rest.head? = some first → first < 128) :
    (Wire.decode : Reader VersionedMessage) c = (legacy <$> Wire.decode : Reader VersionedMessage) c := by
  change (Reader.peek >>= fun first =>
    if first < 128 then (legacy <$> Wire.decode : Reader VersionedMessage) else _) c = _
  cases hrest : c.rest with
  | nil =>
      have hheader : (Wire.decode : Reader Message) c = .error .unexpectedEnd c :=
        EStateM.bind_of_error (EStateM.bind_of_error (Reader.byte_of_nil hrest))
      rw [EStateM.bind_of_error (Reader.peek_of_nil hrest), EStateM.map_of_error _ hheader]
  | cons first more =>
      rw [EStateM.bind_of_ok (Reader.peek_of_cons hrest), if_pos (h first (by rw [hrest]; rfl))]

/-- With a high bit in front, the version is tested by its low bits as it is tested as a whole. -/
theorem decode_eq_v0 (hrest : c.rest = first :: more) (h : ¬first < 128) :
    (Wire.decode : Reader VersionedMessage) c =
      (v0 <$> (Reader.version >>= fun _ => Wire.decode) : Reader VersionedMessage) c := by
  change (Reader.peek >>= fun first =>
    if first < 128 then (legacy <$> Wire.decode : Reader VersionedMessage)
    else Reader.byte >>= fun _ =>
      if first % 128 = 0 then v0 <$> Wire.decode else throw (.unknownVersion (first % 128))) c =
    EStateM.map v0 (Reader.version >>= fun _ => Wire.decode) c
  have hbyte := Reader.byte_of_cons hrest
  rw [EStateM.bind_of_ok (Reader.peek_of_cons hrest), if_neg h, EStateM.bind_of_ok hbyte, EStateM.map]
  by_cases hfirst : first = versionByte
  · have hversion : Reader.version c = .ok () (c.advance 1) := by
      rw [Reader.version, EStateM.bind_of_ok hbyte, if_pos hfirst]
      rfl
    rw [if_pos ((mod_eq_zero_iff_eq_versionByte h).2 hfirst), EStateM.bind_of_ok hversion]
    rfl
  · have hversion : Reader.version c = .error (.unknownVersion (first % 128)) (c.advance 1) := by
      rw [Reader.version, EStateM.bind_of_ok hbyte, if_neg hfirst]
      rfl
    rw [if_neg fun hlow => hfirst ((mod_eq_zero_iff_eq_versionByte h).1 hlow),
      EStateM.bind_of_error hversion]
    rfl

/-- A message of either form is read exactly if its first byte tells the form. The reader chooses by the
high bit of that byte, which is the first count of a legacy header and the version of any other message. -/
theorem decode_eq_ok {m : VersionedMessage} :
    (Wire.decode : Reader VersionedMessage) c = .ok m d ↔ (Fits m ∧ m.TellsForm) ∧ Passes c (Wire.encode m) d := by
  by_cases hlow : ∀ first, c.rest.head? = some first → first < 128
  · rw [decode_eq_legacy hlow, Reader.map_eq_ok]
    constructor
    · rintro ⟨m, hread, rfl⟩
      obtain ⟨hfits, hpasses⟩ := LawfulWire.decode_eq_ok.1 hread
      exact ⟨⟨hfits, hlow _ (Passes.head?_eq hpasses)⟩, hpasses⟩
    · rintro ⟨⟨hfits, htells⟩, hpasses⟩
      cases m with
      | legacy m => exact ⟨m, LawfulWire.decode_eq_ok.2 ⟨hfits, hpasses⟩, rfl⟩
      | v0 m => exact absurd (hlow versionByte (Passes.head?_eq hpasses)) (by decide)
  · obtain ⟨first, hfirst, hhigh⟩ : ∃ first, c.rest.head? = some first ∧ ¬first < 128 := by simpa using hlow
    obtain ⟨more, hrest⟩ := List.head?_eq_some_iff.1 hfirst
    rw [decode_eq_v0 hrest hhigh, Reader.map_eq_ok]
    simp only [EStateM.bind_unit_eq_ok, Reader.version_eq_ok, LawfulWire.decode_eq_ok]
    constructor
    · rintro ⟨m, ⟨middle, hversion, hfits, hbody⟩, rfl⟩
      exact ⟨⟨hfits, trivial⟩, hversion.trans hbody⟩
    · rintro ⟨⟨hfits, htells⟩, hpasses⟩
      cases m with
      | legacy m =>
          obtain rfl : first = m.header.required := Option.some.inj (hfirst.symm.trans (Passes.head?_eq hpasses))
          exact absurd htells hhigh
      | v0 m =>
          obtain ⟨middle, hversion, hbody⟩ := passes_cons.1 hpasses
          exact ⟨m, ⟨middle, hversion, hfits, hbody⟩, rfl⟩

end VersionedMessage

instance : LawfulWire VersionedMessage where
  Readable m := Fits m ∧ m.TellsForm
  decode_eq_ok := VersionedMessage.decode_eq_ok

section

variable {μ τ : Type} [Wire μ] [LawfulWire μ] {c d : Cursor} {make : List Signature → μ → τ}
  {signatures : List Signature} {message : μ}

/-- Of what is made of signatures and a message, the signatures are read first. -/
theorem Reader.signatures_bind_eq_ok {t : τ} :
    (Reader.compactList Signature >>= fun signatures => Wire.decode >>= fun message =>
      pure (make signatures message) : Reader τ) c = .ok t d ↔
      ∃ signatures message, t = make signatures message ∧
        (signatures.length ≤ CompactLength.limit ∧ Readable message) ∧
          Passes c (Wire.compactList signatures ++ Wire.encode message) d := by
  simp only [EStateM.bind_eq_ok, Reader.compactList_eq_ok, decode_eq_ok, Reader.pure_eq_ok, passes_append]
  constructor
  · rintro ⟨signatures, c₁, ⟨⟨hsignatures, -⟩, h₁⟩, message, _, ⟨hmessage, h₂⟩, rfl, rfl⟩
    exact ⟨signatures, message, rfl, ⟨hsignatures, hmessage⟩, c₁, h₁, h₂⟩
  · rintro ⟨signatures, message, rfl, ⟨hsignatures, hmessage⟩, c₁, h₁, h₂⟩
    exact ⟨signatures, c₁, ⟨⟨hsignatures, fun _ _ => trivial⟩, h₁⟩, message, d, ⟨hmessage, h₂⟩, rfl, rfl⟩

theorem Reader.signatures_bind_refuses [RefusesLong μ]
    (h : ¬(signatures.length ≤ CompactLength.limit ∧ Readable message))
    (hpasses : Passes c (Wire.compactList signatures ++ Wire.encode message) d) :
    (Reader.compactList Signature >>= fun signatures => Wire.decode >>= fun message =>
      pure (make signatures message) : Reader τ).Refuses c .lengthOverflow := by
  obtain ⟨c₁, hfirst, hsecond⟩ := passes_append.1 hpasses
  by_cases hsignatures : signatures.length ≤ CompactLength.limit
  · refine Reader.Refuses.bind_of_ok
      (Reader.compactList_eq_ok.2 ⟨⟨hsignatures, fun _ _ => trivial⟩, hfirst⟩) ?_
    exact (decode_refuses (fun hmessage => h ⟨hsignatures, hmessage⟩) hsecond).bind
  · exact (Reader.compactList_refuses (fun hall => hsignatures hall.1) hfirst).bind

end

instance : LawfulWire Transaction where
  Readable t := t.signatures.length ≤ CompactLength.limit ∧ Readable t.message
  decode_eq_ok := by
    intro c d t
    refine Reader.signatures_bind_eq_ok.trans ?_
    constructor
    · rintro ⟨signatures, message, rfl, hreadable, hpasses⟩
      exact ⟨hreadable, hpasses⟩
    · rintro ⟨hreadable, hpasses⟩
      exact ⟨t.signatures, t.message, rfl, hreadable, hpasses⟩

instance : RefusesLong Transaction where
  decode_refuses h hpasses := Reader.signatures_bind_refuses h hpasses

instance : LawfulWire VersionedTransaction where
  Readable t := t.signatures.length ≤ CompactLength.limit ∧ Readable t.message
  decode_eq_ok := by
    intro c d t
    refine Reader.signatures_bind_eq_ok.trans ?_
    constructor
    · rintro ⟨signatures, message, rfl, hreadable, hpasses⟩
      exact ⟨hreadable, hpasses⟩
    · rintro ⟨hreadable, hpasses⟩
      exact ⟨t.signatures, t.message, rfl, hreadable, hpasses⟩

end LedgerTx
