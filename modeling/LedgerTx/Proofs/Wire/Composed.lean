import LedgerTx.Proofs.Wire.Exact
import LedgerTx.Transaction.Versioned

/-! Readers that are put together from readers of single pieces. All wire forms are read by such readers: by
pieces in a row, where what is read of one may say how the next is read, and by counted sequences, which are
one piece after the other. What holds of the pieces and passes from two readers to both in a row therefore
holds of every format, and is proved without going through the formats again. So it is with what a reader does to
its cursor: it passes over unread bytes, whether or not it fails, and both these and the outcome are told by the
unread bytes alone. Nor are they told by all of them, as bytes put behind the others change nothing unless the
others run out. -/

namespace LedgerTx

open Cursor

namespace Reader

/-- Readings of single pieces, and those that are made of others in a row. -/
inductive Composed : {α : Type} → Reader α → Prop
  | pure {α : Type} (a : α) : Composed (pure a)
  | throw {α : Type} (e : DecodeError) : Composed (throw e : Reader α)
  | peek : Composed peek
  | byte : Composed byte
  | bytes (count : Nat) : Composed (bytes count)
  | fixed (kind : Kind) : Composed (fixed kind)
  | compactLength : Composed compactLength
  | bind {α β : Type} {reader : Reader α} {next : α → Reader β} :
      Composed reader → (∀ a, Composed (next a)) → Composed (reader >>= next)

namespace Composed

theorem map {α β : Type} {reader : Reader α} (h : reader.Composed) (f : α → β) : (f <$> reader).Composed := by
  rw [← bind_pure_comp]
  exact h.bind fun a => .pure (f a)

theorem bool : Reader.bool.Composed := by
  apply byte.bind
  intro b
  split
  · exact .pure false
  · exact .pure true
  · exact .throw _

theorem littleEndian (width : Nat) : (Reader.littleEndian width).Composed :=
  (bytes width).map _

theorem compactBytes : Reader.compactBytes.Composed :=
  compactLength.bind bytes

end Composed

variable {α β : Type} {reader : Reader α} {next : α → Reader β} {c d m n : Cursor} {more : Bytes}
  {e : DecodeError} {a : α}

theorem read_of_ok (h : reader c = .ok a m) : c.read reader = (.ok a, m) := by
  rw [Cursor.read, h]

theorem read_of_error (h : reader c = .error e m) : c.read reader = (.error e, m) := by
  rw [Cursor.read, h]

theorem ok_of_read (h : (c.read reader).1 = .ok a) : reader c = .ok a (c.read reader).2 := by
  cases hread : reader c with
  | ok b m =>
      rw [read_of_ok hread] at h
      cases h
      rw [read_of_ok hread]
  | error e m =>
      rw [read_of_error hread] at h
      cases h

theorem error_of_read (h : (c.read reader).1 = .error e) : reader c = .error e (c.read reader).2 := by
  cases hread : reader c with
  | ok a m =>
      rw [read_of_ok hread] at h
      cases h
  | error f m =>
      rw [read_of_error hread] at h
      cases h
      rw [read_of_error hread]

/-- A reader comes to the same at two cursors, and passes over the same bytes. -/
structure ReadsAlike (reader : Reader α) (c d : Cursor) : Prop where
  outcome : (c.read reader).1 = (d.read reader).1
  passes : ∃ front, Passes c front (c.read reader).2 ∧ Passes d front (d.read reader).2

/-- A reader makes the same of the same unread bytes, and of more of them too, unless those that are the same run
out. -/
def Local (reader : Reader α) : Prop :=
  ∀ {c d : Cursor} {more : Bytes}, d.rest = c.rest ++ more →
    reader.ReadsAlike c d ∨ more ≠ [] ∧ reader.Refuses c .unexpectedEnd

theorem readsAlike_of_ok {front : Bytes} (hc : reader c = .ok a m) (hd : reader d = .ok a n)
    (hm : Passes c front m) (hn : Passes d front n) : reader.ReadsAlike c d where
  outcome := by rw [read_of_ok hc, read_of_ok hd]
  passes := by
    rw [read_of_ok hc, read_of_ok hd]
    exact ⟨front, hm, hn⟩

/-- Failing at both cursors without passing over anything. -/
theorem readsAlike_of_stays (hc : reader c = .error e c) (hd : reader d = .error e d) : reader.ReadsAlike c d where
  outcome := by rw [read_of_error hc, read_of_error hd]
  passes := by
    rw [read_of_error hc, read_of_error hd]
    exact ⟨[], passes_nil.2 rfl, passes_nil.2 rfl⟩

/-- Where the bytes run out at one cursor, they do at the other, or there are more. -/
theorem readsAlike_or_of_end (hc : reader c = .error .unexpectedEnd c)
    (hd : more = [] → reader d = .error .unexpectedEnd d) :
    reader.ReadsAlike c d ∨ more ≠ [] ∧ reader.Refuses c .unexpectedEnd := by
  by_cases hmore : more = []
  · exact Or.inl (readsAlike_of_stays hc (hd hmore))
  · exact Or.inr ⟨hmore, c, hc⟩

theorem local_pure (a : α) : (pure a : Reader α).Local :=
  fun _ => Or.inl (readsAlike_of_ok rfl rfl (passes_nil.2 rfl) (passes_nil.2 rfl))

theorem local_throw (e : DecodeError) : (throw e : Reader α).Local :=
  fun _ => Or.inl (readsAlike_of_stays rfl rfl)

theorem Local.bind (h : reader.Local) (hnext : ∀ a, (next a).Local) : (reader >>= next).Local := by
  intro c d more hrest
  rcases h hrest with ⟨houtcome, front, hc, hd⟩ | ⟨hmore, hend⟩
  · cases hread : reader c with
    | error e m =>
        have hfails : reader d = .error e (d.read reader).2 := error_of_read (by rw [← houtcome, read_of_error hread])
        rw [read_of_error hread] at hc
        left
        constructor
        · rw [read_of_error (EStateM.bind_of_error hread), read_of_error (EStateM.bind_of_error hfails)]
        · rw [read_of_error (EStateM.bind_of_error hread), read_of_error (EStateM.bind_of_error hfails)]
          exact ⟨front, hc, hd⟩
    | ok a m =>
        have hreads : reader d = .ok a (d.read reader).2 := ok_of_read (by rw [← houtcome, read_of_ok hread])
        rw [read_of_ok hread] at hc
        have hunread : (d.read reader).2.rest = m.rest ++ more := by
          rw [hc.rest, hd.rest, List.append_assoc] at hrest
          exact List.append_cancel_left hrest
        have hbindc : c.read (reader >>= next) = m.read (next a) := by
          rw [Cursor.read, Cursor.read, EStateM.bind_of_ok hread]
        have hbindd : d.read (reader >>= next) = (d.read reader).2.read (next a) := by
          rw [Cursor.read, EStateM.bind_of_ok hreads]
          rfl
        rcases hnext a hunread with ⟨hsame, passed, hm, hn⟩ | ⟨hmore, hend⟩
        · left
          constructor
          · rw [hbindc, hbindd, hsame]
          · rw [hbindc, hbindd]
            exact ⟨front ++ passed, hc.trans hm, hd.trans hn⟩
        · exact Or.inr ⟨hmore, hend.bind_of_ok hread⟩
  · exact Or.inr ⟨hmore, hend.bind⟩

theorem local_peek : peek.Local := by
  intro c d more hrest
  cases hc : c.rest with
  | nil =>
      rw [hc] at hrest
      exact readsAlike_or_of_end (peek_of_nil hc) fun hmore => peek_of_nil (hrest.trans hmore)
  | cons b rest =>
      rw [hc] at hrest
      exact Or.inl (readsAlike_of_ok (peek_of_cons hc) (peek_of_cons hrest) (passes_nil.2 rfl) (passes_nil.2 rfl))

/-- What is passed over at one cursor can be passed over at another, if there it is in front too. -/
theorem passes_of_rest_eq_append {front : Bytes} (h : Passes c front m) (hrest : d.rest = c.rest ++ more) :
    Passes d front (d.advance front.length) := by
  rw [h.rest, List.append_assoc] at hrest
  exact passes_advance ⟨_, hrest.symm⟩

theorem local_byte : byte.Local := by
  intro c d more hrest
  cases hc : c.rest with
  | nil =>
      rw [hc] at hrest
      exact readsAlike_or_of_end (byte_of_nil hc) fun hmore => byte_of_nil (hrest.trans hmore)
  | cons b rest =>
      have hread := byte_of_cons hc
      have hm := byte_eq_ok.1 hread
      have hn := passes_of_rest_eq_append hm hrest
      exact Or.inl (readsAlike_of_ok hread (byte_eq_ok.2 hn) hm hn)

theorem bytes_eq_error {count : Nat} :
    bytes count c = .error e m ↔ c.Lacks count ∧ .unexpectedEnd = e ∧ c = m := by
  rw [bytes]
  split_ifs with hlacks
  · rw [EStateM.Result.error.injEq, and_iff_right hlacks]
  · exact iff_of_false (by simp) fun h => hlacks h.1

theorem fixed_eq_error {kind : Kind} :
    fixed kind c = .error e m ↔ c.Lacks kind.width ∧ .unexpectedEnd = e ∧ c = m := by
  rw [fixed]
  split_ifs with hlacks
  · rw [EStateM.Result.error.injEq, and_iff_right hlacks]
  · exact iff_of_false (by simp) fun h => hlacks h.1

theorem compactLength_eq_error :
    compactLength c = .error e m ↔ CompactLength.decode c.rest = .error e ∧ c = m := by
  rw [compactLength]
  cases CompactLength.decode c.rest with
  | error f => simp
  | ok read => simp

theorem lacks_of_rest_eq {count : Nat} (hrest : d.rest = c.rest) (h : c.Lacks count) : d.Lacks count := by
  rw [lacks_iff, hrest]
  exact lacks_iff.1 h

theorem local_bytes (count : Nat) : (bytes count).Local := by
  intro c d more hrest
  cases hread : bytes count c with
  | ok read m =>
      obtain ⟨hcount, hm⟩ := bytes_eq_ok.1 hread
      have hn := passes_of_rest_eq_append hm hrest
      exact Or.inl (readsAlike_of_ok hread (bytes_eq_ok.2 ⟨hcount, hn⟩) hm hn)
  | error e m =>
      obtain ⟨hlacks, rfl, rfl⟩ := bytes_eq_error.1 hread
      apply readsAlike_or_of_end hread
      rintro rfl
      rw [List.append_nil] at hrest
      exact bytes_eq_error.2 ⟨lacks_of_rest_eq hrest hlacks, rfl, rfl⟩

theorem local_fixed (kind : Kind) : (fixed kind).Local := by
  intro c d more hrest
  cases hread : fixed kind c with
  | ok value m =>
      have hm := fixed_eq_ok.1 hread
      have hn := passes_of_rest_eq_append hm hrest
      exact Or.inl (readsAlike_of_ok hread (fixed_eq_ok.2 hn) hm hn)
  | error e m =>
      obtain ⟨hlacks, rfl, rfl⟩ := fixed_eq_error.1 hread
      apply readsAlike_or_of_end hread
      rintro rfl
      rw [List.append_nil] at hrest
      exact fixed_eq_error.2 ⟨lacks_of_rest_eq hrest hlacks, rfl, rfl⟩

theorem local_compactLength : compactLength.Local := by
  intro c d more hrest
  cases hread : compactLength c with
  | ok n m =>
      obtain ⟨hlimit, hm⟩ := compactLength_eq_ok.1 hread
      have hn := passes_of_rest_eq_append hm hrest
      exact Or.inl (readsAlike_of_ok hread (compactLength_eq_ok.2 ⟨hlimit, hn⟩) hm hn)
  | error e m =>
      obtain ⟨hdecode, rfl⟩ := compactLength_eq_error.1 hread
      rcases CompactLength.decodeFrom_append 0 c.rest more with hend | hsame
      · obtain rfl : .unexpectedEnd = e := Except.error.inj (hend.symm.trans hdecode)
        apply readsAlike_or_of_end hread
        rintro rfl
        rw [List.append_nil] at hrest
        exact compactLength_eq_error.2 ⟨by rw [hrest, hdecode], rfl⟩
      · have hd : CompactLength.decode d.rest = .error e := by
          rw [hrest, CompactLength.decode, hsame, ← CompactLength.decode, hdecode]
        exact Or.inl (readsAlike_of_stays hread (compactLength_eq_error.2 ⟨hd, rfl⟩))

/-- Whatever is composed of the pieces is as they are. -/
theorem Composed.isLocal (h : reader.Composed) : reader.Local := by
  induction h with
  | pure a => exact local_pure a
  | throw e => exact local_throw e
  | peek => exact local_peek
  | byte => exact local_byte
  | bytes count => exact local_bytes count
  | fixed kind => exact local_fixed kind
  | compactLength => exact local_compactLength
  | bind _ _ ih ihnext => exact ih.bind ihnext

/-- The same unread bytes are read alike. -/
theorem Composed.readsAlike (h : reader.Composed) (hrest : d.rest = c.rest) : reader.ReadsAlike c d := by
  rcases h.isLocal (hrest.trans (List.append_nil _).symm) with halike | ⟨hmore, -⟩
  · exact halike
  · exact absurd rfl hmore

/-- A reader passes over bytes that were unread, whether or not it fails. -/
theorem Composed.passes (h : reader.Composed) (c : Cursor) : ∃ front, Passes c front (c.read reader).2 := by
  obtain ⟨front, hpasses, -⟩ := (h.readsAlike (rfl : c.rest = c.rest)).passes
  exact ⟨front, hpasses⟩

end Reader

/-- A wire form whose reader is put together from those of single pieces. -/
class ComposedWire (α : Type) [Wire α] : Prop where
  decode_composed : (Wire.decode : Reader α).Composed

open ComposedWire

namespace Reader.Composed

variable {α : Type} [Wire α] [ComposedWire α]

theorem itemsAfter (count : Nat) (before : List α) :
    (Reader.itemsAfter Wire.decode count before).Composed := by
  induction count generalizing before with
  | zero => exact .pure _
  | succ count ih => exact decode_composed.bind fun a => ih (a :: before)

theorem compactList : (Reader.compactList α).Composed :=
  compactLength.bind fun count => itemsAfter count []

end Reader.Composed

open Reader.Composed

instance {kind : Kind} : ComposedWire (Fixed kind) where
  decode_composed := fixed kind

instance : ComposedWire AccountMeta where
  decode_composed := (fixed .pubkey).bind fun _ => bool.bind fun _ => bool.bind fun _ => .pure _

instance : ComposedWire Instruction where
  decode_composed :=
    (fixed .pubkey).bind fun _ =>
      (littleEndian 8).bind fun count => (itemsAfter count []).bind fun _ =>
        (littleEndian 8).bind fun count => (bytes count).bind fun _ => .pure _

instance : ComposedWire CompiledInstruction where
  decode_composed := byte.bind fun _ => compactBytes.bind fun _ => compactBytes.bind fun _ => .pure _

instance : ComposedWire TableLookup where
  decode_composed :=
    (fixed .pubkey).bind fun _ => compactBytes.bind fun _ => compactBytes.bind fun _ => .pure _

instance : ComposedWire Header where
  decode_composed := byte.bind fun _ => byte.bind fun _ => byte.bind fun _ => .pure _

instance : ComposedWire Message where
  decode_composed :=
    decode_composed.bind fun _ => compactList.bind fun _ => decode_composed.bind fun _ =>
      compactList.bind fun _ => .pure _

theorem Reader.Composed.version : Reader.version.Composed := by
  apply byte.bind
  intro first
  split
  · exact .pure ()
  · exact .throw _

instance : ComposedWire V0Message where
  decode_composed := decode_composed.bind fun _ => compactList.bind fun _ => .pure _

instance : ComposedWire VersionedMessage where
  decode_composed := by
    apply peek.bind
    intro first
    split
    · exact decode_composed.map _
    · apply byte.bind
      intro _
      split
      · exact decode_composed.map _
      · exact .throw _

instance : ComposedWire Transaction where
  decode_composed := compactList.bind fun _ => decode_composed.bind fun _ => .pure _

instance : ComposedWire VersionedTransaction where
  decode_composed := compactList.bind fun _ => decode_composed.bind fun _ => .pure _

end LedgerTx
