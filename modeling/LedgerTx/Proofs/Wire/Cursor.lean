import LedgerTx.Proofs.Wire.Composed

/-! Cursors go forward through their input. A cursor says where it is, and nothing keeps it from saying that it is
behind the end: that it is not is kept by every reading, be it accepted or refused, since a reading passes over bytes
that were unread and over no others. What it comes to is told by the unread bytes alone, wherever these stand.
Readings that fail are not undone: single pieces are read as a whole or not at all, but what was read before the
piece that is refused stays read. -/

namespace LedgerTx

open Cursor

namespace Reader

variable {α β : Type} {reader : Reader α} {c d middle : Cursor} {e : DecodeError}

/-- A reader that leaves the cursor where it is if it fails. -/
def AllOrNothing (reader : Reader α) : Prop :=
  ∀ {c d : Cursor} {e : DecodeError}, reader c = .error e d → d = c

theorem allOrNothing_peek : peek.AllOrNothing := by
  intro c d e h
  cases hrest : c.rest with
  | nil =>
      rw [peek_of_nil hrest] at h
      cases h
      rfl
  | cons b more =>
      rw [peek_of_cons hrest] at h
      cases h

theorem allOrNothing_byte : byte.AllOrNothing := by
  intro c d e h
  cases hrest : c.rest with
  | nil =>
      rw [byte_of_nil hrest] at h
      cases h
      rfl
  | cons b more =>
      rw [byte_of_cons hrest] at h
      cases h

theorem allOrNothing_bytes (count : Nat) : (bytes count).AllOrNothing := fun h => (bytes_eq_error.1 h).2.2.symm

theorem allOrNothing_fixed (kind : Kind) : (fixed kind).AllOrNothing := fun h => (fixed_eq_error.1 h).2.2.symm

theorem allOrNothing_compactLength : compactLength.AllOrNothing := fun h => (compactLength_eq_error.1 h).2.symm

theorem AllOrNothing.map (h : reader.AllOrNothing) (f : α → β) : (f <$> reader).AllOrNothing := by
  intro c d e hfails
  cases hread : reader c with
  | ok a middle =>
      rw [EStateM.map_of_ok f hread] at hfails
      cases hfails
  | error e middle =>
      rw [EStateM.map_of_error f hread] at hfails
      cases hfails
      exact h hread

/-- A byte that is no flag is read all the same. -/
theorem passes_of_bool {b : UInt8} (h : bool c = .error (.invalidBool b) d) : Passes c [b] d := by
  cases hrest : c.rest with
  | nil =>
      rw [bool, EStateM.bind_of_error (byte_of_nil hrest)] at h
      cases h
  | cons first more =>
      have hbyte := byte_of_cons hrest
      rw [bool, EStateM.bind_of_ok hbyte] at h
      split at h
      · cases h
      · cases h
      · cases h
        exact byte_eq_ok.1 hbyte

/-- Where bytes are refused for their number, the length in front of them is read all the same. -/
theorem passes_of_compactBytes {n : Nat} (hlength : compactLength c = .ok n middle)
    (h : compactBytes c = .error e d) : Passes c (CompactLength.encode n) d := by
  rw [compactBytes, EStateM.bind_of_ok hlength] at h
  obtain rfl := allOrNothing_bytes n h
  exact (compactLength_eq_ok.1 hlength).2

end Reader

namespace Cursor

variable {α : Type} {reader : Reader α} {c d : Cursor} {front : Bytes} {e : DecodeError}

/-- A cursor is at a byte of its input, or at the end. -/
def Within (c : Cursor) : Prop :=
  c.position ≤ c.input.length

theorem within_start (input : Bytes) : (start input).Within :=
  Nat.zero_le _

theorem Within.position_add_remaining (h : c.Within) : c.position + c.remaining = c.input.length :=
  Nat.add_sub_of_le h

/-- As many bytes as are passed over were unread, so the cursor does not leave its input. -/
theorem Passes.within (h : Passes c front d) (hc : c.Within) : d.Within := by
  have hunread : front.length ≤ c.remaining := by
    rw [← length_rest, h.rest, List.length_append]
    exact Nat.le_add_right _ _
  have hlength := hc.position_add_remaining
  rw [Within, h.input, h.position]
  omega

theorem Within.read (h : c.Within) (hreader : reader.Composed) : (c.read reader).2.Within := by
  obtain ⟨front, hpasses⟩ := hreader.passes c
  exact hpasses.within h

theorem read_of_allOrNothing (hreader : reader.AllOrNothing) (hfails : (c.read reader).1 = .error e) :
    (c.read reader).2 = c :=
  hreader (Reader.error_of_read hfails)

end Cursor

/-- The types of the values that are read one after the other behind their number. A v0 message is read without
its version byte. -/
inductive WireType where
  | fixed (kind : Kind)
  | account
  | compiledInstruction
  | header
  | lookup
  | message
  | v0Message
  | versionedMessage
  | transaction
  | versionedTransaction

namespace WireType

def Value : WireType → Type
  | fixed kind => Fixed kind
  | account => AccountMeta
  | compiledInstruction => CompiledInstruction
  | header => Header
  | lookup => TableLookup
  | message => Message
  | v0Message => V0Message
  | versionedMessage => VersionedMessage
  | transaction => Transaction
  | versionedTransaction => VersionedTransaction

instance : (type : WireType) → Wire type.Value
  | fixed kind => inferInstanceAs (Wire (Fixed kind))
  | account => inferInstanceAs (Wire AccountMeta)
  | compiledInstruction => inferInstanceAs (Wire CompiledInstruction)
  | header => inferInstanceAs (Wire Header)
  | lookup => inferInstanceAs (Wire TableLookup)
  | message => inferInstanceAs (Wire Message)
  | v0Message => inferInstanceAs (Wire V0Message)
  | versionedMessage => inferInstanceAs (Wire VersionedMessage)
  | transaction => inferInstanceAs (Wire Transaction)
  | versionedTransaction => inferInstanceAs (Wire VersionedTransaction)

instance : (type : WireType) → ComposedWire type.Value
  | fixed kind => inferInstanceAs (ComposedWire (Fixed kind))
  | account => inferInstanceAs (ComposedWire AccountMeta)
  | compiledInstruction => inferInstanceAs (ComposedWire CompiledInstruction)
  | header => inferInstanceAs (ComposedWire Header)
  | lookup => inferInstanceAs (ComposedWire TableLookup)
  | message => inferInstanceAs (ComposedWire Message)
  | v0Message => inferInstanceAs (ComposedWire V0Message)
  | versionedMessage => inferInstanceAs (ComposedWire VersionedMessage)
  | transaction => inferInstanceAs (ComposedWire Transaction)
  | versionedTransaction => inferInstanceAs (ComposedWire VersionedTransaction)

end WireType

namespace Cursor

/-- What can be read at a cursor. Byte strings and numbers may have any width; an array is a byte string. -/
inductive Read where
  | peek
  | byte
  | bool
  | bytes (count : Nat)
  | fixed (kind : Kind)
  | littleEndian (width : Nat)
  | compactLength
  | compactBytes
  | compactList (type : WireType)

namespace Read

def Value : Read → Type
  | peek | byte => UInt8
  | bool => Bool
  | bytes _ | compactBytes => Bytes
  | fixed kind => Fixed kind
  | littleEndian _ | compactLength => Nat
  | compactList type => List type.Value

def reader : (r : Read) → Reader r.Value
  | peek => Reader.peek
  | byte => Reader.byte
  | bool => Reader.bool
  | bytes count => Reader.bytes count
  | fixed kind => Reader.fixed kind
  | littleEndian width => Reader.littleEndian width
  | compactLength => Reader.compactLength
  | compactBytes => Reader.compactBytes
  | compactList type => Reader.compactList type.Value

/-- A single piece is read, and neither tested afterwards nor put together with others. -/
def IsSingle : Read → Prop
  | bool | compactBytes | compactList _ => False
  | _ => True

theorem composed (r : Read) : r.reader.Composed := by
  cases r with
  | peek => exact .peek
  | byte => exact .byte
  | bool => exact .bool
  | bytes count => exact .bytes count
  | fixed kind => exact .fixed kind
  | littleEndian width => exact .littleEndian width
  | compactLength => exact .compactLength
  | compactBytes => exact .compactBytes
  | compactList type => exact Reader.Composed.compactList

theorem allOrNothing {r : Read} (h : r.IsSingle) : r.reader.AllOrNothing := by
  cases r with
  | peek => exact Reader.allOrNothing_peek
  | byte => exact Reader.allOrNothing_byte
  | bytes count => exact Reader.allOrNothing_bytes count
  | fixed kind => exact Reader.allOrNothing_fixed kind
  | littleEndian width => exact Reader.AllOrNothing.map (Reader.allOrNothing_bytes width) _
  | compactLength => exact Reader.allOrNothing_compactLength
  | bool | compactBytes | compactList _ => exact h.elim

end Read

/-- The cursor after readings in a row, of which any may have failed. -/
def after (c : Cursor) (reads : List Read) : Cursor :=
  reads.foldl (fun c r => (c.read r.reader).2) c

/-- What readings in a row pass over is what each of them passes over, one after the other. -/
theorem passes_after (c : Cursor) (reads : List Read) : ∃ front, Passes c front (c.after reads) := by
  induction reads generalizing c with
  | nil => exact ⟨[], passes_nil.2 rfl⟩
  | cons r reads ih =>
      obtain ⟨front, hread⟩ := r.composed.passes c
      obtain ⟨more, hmore⟩ := ih (c.read r.reader).2
      exact ⟨front ++ more, hread.trans hmore⟩

theorem Within.after {c : Cursor} (h : c.Within) (reads : List Read) : (c.after reads).Within := by
  induction reads generalizing c with
  | nil => exact h
  | cons r reads ih => exact ih (h.read r.composed)

/-- A cursor is within the input that it was started on. -/
structure On (input : Bytes) (c : Cursor) : Prop where
  input_eq : c.input = input
  position_le : c.position ≤ input.length
  position_add_remaining : c.position + c.remaining = input.length

/-- A reading passes over bytes that were unread. At every cursor with the same unread bytes, whatever stands in
front of them, it comes to the same and passes over the same bytes. -/
structure ReadsForward (c : Cursor) (r : Read) : Prop where
  passes : ∃ front, Passes c front (c.read r.reader).2
  alike : ∀ d : Cursor, d.rest = c.rest → r.reader.ReadsAlike c d

/-- What is passed over by a reading that fails: nothing by that of a single piece, a byte that is no flag,
and the length in front of too few bytes. -/
structure StopsAtFailure (c : Cursor) : Prop where
  single : ∀ r : Read, r.IsSingle → ∀ e, (c.read r.reader).1 = .error e → (c.read r.reader).2 = c
  flag : ∀ b, (c.read Reader.bool).1 = .error (.invalidBool b) → Passes c [b] (c.read Reader.bool).2
  length : ∀ n e, (c.read Reader.compactLength).1 = .ok n → (c.read Reader.compactBytes).1 = .error e →
    Passes c (CompactLength.encode n) (c.read Reader.compactBytes).2

theorem readsForward (c : Cursor) (r : Read) : ReadsForward c r where
  passes := r.composed.passes c
  alike _ hrest := r.composed.readsAlike hrest

theorem stopsAtFailure (c : Cursor) : StopsAtFailure c where
  single _ hsingle _ hfails := read_of_allOrNothing (Read.allOrNothing hsingle) hfails
  flag _ hfails := Reader.passes_of_bool (Reader.error_of_read hfails)
  length _ _ hlength hfails :=
    Reader.passes_of_compactBytes (Reader.ok_of_read hlength) (Reader.error_of_read hfails)

/-- Whatever was read before, a cursor is within its input and goes only forward, whatever is read next
depends only on the bytes that are unread, and where it fails, what was read before the failure stays read. -/
theorem sound_of_reads (input : Bytes) (reads : List Read) :
    let c := (start input).after reads
    On input c ∧ (∀ more, c.position ≤ (c.after more).position) ∧ (∀ r, ReadsForward c r) ∧
      StopsAtFailure c := by
  intro c
  have hwithin : c.Within := (within_start input).after reads
  have hinput : c.input = input := by
    obtain ⟨front, hpasses⟩ := passes_after (start input) reads
    exact hpasses.input
  refine ⟨⟨hinput, ?_, ?_⟩, ?_, readsForward c, stopsAtFailure c⟩
  · rw [← hinput]
    exact hwithin
  · rw [← hinput]
    exact hwithin.position_add_remaining
  · intro more
    obtain ⟨front, hmore⟩ := passes_after c more
    rw [hmore.position]
    exact Nat.le_add_right _ _

/-- A byte that is no flag, a length in front of too few bytes, a byte, a length with a superfluous group
and its two bytes, and two headers of which the second one is cut short. The end is read alike in another input. -/
theorem sound_of_reads_failing :
    let input : Bytes := [2, 9, 1, 128, 0, 2, 7, 7, 7, 7]
    let reads : List Read := [.bool, .compactBytes, .byte, .compactLength, .bytes 2, .compactList .header]
    let second := (start input).advance 1
    ((start input).after reads).position = 10 ∧ On input ((start input).after reads) ∧
      (start input).read Reader.bool = (.error (.invalidBool 2), second) ∧
      Passes (start input) [2] second ∧
      second.read Reader.compactBytes = (.error .unexpectedEnd, second.advance 1) ∧
      Passes second [9] (second.advance 1) ∧
      second.read Reader.byte = (.ok 9, second.advance 1) ∧
      ((start [9, 1, 128, 0, 2, 7, 7, 7, 7]).read Reader.byte).1 = .ok 9 := by
  intro input reads second
  have hbool : (start input).read Reader.bool = (.error (.invalidBool 2), second) := rfl
  have hlength : second.read Reader.compactLength = (.ok 9, second.advance 1) := rfl
  have hbytes : second.read Reader.compactBytes = (.error .unexpectedEnd, second.advance 1) := rfl
  have hbyte : second.read Reader.byte = (.ok 9, second.advance 1) := rfl
  refine ⟨by decide +kernel, (sound_of_reads input reads).1, hbool, ?_, hbytes, ?_, hbyte, ?_⟩
  · have hflag := (sound_of_reads input []).2.2.2.flag 2 (congrArg Prod.fst hbool)
    exact hflag
  · have hfront := (sound_of_reads input [.bool]).2.2.2.length 9 .unexpectedEnd
      (congrArg Prod.fst hlength) (congrArg Prod.fst hbytes)
    rw [CompactLength.encode_of_lt (by decide)] at hfront
    exact hfront
  · have halike := ((sound_of_reads input [.bool]).2.2.1 .byte).alike (start [9, 1, 128, 0, 2, 7, 7, 7, 7]) rfl
    exact halike.outcome.symm.trans (congrArg Prod.fst hbyte)

end Cursor

end LedgerTx
