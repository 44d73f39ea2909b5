import LedgerTx.Proofs.Action
import LedgerTx.Proofs.Wire.CompactLength

/-! Readers that fit a writer. A wire form is lawful if its reader gives a value exactly where the bytes that are
written for one are unread, and passes over these, whatever comes after them: the one equivalence holds what is
needed to read values back and what is needed to know that nothing else is read. It goes through sequencing, where
an action succeeds exactly if its two steps do and what is passed over are the bytes of both, and through counted
sequences by induction on the count. That a sequence too long to be read back is refused as such is kept apart, in
`RefusesLong`, because it is said of bytes that no value is read from. -/

/-- What does not fail has a value. -/
theorem Except.exists_eq_ok_of_isOk {ε α : Type} {x : Except ε α} (h : x.isOk = true) : ∃ a, x = .ok a := by
  cases x with
  | error e => cases h
  | ok a => exact ⟨a, rfl⟩

namespace LedgerTx

namespace Cursor

variable {c d middle : Cursor} {front more bs : Bytes}

theorem eq_of_position_eq (hinput : c.input = d.input) (hposition : c.position = d.position) : c = d := by
  obtain ⟨input, position, rest, rfl⟩ := c
  obtain ⟨_, _, _, rfl⟩ := d
  obtain rfl : input = _ := hinput
  obtain rfl : position = _ := hposition
  rfl

/-- One cursor is reached from another by passing over bytes that were unread. -/
structure Passes (c : Cursor) (front : Bytes) (d : Cursor) : Prop where
  input : d.input = c.input
  position : d.position = c.position + front.length
  rest : c.rest = front ++ d.rest

theorem passes_advance (h : front <+: c.rest) : Passes c front (c.advance front.length) where
  input := rfl
  position := rfl
  rest := (List.prefix_iff_eq_append.1 h).symm

theorem Passes.eq_advance (h : Passes c front d) : d = c.advance front.length :=
  eq_of_position_eq h.input h.position

/-- What is passed over stands in front of what is unread, and tells where the cursor goes. -/
theorem passes_iff : Passes c front d ↔ front <+: c.rest ∧ d = c.advance front.length := by
  constructor
  · intro h
    exact ⟨⟨d.rest, h.rest.symm⟩, h.eq_advance⟩
  · rintro ⟨hfront, rfl⟩
    exact passes_advance hfront

theorem passes_nil : Passes c [] d ↔ d = c := by
  constructor
  · intro h
    exact eq_of_position_eq h.input h.position
  · rintro rfl
    exact ⟨rfl, rfl, rfl⟩

theorem Passes.trans (h : Passes c front middle) (hmore : Passes middle more d) : Passes c (front ++ more) d where
  input := hmore.input.trans h.input
  position := by rw [hmore.position, h.position, List.length_append, Nat.add_assoc]
  rest := by rw [h.rest, hmore.rest, List.append_assoc]

theorem passes_append : Passes c (front ++ more) d ↔ ∃ middle, Passes c front middle ∧ Passes middle more d := by
  constructor
  · intro h
    have hrest : c.rest = front ++ (more ++ d.rest) := by rw [h.rest, List.append_assoc]
    have hfront : Passes c front (c.advance front.length) := passes_advance ⟨_, hrest.symm⟩
    refine ⟨_, hfront, h.input, ?_, List.append_cancel_left (hfront.rest.symm.trans hrest)⟩
    rw [h.position, hfront.position, List.length_append, Nat.add_assoc]
  · rintro ⟨middle, hfront, hmore⟩
    exact hfront.trans hmore

theorem passes_cons {b : UInt8} :
    Passes c (b :: more) d ↔ ∃ middle, Passes c [b] middle ∧ Passes middle more d :=
  @passes_append c d [b] more

/-- From the start, all bytes are passed over just if they are all there are. -/
theorem exists_passes_start_iff : (∃ d, Passes (start bs) front d ∧ d.rest = []) ↔ bs = front := by
  constructor
  · rintro ⟨d, hpasses, hrest⟩
    have hbytes : bs = front ++ d.rest := hpasses.rest
    rw [hbytes, hrest, List.append_nil]
  · rintro rfl
    exact ⟨_, passes_advance List.prefix_rfl, List.drop_length⟩

end Cursor

open Cursor

namespace Reader

variable {α β : Type} {reader : Reader α} {next : α → Reader β} {c d middle : Cursor} {e : DecodeError}

theorem pure_eq_ok {a b : α} : (pure a : Reader α) c = .ok b d ↔ a = b ∧ c = d := by
  change EStateM.Result.ok a c = .ok b d ↔ _
  rw [EStateM.Result.ok.injEq]

theorem map_eq_ok {f : α → β} {b : β} :
    (f <$> reader) c = .ok b d ↔ ∃ a, reader c = .ok a d ∧ f a = b := by
  change EStateM.map f reader c = .ok b d ↔ _
  rw [EStateM.map]
  cases reader c with
  | ok a left => simp [and_comm]
  | error e left => simp

theorem peek_of_cons {b : UInt8} {more : Bytes} (h : c.rest = b :: more) : peek c = .ok b c := by
  rw [peek, h]

theorem peek_of_nil (h : c.rest = []) : peek c = .error .unexpectedEnd c := by
  rw [peek, h]

theorem byte_of_cons {b : UInt8} {more : Bytes} (h : c.rest = b :: more) : byte c = .ok b (c.advance 1) :=
  EStateM.bind_of_ok (peek_of_cons h)

theorem byte_of_nil (h : c.rest = []) : byte c = .error .unexpectedEnd c :=
  EStateM.bind_of_error (peek_of_nil h)

theorem byte_eq_ok {b : UInt8} : byte c = .ok b d ↔ Passes c [b] d := by
  rw [passes_iff]
  cases hrest : c.rest with
  | nil => simp [byte_of_nil hrest]
  | cons first more => simp [byte_of_cons hrest, eq_comm]

theorem bytes_eq_ok {count : Nat} {read : Bytes} :
    bytes count c = .ok read d ↔ read.length = count ∧ Passes c read d := by
  rw [bytes, passes_iff]
  split
  · rename_i hlacks
    rw [lacks_iff] at hlacks
    refine iff_of_false (by simp) ?_
    rintro ⟨rfl, hfront, -⟩
    rw [← List.prefix_iff_eq_take.1 hfront] at hlacks
    exact Nat.lt_irrefl _ hlacks
  · rename_i hlacks
    rw [lacks_iff, List.length_take] at hlacks
    have hlength : (c.rest.take count).length = count := by
      rw [List.length_take]
      omega
    rw [EStateM.Result.ok.injEq]
    constructor
    · rintro ⟨rfl, rfl⟩
      exact ⟨hlength, List.take_prefix count c.rest, by rw [hlength]⟩
    · rintro ⟨rfl, hfront, rfl⟩
      exact ⟨(List.prefix_iff_eq_take.1 hfront).symm, rfl⟩

/-- A value of fixed width is read as its bytes are. -/
theorem fixed_eq_ok {kind : Kind} {value : Fixed kind} :
    fixed kind c = .ok value d ↔ Passes c value.bytes d := by
  have hread : fixed kind c = .ok value d ↔ bytes kind.width c = .ok value.bytes d := by
    rw [fixed, bytes]
    split
    · exact iff_of_false (by simp) (by simp)
    · simp only [EStateM.Result.ok.injEq, Fixed.ext_iff]
  rw [hread, bytes_eq_ok, and_iff_right value.length_bytes]

theorem compactLength_eq_ok {n : Nat} :
    compactLength c = .ok n d ↔ n ≤ CompactLength.limit ∧ Passes c (CompactLength.encode n) d := by
  rw [compactLength, passes_iff]
  cases hread : CompactLength.decode c.rest with
  | error e =>
      refine iff_of_false (by simp) ?_
      rintro ⟨hlimit, hfront, -⟩
      rw [CompactLength.decode_eq_ok.2 ⟨hlimit, hfront, rfl⟩] at hread
      cases hread
  | ok read =>
      obtain ⟨m, used⟩ := read
      obtain ⟨hlimit, hfront, rfl⟩ := CompactLength.decode_eq_ok.1 hread
      rw [EStateM.Result.ok.injEq]
      constructor
      · rintro ⟨rfl, rfl⟩
        exact ⟨hlimit, hfront, rfl⟩
      · rintro ⟨hlimit, hfront, rfl⟩
        rw [CompactLength.decode_eq_ok.2 ⟨hlimit, hfront, rfl⟩] at hread
        cases hread
        exact ⟨rfl, rfl⟩

theorem compactBytes_eq_ok {read : Bytes} :
    compactBytes c = .ok read d ↔
      read.length ≤ CompactLength.limit ∧ Passes c (Wire.compactBytes read) d := by
  rw [compactBytes, EStateM.bind_eq_ok, Wire.compactBytes, passes_append]
  constructor
  · rintro ⟨n, middle, hlength, hread⟩
    obtain ⟨hlimit, hfront⟩ := compactLength_eq_ok.1 hlength
    obtain ⟨rfl, hbytes⟩ := bytes_eq_ok.1 hread
    exact ⟨hlimit, middle, hfront, hbytes⟩
  · rintro ⟨hlimit, middle, hfront, hbytes⟩
    exact ⟨read.length, middle, compactLength_eq_ok.2 ⟨hlimit, hfront⟩, bytes_eq_ok.2 ⟨rfl, hbytes⟩⟩

/-- A reader fails at a cursor for a reason, wherever it stops. -/
def Refuses (reader : Reader α) (c : Cursor) (e : DecodeError) : Prop :=
  ∃ d, reader c = .error e d

theorem Refuses.bind (h : reader.Refuses c e) : (reader >>= next).Refuses c e := by
  obtain ⟨d, hfails⟩ := h
  exact ⟨d, EStateM.bind_of_error hfails⟩

theorem Refuses.bind_of_ok {a : α} (hok : reader c = .ok a d) (h : (next a).Refuses d e) :
    (reader >>= next).Refuses c e := by
  obtain ⟨left, hfails⟩ := h
  exact ⟨left, (EStateM.bind_of_ok hok).trans hfails⟩

theorem compactLength_refuses {n : Nat} (h : CompactLength.limit < n)
    (hpasses : Passes c (CompactLength.encode n) d) : compactLength.Refuses c .lengthOverflow := by
  refine ⟨c, ?_⟩
  rw [compactLength, hpasses.rest, CompactLength.decode_encode_of_limit_lt h]

theorem compactBytes_refuses {read : Bytes} (h : CompactLength.limit < read.length)
    (hpasses : Passes c (Wire.compactBytes read) d) : compactBytes.Refuses c .lengthOverflow := by
  obtain ⟨middle, hlength, -⟩ := passes_append.1 hpasses
  exact (compactLength_refuses h hlength).bind

/-- Of two byte strings read one after the other, the first that is too long is refused. -/
theorem compactBytes_bind_refuses {first second : Bytes} {next : Bytes → Bytes → Reader α}
    (h : ¬(first.length ≤ CompactLength.limit ∧ second.length ≤ CompactLength.limit))
    (hpasses : Passes c (Wire.compactBytes first ++ Wire.compactBytes second) d) :
    (compactBytes >>= fun a => compactBytes >>= fun b => next a b).Refuses c .lengthOverflow := by
  obtain ⟨middle, hfirst, hsecond⟩ := passes_append.1 hpasses
  by_cases hlimit : first.length ≤ CompactLength.limit
  · have hlong : ¬second.length ≤ CompactLength.limit := fun hle => h ⟨hlimit, hle⟩
    apply Refuses.bind_of_ok (compactBytes_eq_ok.2 ⟨hlimit, hfirst⟩)
    exact (compactBytes_refuses (Nat.lt_of_not_le hlong) hsecond).bind
  · exact (compactBytes_refuses (Nat.lt_of_not_le hlimit) hfirst).bind

end Reader

/-- A wire form that is read exactly as it is written. -/
class LawfulWire (α : Type) [Wire α] where
  /-- The values that are read back. -/
  Readable : α → Prop
  decode_eq_ok : ∀ {c d : Cursor} {a : α},
    (Wire.decode : Reader α) c = .ok a d ↔ Readable a ∧ Passes c (Wire.encode a) d

/-- A wire form whose values, where they are not read back, are refused for the length of a sequence. -/
class RefusesLong (α : Type) [Wire α] [LawfulWire α] : Prop where
  decode_refuses : ∀ {c d : Cursor} {a : α}, ¬LawfulWire.Readable a → Passes c (Wire.encode a) d →
    (Wire.decode : Reader α).Refuses c .lengthOverflow

namespace Reader

open LawfulWire RefusesLong

variable {α : Type} [Wire α] [LawfulWire α] {c d : Cursor} {values : List α}

/-- As many items as counted are read exactly, and put behind those read before. -/
theorem itemsAfter_eq_ok {count : Nat} {before : List α} :
    itemsAfter Wire.decode count before c = .ok values d ↔
      ∃ items : List α, values = before.reverse ++ items ∧ items.length = count ∧
        (∀ a ∈ items, Readable a) ∧ Passes c (items.flatMap Wire.encode) d := by
  induction count generalizing before c with
  | zero =>
      rw [itemsAfter, pure_eq_ok]
      constructor
      · rintro ⟨rfl, rfl⟩
        exact ⟨[], by simp, rfl, by simp, passes_nil.2 rfl⟩
      · rintro ⟨items, rfl, hcount, -, hpasses⟩
        obtain rfl := List.length_eq_zero_iff.1 hcount
        exact ⟨by simp, (passes_nil.1 hpasses).symm⟩
  | succ count ih =>
      simp only [itemsAfter, EStateM.bind_eq_ok, decode_eq_ok, ih]
      constructor
      · rintro ⟨a, middle, ⟨ha, hfirst⟩, items, rfl, rfl, hitems, hpasses⟩
        exact ⟨a :: items, by simp, rfl, List.forall_mem_cons.2 ⟨ha, hitems⟩, hfirst.trans hpasses⟩
      · rintro ⟨items, rfl, hcount, hitems, hpasses⟩
        cases items with
        | nil => cases hcount
        | cons a items =>
            rw [List.forall_mem_cons] at hitems
            obtain ⟨middle, hfirst, hrest⟩ := passes_append.1 hpasses
            exact ⟨a, middle, ⟨hitems.1, hfirst⟩, items, by simp, Nat.succ.inj hcount, hitems.2, hrest⟩

/-- As many items as counted are read exactly. -/
theorem items_eq_ok {count : Nat} :
    items count Wire.decode c = .ok values d ↔
      values.length = count ∧ (∀ a ∈ values, Readable a) ∧ Passes c (values.flatMap Wire.encode) d := by
  rw [items, itemsAfter_eq_ok]
  simp

theorem compactList_eq_ok :
    compactList α c = .ok values d ↔
      (values.length ≤ CompactLength.limit ∧ ∀ a ∈ values, Readable a) ∧
        Passes c (Wire.compactList values) d := by
  rw [compactList, EStateM.bind_eq_ok, Wire.compactList, passes_append]
  constructor
  · rintro ⟨n, middle, hlength, hread⟩
    obtain ⟨hlimit, hfront⟩ := compactLength_eq_ok.1 hlength
    obtain ⟨rfl, hvalues, hitems⟩ := items_eq_ok.1 hread
    exact ⟨⟨hlimit, hvalues⟩, middle, hfront, hitems⟩
  · rintro ⟨⟨hlimit, hvalues⟩, middle, hfront, hitems⟩
    exact ⟨values.length, middle, compactLength_eq_ok.2 ⟨hlimit, hfront⟩, items_eq_ok.2 ⟨rfl, hvalues, hitems⟩⟩

variable [RefusesLong α]

/-- Items of which one is not read back are refused at the first such one. -/
theorem itemsAfter_refuses (before : List α) (h : ¬∀ a ∈ values, Readable a)
    (hpasses : Passes c (values.flatMap Wire.encode) d) :
    (itemsAfter Wire.decode values.length before).Refuses c .lengthOverflow := by
  induction values generalizing before c with
  | nil => simp at h
  | cons a values ih =>
      rw [List.flatMap_cons, passes_append] at hpasses
      obtain ⟨middle, hfirst, hrest⟩ := hpasses
      rw [List.length_cons, itemsAfter]
      by_cases ha : Readable a
      · refine Refuses.bind_of_ok (decode_eq_ok.2 ⟨ha, hfirst⟩) (ih (a :: before) ?_ hrest)
        intro hvalues
        exact h (List.forall_mem_cons.2 ⟨ha, hvalues⟩)
      · exact (decode_refuses ha hfirst).bind

theorem compactList_refuses (h : ¬(values.length ≤ CompactLength.limit ∧ ∀ a ∈ values, Readable a))
    (hpasses : Passes c (Wire.compactList values) d) : (compactList α).Refuses c .lengthOverflow := by
  rw [Wire.compactList, passes_append] at hpasses
  obtain ⟨middle, hlength, hitems⟩ := hpasses
  rw [compactList]
  by_cases hlimit : values.length ≤ CompactLength.limit
  · apply Refuses.bind_of_ok (compactLength_eq_ok.2 ⟨hlimit, hlength⟩)
    exact itemsAfter_refuses [] (fun hvalues => h ⟨hlimit, hvalues⟩) hitems
  · exact (compactLength_refuses (Nat.lt_of_not_le hlimit) hlength).bind

end Reader

namespace Reader

variable {α : Type} {reader : Reader α} {bs : Bytes} {a : α} {d : Cursor} {e : DecodeError}

theorem finish_eq_ite (d : Cursor) :
    finish d = if d.rest = [] then .ok () d else .error (.trailingBytes d.rest.length) d := by
  rw [finish, ← length_rest]
  cases d.rest with
  | nil => rfl
  | cons b rest => rfl

theorem all_of_ok (h : reader (start bs) = .ok a d) :
    reader.all bs = if d.rest = [] then .ok a else .error (.trailingBytes d.rest.length) := by
  rw [all, Cursor.read, EStateM.bind_of_ok h]
  by_cases hrest : d.rest = []
  · have hfinish : finish d = .ok () d := by rw [finish_eq_ite, if_pos hrest]
    rw [EStateM.bind_of_ok hfinish, if_pos hrest]
    rfl
  · have hfinish : finish d = .error (.trailingBytes d.rest.length) d := by rw [finish_eq_ite, if_neg hrest]
    rw [EStateM.bind_of_error hfinish, if_neg hrest]

theorem all_of_refuses (h : reader.Refuses (start bs) e) : reader.all bs = .error e := by
  obtain ⟨d, hfails⟩ := h
  rw [all, Cursor.read, EStateM.bind_of_error hfails]

theorem all_eq_ok : reader.all bs = .ok a ↔ ∃ d, reader (start bs) = .ok a d ∧ d.rest = [] := by
  cases hread : reader (start bs) with
  | error e d =>
      rw [all_of_refuses ⟨d, hread⟩]
      exact iff_of_false nofun nofun
  | ok b d =>
      rw [all_of_ok hread]
      split <;> simp_all [and_comm]

end Reader

namespace Wire

open LawfulWire RefusesLong

variable {α : Type} [Wire α] [LawfulWire α] {bs : Bytes} {a : α}

/-- A value is decoded from exactly the bytes that are written for it. -/
theorem decodeAll_eq_ok : decodeAll α bs = .ok a ↔ Readable a ∧ bs = encode a := by
  simp only [decodeAll, Reader.all_eq_ok, decode_eq_ok, and_assoc, exists_and_left, exists_passes_start_iff]

/-- What is not read back is refused for the length of a sequence. -/
theorem decodeAll_encode_of_not_readable [RefusesLong α] (h : ¬Readable a) :
    decodeAll α (encode a) = .error .lengthOverflow :=
  Reader.all_of_refuses (decode_refuses h (passes_advance List.prefix_rfl))

end Wire

end LedgerTx
