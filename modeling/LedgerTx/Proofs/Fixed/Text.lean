import LedgerTx.Fixed
import LedgerTx.Proofs.Base58

/-! What a text is read as. The bound on its length lets the text of every value through, so that a text
which is refused by its length alone is not the text of any. -/

namespace LedgerTx.Fixed

open Base58

variable {kind : Kind} {value : Fixed kind} {text : String} {bs : Bytes}

theorem spells_text (value : Fixed kind) : Spells value.text value.bytes :=
  spells_iff.2 rfl

theorem utf8ByteSize_text_le (value : Fixed kind) : value.text.utf8ByteSize ≤ kind.maxTextLength := by
  have hsize := value.spells_text.utf8ByteSize_le
  rwa [value.length_bytes] at hsize

theorem ofBytes_bytes (value : Fixed kind) : ofBytes value.bytes = .ok value := by
  rw [ofBytes, ofBytes?_bytes]

theorem ofBytes_of_length_ne (hlength : bs.length ≠ kind.width) :
    (ofBytes bs : Except ParseError (Fixed kind)) = .error (.wrongSize kind) := by
  rw [ofBytes, ofBytes?, dif_neg hlength]

theorem parse_of_lt (hsize : kind.maxTextLength < text.utf8ByteSize) :
    (parse text : Except ParseError (Fixed kind)) = .error (.wrongSize kind) :=
  if_pos hsize

theorem parse_of_spells (hsize : text.utf8ByteSize ≤ kind.maxTextLength) (h : Spells text bs) :
    (parse text : Except ParseError (Fixed kind)) = ofBytes bs := by
  rw [parse, if_neg (Nat.not_lt.2 hsize), decode?_eq_some.2 h]

theorem parse_of_not_spells (hsize : text.utf8ByteSize ≤ kind.maxTextLength) (h : ¬∃ bs, Spells text bs) :
    (parse text : Except ParseError (Fixed kind)) = .error (.invalid kind) := by
  have hdecode : decode? text = none :=
    Option.eq_none_iff_forall_ne_some.2 fun bs hbs => h ⟨bs, decode?_eq_some.1 hbs⟩
  rw [parse, if_neg (Nat.not_lt.2 hsize), hdecode]

theorem parse_text (value : Fixed kind) : parse value.text = .ok value := by
  rw [parse_of_spells value.utf8ByteSize_text_le value.spells_text, ofBytes_bytes]

/-- Which of the steps ends the reading of a text, and with what result. -/
inductive Parsed (kind : Kind) (text : String) : Except ParseError (Fixed kind) → Prop where
  | tooLong (hsize : kind.maxTextLength < text.utf8ByteSize) : Parsed kind text (.error (.wrongSize kind))
  | notDigits (hsize : text.utf8ByteSize ≤ kind.maxTextLength) (hspells : ∃ c ∈ text.toList, c ∉ alphabet) :
      Parsed kind text (.error (.invalid kind))
  | otherLength (bs : Bytes) (hsize : text.utf8ByteSize ≤ kind.maxTextLength) (hspells : Spells text bs)
      (hlength : bs.length ≠ kind.width) : Parsed kind text (.error (.wrongSize kind))
  | value (value : Fixed kind) (htext : text = value.text) : Parsed kind text (.ok value)

theorem parsed_parse (kind : Kind) (text : String) : Parsed kind text (parse text) := by
  rcases Nat.lt_or_ge kind.maxTextLength text.utf8ByteSize with hsize | hsize
  · rw [parse_of_lt hsize]
    exact .tooLong hsize
  · by_cases hspells : ∃ bs, Spells text bs
    · obtain ⟨bs, hspells⟩ := hspells
      rw [parse_of_spells hsize hspells]
      by_cases hlength : bs.length = kind.width
      · rw [ofBytes_bytes ⟨bs, hlength⟩]
        exact .value _ (spells_iff.1 hspells)
      · rw [ofBytes_of_length_ne hlength]
        exact .otherLength bs hsize hspells hlength
    · rw [parse_of_not_spells hsize hspells]
      rw [exists_spells, not_forall₂] at hspells
      obtain ⟨c, hmem, hc⟩ := hspells
      exact .notDigits hsize ⟨c, hmem, hc⟩

theorem parse_eq_ok : parse text = .ok value ↔ text = value.text := by
  refine ⟨?_, ?_⟩
  · intro h
    have hparsed := parsed_parse kind text
    rw [h] at hparsed
    cases hparsed with
    | value _ htext => exact htext
  · rintro rfl
    exact parse_text value

theorem parse_eq_wrongSize :
    (parse text : Except ParseError (Fixed kind)) = .error (.wrongSize kind) ↔
      kind.maxTextLength < text.utf8ByteSize ∨ ∃ bs, Spells text bs ∧ bs.length ≠ kind.width := by
  refine ⟨?_, ?_⟩
  · intro h
    have hparsed := parsed_parse kind text
    rw [h] at hparsed
    cases hparsed with
    | tooLong hsize => exact Or.inl hsize
    | otherLength bs _ hspells hlength => exact Or.inr ⟨bs, hspells, hlength⟩
  · rintro (hsize | ⟨bs, hspells, hlength⟩)
    · exact parse_of_lt hsize
    · rcases Nat.lt_or_ge kind.maxTextLength text.utf8ByteSize with hsize | hsize
      · exact parse_of_lt hsize
      · rw [parse_of_spells hsize hspells, ofBytes_of_length_ne hlength]

theorem parse_eq_invalid :
    (parse text : Except ParseError (Fixed kind)) = .error (.invalid kind) ↔
      text.utf8ByteSize ≤ kind.maxTextLength ∧ ∃ c ∈ text.toList, c ∉ alphabet := by
  refine ⟨?_, ?_⟩
  · intro h
    have hparsed := parsed_parse kind text
    rw [h] at hparsed
    cases hparsed with
    | notDigits hsize hmem => exact ⟨hsize, hmem⟩
  · rintro ⟨hsize, c, hmem, hc⟩
    exact parse_of_not_spells hsize fun hspells => hc (exists_spells.1 hspells c hmem)

/-- For each kind, the text of a value is its bytes to base 58, and is read as that value; no other text is.
The length, the characters and the bytes of another text tell which error it is read as. -/
theorem parse_eq_iff (kind : Kind) :
    (∀ value : Fixed kind, Spells value.text value.bytes) ∧
      (∀ (text : String) (value : Fixed kind), parse text = .ok value ↔ text = value.text) ∧
      (∀ text : String, (parse text : Except ParseError (Fixed kind)) = .error (.wrongSize kind) ↔
        kind.maxTextLength < text.utf8ByteSize ∨
          (∀ c ∈ text.toList, c ∈ alphabet) ∧ ∃ bs, Spells text bs ∧ bs.length ≠ kind.width) ∧
      ∀ text : String, (parse text : Except ParseError (Fixed kind)) = .error (.invalid kind) ↔
        text.utf8ByteSize ≤ kind.maxTextLength ∧ ∃ c ∈ text.toList, c ∉ alphabet := by
  refine ⟨spells_text, fun _ _ => parse_eq_ok, ?_, fun _ => parse_eq_invalid⟩
  intro text
  rw [parse_eq_wrongSize]
  apply or_congr_right
  refine ⟨?_, And.right⟩
  rintro ⟨bs, hspells, hlength⟩
  exact ⟨exists_spells.1 ⟨bs, hspells⟩, bs, hspells, hlength⟩

end LedgerTx.Fixed
