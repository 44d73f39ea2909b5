import LedgerTx.Json.Form
import LedgerTx.Proofs.Fixed.Text
import LedgerTx.Proofs.Json.Strings

/-! Forms whose reader gives back what was written, whatever mark comes after it. A value is written without
white space before it, and starts with a character that cannot be taken for the end of an array, so that the
reader of a sequence finds its items where the writer has put them. -/

namespace LedgerTx.Json

/-- What may come after a value: nothing, or a mark that ends it. -/
inductive Ends : List Char → Prop where
  | nil : Ends []
  | comma (rest : List Char) : Ends (',' :: rest)
  | bracket (rest : List Char) : Ends (']' :: rest)
  | brace (rest : List Char) : Ends ('\x7d' :: rest)

/-- The reader of a form gives back what its writer has written. -/
class LawfulForm (α : Type) [Form α] : Prop where
  read_write (value : α) {rest : List Char} (hrest : Ends rest) :
    Form.read (Form.write value ++ rest) = .ok value rest
  starts (value : α) : ∃ c cs, Form.write value = c :: cs ∧ isSpace c = false ∧ c ≠ ']'

variable {α : Type} [Form α] [LawfulForm α] {rest : List Char}

theorem LawfulForm.write_ne_nil (value : α) : Form.write value ≠ [] := by
  obtain ⟨c, cs, hwrite, -, -⟩ := starts value
  rw [hwrite]
  exact List.cons_ne_nil c cs

theorem decode_encode (value : α) : decode α (encode value) = .ok value := by
  have hread := LawfulForm.read_write value .nil
  rw [List.append_nil] at hread
  rw [decode, encode, String.toList_ofList, hread]
  rfl

instance : LawfulForm Bool where
  read_write value rest _ := by cases value <;> rfl
  starts value := by cases value <;> exact ⟨_, _, rfl, by decide, by decide⟩

theorem Ends.takeWhile_append (h : Ends rest) {ds : List Char} (hds : ∀ d ∈ ds, d.isDigit = true) :
    (ds ++ rest).takeWhile Char.isDigit = ds := by
  have hrest : rest.takeWhile Char.isDigit = [] := by cases h <;> rfl
  rw [List.takeWhile_append_of_pos hds, hrest, List.append_nil]

theorem Ends.dropWhile_append (h : Ends rest) {ds : List Char} (hds : ∀ d ∈ ds, d.isDigit = true) :
    (ds ++ rest).dropWhile Char.isDigit = rest := by
  rw [List.dropWhile_append_of_pos hds]
  cases h <;> rfl

theorem Ends.not_isFractional (h : Ends rest) : isFractional rest = false := by
  cases h <;> rfl

theorem isDigit_of_mem_write {b : UInt8} {d : Char} (hd : d ∈ Form.write b) : d.isDigit = true :=
  Nat.isDigit_of_mem_toDigits (by decide) (by decide) hd

theorem isByteText_write (b : UInt8) : isByteText (Form.write b) = true := by
  have hall : ∀ n < 256, isByteText (Nat.toDigits 10 n) = true := by decide +kernel
  exact hall b.toNat b.toNat_lt

theorem decimal_write (b : UInt8) : decimal (Form.write b) = b.toNat :=
  Nat.ofDigitChars_ten_toDigits

theorem isSpace_of_isDigit {c : Char} (hc : c.isDigit = true) : isSpace c = false := by
  refine eq_false_of_ne_true fun hspace => ?_
  simp only [isSpace, Bool.or_eq_true, beq_iff_eq] at hspace
  rcases hspace with ((rfl | rfl) | rfl) | rfl
  all_goals exact absurd hc (by decide)

theorem exists_write_eq_cons (b : UInt8) : ∃ c cs, Form.write b = c :: cs ∧ c.isDigit = true := by
  obtain ⟨c, cs, hwrite⟩ := List.exists_cons_of_ne_nil (l := Form.write b) Nat.toDigits_ne_nil
  refine ⟨c, cs, hwrite, isDigit_of_mem_write (b := b) ?_⟩
  rw [hwrite]
  exact List.mem_cons_self

theorem byte_eq (cs : List Char) : byte cs =
    if isByteText ((afterSpace cs).takeWhile Char.isDigit) &&
        !isFractional ((afterSpace cs).dropWhile Char.isDigit) then
      .ok (UInt8.ofNat (decimal ((afterSpace cs).takeWhile Char.isDigit)))
        ((afterSpace cs).dropWhile Char.isDigit)
    else .error .malformed (afterSpace cs) := by
  rw [byte, EStateM.bind_of_ok (skipSpace_eq cs)]
  change (if _ then _ else _ : TextReader UInt8) (afterSpace cs) = _
  split <;> rfl

instance : LawfulForm UInt8 where
  read_write value rest hrest := by
    have hdigits : ∀ d ∈ Form.write value, d.isDigit = true := fun _ => isDigit_of_mem_write
    have hspace : afterSpace (Form.write value ++ rest) = Form.write value ++ rest := by
      obtain ⟨c, cs, hwrite, hc⟩ := exists_write_eq_cons value
      rw [hwrite]
      exact afterSpace_cons (isSpace_of_isDigit hc)
    refine (byte_eq _).trans ?_
    rw [hspace, hrest.takeWhile_append hdigits, hrest.dropWhile_append hdigits, isByteText_write,
      hrest.not_isFractional, decimal_write, UInt8.ofNat_toNat]
    rfl
  starts value := by
    obtain ⟨c, cs, hwrite, hc⟩ := exists_write_eq_cons value
    refine ⟨c, cs, hwrite, isSpace_of_isDigit hc, ?_⟩
    rintro rfl
    exact absurd hc (by decide)

theorem commaSeparated_cons_cons (text next : List Char) (texts : List (List Char)) :
    commaSeparated (text :: next :: texts) = text ++ ',' :: commaSeparated (next :: texts) :=
  (List.intercalate_cons_cons ..).trans (List.append_assoc ..)

theorem commaSeparated_singleton (text : List Char) : commaSeparated [text] = text :=
  List.intercalate_singleton

theorem exists_commaSeparated_eq_cons (c : Char) (cs : List Char) (texts : List (List Char)) :
    ∃ more, commaSeparated ((c :: cs) :: texts) = c :: more := by
  cases texts with
  | nil => exact ⟨cs, commaSeparated_singleton _⟩
  | cons next texts => exact ⟨_, commaSeparated_cons_cons ..⟩

theorem length_le_length_commaSeparated {texts : List (List Char)} (htexts : ∀ text ∈ texts, text ≠ []) :
    texts.length ≤ (commaSeparated texts).length := by
  induction texts with
  | nil => exact Nat.zero_le _
  | cons text texts ih =>
      obtain ⟨htext, htexts⟩ := List.forall_mem_cons.1 htexts
      have hpos := List.length_pos_iff.2 htext
      cases texts with
      | nil => rwa [commaSeparated_singleton]
      | cons next texts =>
          have hlength := ih htexts
          rw [commaSeparated_cons_cons]
          simp only [List.length_append, List.length_cons] at hlength ⊢
          omega

theorem itemsFrom_write (value : α) (values before : List α) {most : Nat}
    (hmost : values.length < most) :
    itemsFrom Form.read most before (commaSeparated ((value :: values).map Form.write) ++ ']' :: rest) =
      .ok (before.reverse ++ value :: values) rest := by
  induction most generalizing value values before with
  | zero => exact absurd hmost (Nat.not_lt_zero _)
  | succ most ih =>
      cases values with
      | nil =>
          have hread := LawfulForm.read_write value (.bracket rest)
          rw [List.map_singleton, commaSeparated_singleton, itemsFrom, EStateM.bind_of_ok hread,
            EStateM.bind_of_ok (continues_close rfl (by decide))]
          exact congrArg (EStateM.Result.ok · rest) List.reverse_cons
      | cons next values =>
          have hread := LawfulForm.read_write value
            (.comma (commaSeparated ((next :: values).map Form.write) ++ ']' :: rest))
          have hitems := ih next values (value :: before) (Nat.lt_of_succ_lt_succ hmost)
          rw [List.map_cons, List.map_cons, commaSeparated_cons_cons, ← List.map_cons, List.append_assoc,
            List.cons_append, itemsFrom, EStateM.bind_of_ok hread, EStateM.bind_of_ok (continues_comma _)]
          rw [if_pos rfl, hitems, List.reverse_cons, List.append_assoc]
          rfl

theorem list_of_peek {β : Type} {item : TextReader β} {c : Char} {cs : List Char} (hpeek : peek cs = .ok c cs)
    (hc : c ≠ ']') : list item ('[' :: cs) = itemsFrom item cs.length [] cs := by
  rw [list, EStateM.bind_of_ok (expect_cons rfl), EStateM.bind_of_ok hpeek, if_neg hc]
  rfl

/-- The first item does not look like the end of the array. -/
theorem exists_peek_items (value : α) (values : List α) (rest : List Char) :
    ∃ c ≠ ']', peek (commaSeparated ((value :: values).map Form.write) ++ rest) =
      .ok c (commaSeparated ((value :: values).map Form.write) ++ rest) := by
  obtain ⟨c, cs, hwrite, hspace, hc⟩ := LawfulForm.starts value
  obtain ⟨more, hmore⟩ := exists_commaSeparated_eq_cons c cs (values.map Form.write)
  rw [List.map_cons, hwrite, hmore]
  exact ⟨c, hc, peek_cons hspace⟩

/-- The text has room for as many items as the reader is given to read. -/
theorem length_le_length_items (values : List α) :
    values.length ≤ (commaSeparated (values.map Form.write)).length := by
  rw [← List.length_map Form.write]
  exact length_le_length_commaSeparated (List.forall_mem_map.2 fun value _ => LawfulForm.write_ne_nil value)

instance : LawfulForm (List α) where
  read_write values rest _ := by
    cases values with
    | nil => rfl
    | cons value values =>
        obtain ⟨c, hc, hpeek⟩ := exists_peek_items value values (']' :: rest)
        have hmost : values.length <
            (commaSeparated ((value :: values).map Form.write) ++ ']' :: rest).length := by
          rw [List.length_append]
          exact Nat.lt_add_right _ (length_le_length_items (value :: values))
        change list Form.read ('[' :: (commaSeparated ((value :: values).map Form.write) ++ [']'] ++ rest)) = _
        rw [List.append_assoc, List.singleton_append, list_of_peek hpeek hc,
          itemsFrom_write value values [] hmost]
        rfl
  starts values := ⟨_, _, rfl, by decide, by decide⟩

variable {kind : Kind}

theorem string_quote {cs : List Char} (hcs : Plain cs) :
    string (quote cs ++ rest) = .ok (String.ofList cs) rest := by
  refine string_eq_ok.2 ⟨[], cs, List.forall_mem_nil _, ?_, ?_⟩
  · rw [String.toList_ofList]
    exact hcs.spellings
  · rw [quote, List.cons_append, List.append_assoc]
    rfl

theorem plain_text (value : Fixed kind) : Plain value.text.toList := by
  have hall : Plain Base58.alphabet := by decide
  exact fun c hc => hall c (Base58.exists_spells.1 ⟨_, value.spells_text⟩ c hc)

theorem read_fixed_of_string {cs : List Char} {content : String} (h : string cs = .ok content rest) :
    (Form.read : TextReader (Fixed kind)) cs = match Fixed.parse content with
      | .ok value => .ok value rest
      | .error e => .error (.text e) rest := by
  change (string >>= fun text => match Fixed.parse text with
    | .ok value => pure value
    | .error e => throw (Error.text e) : TextReader (Fixed kind)) cs = _
  rw [EStateM.bind_of_ok h]
  cases Fixed.parse content <;> rfl

/-- A fixed-width value is read from the strings that hold its text, and from nothing else. -/
theorem read_fixed_eq_ok {cs : List Char} {value : Fixed kind} :
    Form.read cs = .ok value rest ↔ StringAt cs value.text rest := by
  refine ⟨?_, ?_⟩
  · intro h
    obtain ⟨content, left, hstring, -⟩ := EStateM.bind_eq_ok.1 h
    rw [read_fixed_of_string hstring] at h
    split at h
    · next hparse =>
      cases h
      rw [Fixed.parse_eq_ok.1 hparse] at hstring
      exact string_eq_ok.1 hstring
    · cases h
  · intro h
    rw [read_fixed_of_string (string_eq_ok.2 h), Fixed.parse_text]

instance : LawfulForm (Fixed kind) where
  read_write value rest _ := by
    have hstring : string (quote value.text.toList ++ rest) = .ok (String.ofList value.text.toList) rest :=
      string_quote (plain_text value)
    rw [String.ofList_toList] at hstring
    exact read_fixed_eq_ok.2 (string_eq_ok.1 hstring)
  starts value := ⟨_, _, rfl, by decide, by decide⟩

end LedgerTx.Json
