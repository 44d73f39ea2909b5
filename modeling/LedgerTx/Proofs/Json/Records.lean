import LedgerTx.Proofs.Json.Forms

/-! Records that give back what was written. Each of a record's members stands in its text under a name that
no other member has, so that the reader finds the member that the text was written for, whichever way the
record is put together; what it has read of the object grows by that member. -/

namespace LedgerTx.Json.Record

variable {α β : Type} {rest : List Char}

/-- Texts of members take what has been read of an object from the one to the other. -/
inductive Fills (record : Record α) : record.Known → List (List Char) → record.Known → Prop where
  | nil (known : record.Known) : Fills record known [] known
  | cons {name : String} {text : List Char} {texts : List (List Char)} {known middle last : record.Known}
      {read : TextReader record.Known} (hname : Plain name.toList)
      (hmember : record.member? name known = some read)
      (hread : ∀ rest, Ends rest → read (text ++ rest) = .ok middle rest)
      (hmore : Fills record middle texts last) :
      Fills record known ((quote name.toList ++ ':' :: text) :: texts) last

/-- The members have names among those listed, and give back the value that they were written for. -/
structure Lawful (record : Record α) (names : List String) : Prop where
  lacks : ∀ name ∉ names, ∀ known, record.member? name known = none
  fills : ∀ value, ∃ known, Fills record record.nothing (record.write value) known ∧
    record.all? known = some value
  write_ne_nil : ∀ value, record.write value ≠ []

section

variable {record : Record α} {known middle last : record.Known} {text : List Char} {texts : List (List Char)}

theorem membersFrom_succ {name : String} {read : TextReader record.Known} {most : Nat}
    (hname : Plain name.toList) (hmember : record.member? name known = some read)
    (hread : read (text ++ rest) = .ok middle rest) :
    record.membersFrom (most + 1) known (quote name.toList ++ ':' :: text ++ rest) =
      (continues '\x7d' >>= fun more =>
        if more then record.membersFrom most middle else pure middle) rest := by
  have hstring : string (quote name.toList ++ ':' :: (text ++ rest)) = .ok name (':' :: (text ++ rest)) := by
    rw [string_quote hname, String.ofList_toList]
  rw [List.append_assoc, List.cons_append, Record.membersFrom, EStateM.bind_of_ok hstring,
    EStateM.bind_of_ok (expect_cons rfl), hmember]
  exact EStateM.bind_of_ok hread

theorem Fills.membersFrom {most : Nat} (h : record.Fills known (text :: texts) last)
    (hmost : texts.length < most) :
    record.membersFrom most known (commaSeparated (text :: texts) ++ '\x7d' :: rest) = .ok last rest := by
  induction most generalizing known text texts with
  | zero => exact absurd hmost (Nat.not_lt_zero _)
  | succ most ih =>
      cases h with
      | cons hname hmember hread hmore =>
          cases texts with
          | nil =>
              cases hmore
              rw [commaSeparated_singleton, membersFrom_succ hname hmember (hread _ (.brace rest)),
                EStateM.bind_of_ok (continues_close rfl (by decide))]
              rfl
          | cons next texts =>
              rw [commaSeparated_cons_cons, List.append_assoc, List.cons_append,
                membersFrom_succ hname hmember (hread _ (.comma _)), EStateM.bind_of_ok (continues_comma _)]
              exact ih hmore (Nat.lt_of_succ_lt_succ hmost)

/-- A member's text starts with the quote of its name. -/
theorem Fills.text_eq (h : record.Fills known (text :: texts) last) : ∃ cs, text = '"' :: cs := by
  cases h with
  | cons => exact ⟨_, rfl⟩

theorem Fills.ne_nil (h : record.Fills known texts last) : ∀ text ∈ texts, text ≠ [] := by
  induction h with
  | nil => exact List.forall_mem_nil _
  | cons _ _ _ _ ih => exact List.forall_mem_cons.2 ⟨List.cons_ne_nil _ _, ih⟩

theorem Fills.members (h : record.Fills record.nothing (text :: texts) last) :
    record.members ('\x7b' :: (commaSeparated (text :: texts) ++ '\x7d' :: rest)) = .ok last rest := by
  obtain ⟨cs, rfl⟩ := h.text_eq
  obtain ⟨more, hmore⟩ := exists_commaSeparated_eq_cons '"' cs texts
  have hmost : texts.length < (commaSeparated (('"' :: cs) :: texts) ++ '\x7d' :: rest).length := by
    rw [List.length_append]
    exact Nat.lt_add_right _ (length_le_length_commaSeparated h.ne_nil)
  have hpeek : peek (commaSeparated (('"' :: cs) :: texts) ++ '\x7d' :: rest) =
      .ok '"' (commaSeparated (('"' :: cs) :: texts) ++ '\x7d' :: rest) := by
    rw [hmore]
    exact peek_cons rfl
  rw [Record.members, EStateM.bind_of_ok (expect_cons rfl), EStateM.bind_of_ok hpeek, if_neg (by decide)]
  exact h.membersFrom hmost

theorem Fills.read {value : α} (h : record.Fills record.nothing texts last) (hne : texts ≠ [])
    (hall : record.all? last = some value) :
    record.read ('\x7b' :: (commaSeparated texts ++ '\x7d' :: rest)) = .ok value rest := by
  obtain ⟨text, texts, rfl⟩ := List.exists_cons_of_ne_nil hne
  rw [Record.read, EStateM.bind_of_ok (peek_cons rfl), if_neg (by decide), EStateM.bind_of_ok h.members, hall]
  rfl

end

/-- A lawful record gives back the values of a type whose parts are its members. -/
theorem Lawful.lawfulForm {record : Record α} {names : List String} (h : record.Lawful names)
    {make : α → β} {parts : β → α} (hmake : ∀ value, make (parts value) = value) :
    @LawfulForm β (record.form make parts) := by
  let _ := record.form make parts
  refine ⟨?_, fun _ => ⟨_, _, rfl, by decide, by decide⟩⟩
  intro value rest _
  obtain ⟨known, hfills, hall⟩ := h.fills (parts value)
  have hread : record.read ('\x7b' :: (commaSeparated (record.write (parts value)) ++ '\x7d' :: rest)) =
      .ok (parts value) rest := hfills.read (h.write_ne_nil _) hall
  change (make <$> record.read)
    ('\x7b' :: (commaSeparated (record.write (parts value)) ++ ['\x7d'] ++ rest)) = _
  rw [List.append_assoc, List.singleton_append, EStateM.map_of_ok make hread, hmake]

theorem Lawful.member [Form α] [LawfulForm α] {name : String} (hname : Plain name.toList) :
    (Record.member name : Record α).Lawful [name] where
  lacks other hother known := if_neg fun h => hother (List.mem_singleton.2 h)
  fills value := by
    refine ⟨some value, .cons hname (if_pos rfl) ?_ (.nil _), rfl⟩
    intro rest hrest
    exact EStateM.map_of_ok some (LawfulForm.read_write value hrest)
  write_ne_nil value := List.cons_ne_nil _ _

section

variable {a : Record α} {b : Record β} {texts : List (List Char)}

theorem Fills.append {record : Record α} {known middle last : record.Known} {more : List (List Char)}
    (h : record.Fills known texts middle) (hmore : record.Fills middle more last) :
    record.Fills known (texts ++ more) last := by
  induction h with
  | nil => exact hmore
  | cons hname hmember hread _ ih => exact .cons hname hmember hread (ih hmore)

theorem and_member?_of_eq_some {name : String} {known : a.Known} {read : TextReader a.Known} (other : b.Known)
    (h : a.member? name known = some read) :
    (a.and b).member? name (known, other) = some ((·, other) <$> read) := by
  simp only [Record.and, h]
  rfl

theorem and_member?_of_eq_none {name : String} {other : a.Known} (known : b.Known)
    (h : a.member? name other = none) :
    (a.and b).member? name (other, known) = (b.member? name known).map fun read => (other, ·) <$> read := by
  simp only [Record.and, h]
  rfl

theorem Fills.left {known last : a.Known} (h : a.Fills known texts last) (other : b.Known) :
    (a.and b).Fills (known, other) texts (last, other) := by
  induction h with
  | nil => exact .nil _
  | cons hname hmember hread _ ih =>
      exact .cons hname (and_member?_of_eq_some other hmember)
        (fun rest hrest => EStateM.map_of_ok _ (hread rest hrest)) ih

theorem Fills.right {known last : b.Known} (h : b.Fills known texts last) (other : a.Known)
    (hnames : ∀ name known read, b.member? name known = some read → a.member? name other = none) :
    (a.and b).Fills (other, known) texts (other, last) := by
  induction h with
  | nil => exact .nil _
  | @cons name _ _ known _ _ read hname hmember hread _ ih =>
      have hboth := and_member?_of_eq_none known (hnames name known read hmember)
      rw [hmember, Option.map_some] at hboth
      exact .cons hname hboth (fun rest hrest => EStateM.map_of_ok _ (hread rest hrest)) ih

theorem Lawful.and {as bs : List String} (ha : a.Lawful as) (hb : b.Lawful bs)
    (hnames : ∀ name ∈ as, name ∉ bs) : (a.and b).Lawful (as ++ bs) where
  lacks name hname known := by
    rw [List.mem_append, not_or] at hname
    refine (and_member?_of_eq_none known.2 (ha.lacks name hname.1 known.1)).trans ?_
    rw [hb.lacks name hname.2]
    rfl
  fills value := by
    obtain ⟨first, hfirst, hfirstAll⟩ := ha.fills value.1
    obtain ⟨second, hsecond, hsecondAll⟩ := hb.fills value.2
    have hlacks : ∀ name known read, b.member? name known = some read → a.member? name first = none := by
      intro name known read hmember
      refine ha.lacks name (fun hname => ?_) first
      rw [hb.lacks name (hnames name hname)] at hmember
      cases hmember
    refine ⟨(first, second), (hfirst.left b.nothing).append (hsecond.right first hlacks), ?_⟩
    change (do return (← a.all? first, ← b.all? second)) = some value
    rw [hfirstAll, hsecondAll]
    rfl
  write_ne_nil value := List.append_ne_nil_of_left_ne_nil (ha.write_ne_nil value.1) _

end

theorem Lawful.cons [Form α] [LawfulForm α] {b : Record β} {name : String} {names : List String}
    (hname : Plain name.toList ∧ name ∉ names) (hb : b.Lawful names) :
    ((Record.member name : Record α).and b).Lawful (name :: names) := by
  refine (Lawful.member hname.1).and hb ?_
  rintro _ (_ | ⟨_, hmem⟩)
  · exact hname.2
  · cases hmem

end LedgerTx.Json.Record
