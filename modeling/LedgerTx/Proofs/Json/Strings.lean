import LedgerTx.Json.Reader
import LedgerTx.Proofs.Action
import Mathlib.Data.List.TakeWhile

/-! The strings that are read, as a grammar: a character stands for itself, or after a backslash for what a
letter or four hexadecimal digits name, or two such groups are the halves of one beyond 16 bits. The reader
takes a string just if the grammar has it, and says the characters that the grammar gives it. -/

namespace LedgerTx.Json

variable {cs rest spelling before content : List Char} {c : Char}

theorem afterSpace_cons (hc : isSpace c = false) : afterSpace (c :: rest) = c :: rest :=
  List.dropWhile_cons_of_neg (ne_true_of_eq_false hc)

theorem afterSpace_eq_cons (hc : isSpace c = false) : afterSpace cs = c :: rest ↔
    ∃ space, (∀ d ∈ space, isSpace d = true) ∧ cs = space ++ c :: rest := by
  refine ⟨?_, ?_⟩
  · intro h
    refine ⟨cs.takeWhile isSpace, fun _ => List.mem_takeWhile_imp, ?_⟩
    rw [← h]
    exact List.takeWhile_append_dropWhile.symm
  · rintro ⟨space, hspace, rfl⟩
    exact (List.dropWhile_append_of_pos hspace).trans (afterSpace_cons hc)

theorem skipSpace_eq (cs : List Char) : skipSpace cs = .ok ⟨⟩ (afterSpace cs) := rfl

theorem expect_eq_ok : expect c cs = .ok ⟨⟩ rest ↔ afterSpace cs = c :: rest := by
  rw [expect, EStateM.bind_of_ok (skipSpace_eq cs)]
  cases afterSpace cs with
  | nil => exact ⟨nofun, nofun⟩
  | cons d more =>
      change (if d = c then set more else throw .malformed : TextReader Unit) (d :: more) = _ ↔ _
      split
      · next hd =>
        rw [hd, List.cons.injEq, and_iff_right rfl]
        exact ⟨fun h => by cases h; rfl, by rintro rfl; rfl⟩
      · next hd => exact ⟨nofun, fun h => absurd (List.head_eq_of_cons_eq h) hd⟩

theorem expect_cons (hc : isSpace c = false) : expect c (c :: rest) = .ok ⟨⟩ rest :=
  expect_eq_ok.2 (afterSpace_cons hc)

theorem peek_cons (hc : isSpace c = false) : peek (c :: rest) = .ok c (c :: rest) := by
  rw [peek, EStateM.bind_of_ok (skipSpace_eq _), afterSpace_cons hc]
  rfl

theorem continues_comma (close : Char) : continues close (',' :: rest) = .ok true rest := by
  rw [continues, EStateM.bind_of_ok (peek_cons rfl), if_pos rfl, EStateM.bind_of_ok (expect_cons rfl)]
  rfl

theorem continues_close {close : Char} (hspace : isSpace close = false) (hcomma : close ≠ ',') :
    continues close (close :: rest) = .ok false rest := by
  rw [continues, EStateM.bind_of_ok (peek_cons hspace), if_neg hcomma,
    EStateM.bind_of_ok (expect_cons hspace)]
  rfl

/-- The character beyond 16 bits of which two units are the halves. -/
def surrogatePair (high low : Nat) : Char := Char.ofNat (0x10000 + 1024 * (high - 0xd800) + (low - 0xdc00))

/-- Characters that are read as one character of a string. -/
inductive Spelling : List Char → Char → Prop where
  | plain {c : Char} (hcontrol : 32 ≤ c.toNat) (hquote : c ≠ '"') (hbackslash : c ≠ '\\') : Spelling [c] c
  | letter {e c : Char} (hletter : escaped? e = some c) : Spelling ['\\', e] c
  | unit {x y z w : Char} {n : Nat} (hunit : hexUnit? x y z w = some n)
      (hhigh : isHighSurrogate n = false) (hlow : isLowSurrogate n = false) :
      Spelling ['\\', 'u', x, y, z, w] (Char.ofNat n)
  | pair {x y z w x' y' z' w' : Char} {h l : Nat} (hhighUnit : hexUnit? x y z w = some h)
      (hlowUnit : hexUnit? x' y' z' w' = some l) (hhigh : isHighSurrogate h = true)
      (hlow : isLowSurrogate l = true) :
      Spelling ['\\', 'u', x, y, z, w, '\\', 'u', x', y', z', w'] (surrogatePair h l)

/-- What stands between the quotes of a string with the given characters. -/
inductive Spellings : List Char → List Char → Prop where
  | nil : Spellings [] []
  | cons {spelling more cs : List Char} {c : Char} (hspelling : Spelling spelling c)
      (hmore : Spellings more cs) : Spellings (spelling ++ more) (c :: cs)

theorem stringFrom_quote : stringFrom none before ('"' :: rest) = some (before.reverse, rest) := by
  rw [stringFrom.eq_def]
  rfl

theorem stringFrom_unit {x y z w : Char} {n : Nat} (hunit : hexUnit? x y z w = some n)
    (hhigh : isHighSurrogate n = false) (hlow : isLowSurrogate n = false) :
    stringFrom none before ('\\' :: 'u' :: x :: y :: z :: w :: rest) =
      stringFrom none (Char.ofNat n :: before) rest := by
  rw [stringFrom.eq_4 _ _ _ _ _ _ _ n hunit, if_pos rfl, hhigh, hlow]
  rfl

theorem stringFrom_high {x y z w : Char} {h : Nat} (hunit : hexUnit? x y z w = some h)
    (hhigh : isHighSurrogate h = true) :
    stringFrom none before ('\\' :: 'u' :: x :: y :: z :: w :: rest) = stringFrom (some h) before rest := by
  rw [stringFrom.eq_4 _ _ _ _ _ _ _ h hunit, if_pos rfl, if_pos hhigh]

theorem stringFrom_low {x y z w : Char} {h l : Nat} (hunit : hexUnit? x y z w = some l)
    (hlow : isLowSurrogate l = true) :
    stringFrom (some h) before ('\\' :: 'u' :: x :: y :: z :: w :: rest) =
      stringFrom none (surrogatePair h l :: before) rest := by
  rw [stringFrom.eq_3 _ _ _ _ _ _ _ l h hunit, if_pos rfl, if_pos hlow]
  rfl

theorem stringFrom_letter {e : Char} (hletter : escaped? e = some c) :
    stringFrom none before ('\\' :: e :: rest) = stringFrom none (c :: before) rest := by
  have hu : e ≠ 'u' := by
    rintro rfl
    cases hletter
  rw [stringFrom.eq_5 _ _ _ _ c (fun _ _ _ _ _ he => absurd he hu) hletter, if_pos rfl]

theorem stringFrom_plain (hcontrol : 32 ≤ c.toNat) (hquote : c ≠ '"') (hbackslash : c ≠ '\\') :
    stringFrom none before (c :: rest) = stringFrom none (c :: before) rest := by
  rw [stringFrom.eq_def]
  simp only [if_neg hbackslash, if_neg hquote, Option.isSome_none, Bool.false_or, decide_eq_true_iff,
    if_neg (Nat.not_lt.2 hcontrol)]

theorem stringFrom_spelling (h : Spelling spelling c) :
    stringFrom none before (spelling ++ rest) = stringFrom none (c :: before) rest := by
  cases h with
  | plain hcontrol hquote hbackslash => exact stringFrom_plain hcontrol hquote hbackslash
  | letter hletter => exact stringFrom_letter hletter
  | unit hunit hhigh hlow => exact stringFrom_unit hunit hhigh hlow
  | pair hhighUnit hlowUnit hhigh hlow =>
      exact (stringFrom_high hhighUnit hhigh).trans (stringFrom_low hlowUnit hlow)

theorem stringFrom_spellings (h : Spellings spelling cs) :
    stringFrom none before (spelling ++ '"' :: rest) = some (before.reverse ++ cs, rest) := by
  induction h generalizing before with
  | nil => rw [List.nil_append, stringFrom_quote, List.append_nil]
  | @cons _ _ _ c hspelling _ ih =>
      rw [List.append_assoc, stringFrom_spelling hspelling, ih, List.reverse_cons, List.append_assoc]
      rfl

/-- After a first half comes a second one. -/
theorem stringFrom_some_eq_some {high : Nat} (h : stringFrom (some high) before cs = some (content, rest)) :
    ∃ x y z w low more, cs = '\\' :: 'u' :: x :: y :: z :: w :: more ∧ hexUnit? x y z w = some low ∧
      isLowSurrogate low = true ∧
      stringFrom none (surrogatePair high low :: before) more = some (content, rest) := by
  rw [stringFrom.eq_def] at h
  split at h
  · cases h
  · next c tail =>
    split at h
    · next hbackslash =>
      subst hbackslash
      split at h
      · next x y z w more =>
        cases hunit : hexUnit? x y z w with
        | none =>
            rw [hunit] at h
            cases h
        | some low =>
            simp only [hunit, Option.ite_none_right_eq_some] at h
            exact ⟨x, y, z, w, low, more, rfl, hunit, h.1, h.2⟩
      · split at h
        · next hnone => cases hnone
        · cases h
      · cases h
    · rw [Option.isSome_some, Bool.true_or, if_pos rfl] at h
      cases h

theorem stringFrom_group_eq_some {x y z w : Char}
    (h : stringFrom none before ('\\' :: 'u' :: x :: y :: z :: w :: cs) = some (content, rest)) :
    ∃ spelling c more, Spelling spelling c ∧ '\\' :: 'u' :: x :: y :: z :: w :: cs = spelling ++ more ∧
      stringFrom none (c :: before) more = some (content, rest) := by
  cases hunit : hexUnit? x y z w with
  | none =>
      rw [stringFrom.eq_2 _ _ _ _ _ _ _ _ hunit, if_pos rfl] at h
      cases h
  | some n =>
      rw [stringFrom.eq_4 _ _ _ _ _ _ _ n hunit, if_pos rfl] at h
      split at h
      · next hhigh =>
        obtain ⟨x', y', z', w', low, more, rfl, hlowUnit, hlow, hmore⟩ := stringFrom_some_eq_some h
        exact ⟨_, _, more, .pair hunit hlowUnit hhigh hlow, rfl, hmore⟩
      · next hhigh =>
        obtain ⟨hlow, hmore⟩ := Option.ite_none_left_eq_some.1 h
        exact ⟨_, _, cs, .unit hunit (eq_false_of_ne_true hhigh) (eq_false_of_ne_true hlow), rfl, hmore⟩

/-- A string ends with its quote, or else starts with a spelled character. -/
theorem stringFrom_none_eq_some (h : stringFrom none before cs = some (content, rest)) :
    (cs = '"' :: rest ∧ content = before.reverse) ∨
      ∃ spelling c more, Spelling spelling c ∧ cs = spelling ++ more ∧
        stringFrom none (c :: before) more = some (content, rest) := by
  have hcases := h
  rw [stringFrom.eq_def] at hcases
  split at hcases
  · cases hcases
  · next c tail =>
    split at hcases
    · next hbackslash =>
      subst hbackslash
      right
      split at hcases
      · exact stringFrom_group_eq_some h
      · next e more _ =>
        split at hcases
        · next d hletter _ => exact ⟨_, d, more, .letter hletter, rfl, hcases⟩
        · cases hcases
      · cases hcases
    · next hbackslash =>
      rw [Option.isSome_none, Bool.false_or, Option.ite_none_left_eq_some, decide_eq_true_iff] at hcases
      obtain ⟨hcontrol, hcases⟩ := hcases
      split at hcases
      · next hquote =>
        cases hcases
        exact Or.inl ⟨by rw [hquote], rfl⟩
      · next hquote =>
        exact Or.inr ⟨[c], c, tail, .plain (Nat.not_lt.1 hcontrol) hquote hbackslash, rfl, hcases⟩

theorem Spelling.ne_nil (h : Spelling spelling c) : spelling ≠ [] := by
  cases h <;> exact List.cons_ne_nil _ _

theorem exists_spellings (h : stringFrom none before cs = some (content, rest)) :
    ∃ spelling chars, Spellings spelling chars ∧ cs = spelling ++ '"' :: rest ∧
      content = before.reverse ++ chars := by
  induction hlength : cs.length using Nat.strongRecOn generalizing cs before with
  | ind length ih =>
      rcases stringFrom_none_eq_some h with ⟨rfl, rfl⟩ | ⟨spelling, c, more, hspelling, rfl, hmore⟩
      · exact ⟨[], [], .nil, rfl, (List.append_nil _).symm⟩
      · have hlt : more.length < length := by
          rw [← hlength, List.length_append]
          exact Nat.lt_add_of_pos_left (List.length_pos_iff.2 hspelling.ne_nil)
        obtain ⟨spellings, chars, hspellings, rfl, rfl⟩ := ih _ hlt hmore rfl
        refine ⟨spelling ++ spellings, c :: chars, .cons hspelling hspellings, ?_, ?_⟩
        · rw [List.append_assoc]
        · rw [List.reverse_cons, List.append_assoc]
          rfl

theorem stringFrom_eq_some : stringFrom none [] cs = some (content, rest) ↔
    ∃ spelling, Spellings spelling content ∧ cs = spelling ++ '"' :: rest := by
  refine ⟨?_, ?_⟩
  · intro h
    obtain ⟨spelling, _, hspellings, rfl, rfl⟩ := exists_spellings h
    exact ⟨spelling, hspellings, rfl⟩
  · rintro ⟨spelling, hspellings, rfl⟩
    exact stringFrom_spellings hspellings

/-- A text starts with a string, of the given content, and has the given rest after it. -/
def StringAt (cs : List Char) (content : String) (rest : List Char) : Prop :=
  ∃ space spelling, (∀ c ∈ space, isSpace c = true) ∧ Spellings spelling content.toList ∧
    cs = space ++ '"' :: (spelling ++ '"' :: rest)

theorem string_of_afterSpace {inner : List Char} (h : afterSpace cs = '"' :: inner) :
    string cs = match stringFrom none [] inner with
      | some (content, rest) => .ok (String.ofList content) rest
      | none => .error .malformed inner := by
  rw [string, EStateM.bind_of_ok (expect_eq_ok.2 h)]
  change (match stringFrom none [] inner with
    | some (content, rest) => (do
      set rest
      return String.ofList content : TextReader String)
    | none => throw Error.malformed) inner = _
  cases stringFrom none [] inner <;> rfl

/-- The reader of strings takes what the grammar has, and nothing else. -/
theorem string_eq_ok {content : String} : string cs = .ok content rest ↔ StringAt cs content rest := by
  refine ⟨?_, ?_⟩
  · intro h
    obtain ⟨inner, hexpect, -⟩ := EStateM.bind_unit_eq_ok.1 h
    have hquote := expect_eq_ok.1 hexpect
    rw [string_of_afterSpace hquote] at h
    split at h
    · next chars left hstring =>
      cases h
      obtain ⟨spelling, hspellings, rfl⟩ := stringFrom_eq_some.1 hstring
      obtain ⟨space, hspace, rfl⟩ := (afterSpace_eq_cons rfl).1 hquote
      exact ⟨space, spelling, hspace, by rwa [String.toList_ofList], rfl⟩
    · cases h
  · rintro ⟨space, spelling, hspace, hspellings, rfl⟩
    rw [string_of_afterSpace ((afterSpace_eq_cons rfl).2 ⟨space, hspace, rfl⟩),
      stringFrom_eq_some.2 ⟨spelling, hspellings, rfl⟩]
    exact congrArg (EStateM.Result.ok · rest) String.ofList_toList

theorem StringAt.unique {content other : String} {left : List Char} (h : StringAt cs content rest)
    (hother : StringAt cs other left) : content = other ∧ rest = left := by
  have heq := (string_eq_ok.2 h).symm.trans (string_eq_ok.2 hother)
  cases heq
  exact ⟨rfl, rfl⟩

/-- Nothing has to be escaped to write these characters in a string. -/
def Plain (cs : List Char) : Prop := ∀ c ∈ cs, 32 ≤ c.toNat ∧ c ≠ '"' ∧ c ≠ '\\'

instance (cs : List Char) : Decidable (Plain cs) := List.decidableBAll _ cs

theorem Plain.spellings (h : Plain cs) : Spellings cs cs := by
  induction cs with
  | nil => exact .nil
  | cons c cs ih =>
      obtain ⟨⟨hcontrol, hquote, hbackslash⟩, hcs⟩ := List.forall_mem_cons.1 h
      exact .cons (.plain hcontrol hquote hbackslash) (ih hcs)

end LedgerTx.Json
