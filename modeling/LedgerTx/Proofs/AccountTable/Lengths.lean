import LedgerTx.Proofs.AccountTable.Index

/-! What keeps instructions from being compiled against a table. Besides the size of the table this is the
first of their lengths that no compact length can say. If the table has all keys that the instructions name
there is nothing else, as no key is looked for in vain. -/

section

variable {α β ε : Type}

theorem Except.bind_eq_error {first : Except ε α} {next : α → Except ε β} {e : ε} :
    (first >>= next) = .error e ↔ first = .error e ∨ ∃ a, first = .ok a ∧ next a = .error e := by
  cases first with
  | error e' =>
      show Except.error e' = Except.error e ↔ _
      simp
  | ok a =>
      show next a = Except.error e ↔ _
      simp

theorem Except.bind_pure_eq_error {first : Except ε α} {f : α → β} {e : ε} :
    (first >>= fun a => pure (f a)) = .error e ↔ first = .error e := by
  rw [Except.bind_eq_error, or_iff_left]
  rintro ⟨a, -, ⟨⟩⟩

theorem Except.exists_eq_ok_iff {result : Except ε α} :
    (∃ a, result = .ok a) ↔ ¬∃ e, result = .error e := by
  cases result with
  | error e => simp
  | ok a => simp

end

namespace LedgerTx

variable {keys : List Pubkey} {n : Nat} {e : CompileError}

namespace CompactLength

/-- The first of some lengths that no compact length can say. -/
def firstExcess? (lengths : List Nat) : Option Nat :=
  lengths.find? fun n => limit < n

variable {lengths more : List Nat}

theorem firstExcess?_eq_none : firstExcess? lengths = none ↔ ∀ n ∈ lengths, n ≤ limit := by
  simp [firstExcess?]

theorem firstExcess?_cons :
    firstExcess? (n :: lengths) = if limit < n then some n else firstExcess? lengths := by
  by_cases h : limit < n
  · rw [firstExcess?, List.find?_cons_of_pos (by simpa using h), if_pos h]
  · rw [firstExcess?, List.find?_cons_of_neg (by simpa using h), if_neg h, firstExcess?]

theorem firstExcess?_append :
    firstExcess? (lengths ++ more) = (firstExcess? lengths).or (firstExcess? more) :=
  List.find?_append

end CompactLength

open CompactLength

theorem checkLength_of_lt (h : limit < n) : checkLength n = .error (.lengthOverflow n) :=
  if_pos h

theorem checkLength_eq_error_iff : checkLength n = .error e ↔ limit < n ∧ e = .lengthOverflow n := by
  unfold checkLength
  split_ifs with h <;> simp [h, eq_comm]

/-- What fails only for the first excess succeeds if there is none. -/
theorem exists_eq_ok_iff_firstExcess?_eq_none {α : Type} {result : Except CompileError α} {lengths : List Nat}
    (h : ∀ e, result = .error e ↔ ∃ n, firstExcess? lengths = some n ∧ e = .lengthOverflow n) :
    (∃ a, result = .ok a) ↔ firstExcess? lengths = none := by
  rw [Except.exists_eq_ok_iff, Option.eq_none_iff_forall_ne_some]
  simp only [h]
  constructor
  · intro hnone n hn
    exact hnone ⟨_, n, hn, rfl⟩
  · rintro hnone ⟨e, n, hn, -⟩
    exact hnone n hn

namespace Instruction

/-- The lengths of an instruction that compact lengths have to say, in the order in which they are checked. -/
def lengths (instruction : Instruction) : List Nat :=
  [instruction.accounts.length, instruction.data.length]

/-- The number of instructions, and then the lengths of each. -/
def allLengths (instructions : List Instruction) : List Nat :=
  instructions.length :: instructions.flatMap lengths

/-- A table has all keys that an instruction names. -/
structure NamedIn (keys : List Pubkey) (instruction : Instruction) : Prop where
  program : instruction.program ∈ keys
  accounts : ∀ account ∈ instruction.accounts, account.key ∈ keys

variable {instruction : Instruction} {instructions : List Instruction}

theorem namedIn_of_names {payer : Option Pubkey}
    (h : ∀ key, Demand.Names instructions payer key → key ∈ keys) :
    ∀ instruction ∈ instructions, instruction.NamedIn keys := by
  intro instruction hinstruction
  constructor
  · exact h _ (Or.inr ⟨instruction, hinstruction, Or.inl rfl⟩)
  · intro account haccount
    exact h _ (Or.inr ⟨instruction, hinstruction, Or.inr ⟨account, haccount, rfl⟩⟩)

theorem firstExcess?_lengths_eq_none : firstExcess? instruction.lengths = none ↔
    instruction.accounts.length ≤ limit ∧ instruction.data.length ≤ limit := by
  simp [firstExcess?_eq_none, lengths]

theorem compileWithin_of_excess (h : firstExcess? instruction.lengths = some n) :
    instruction.compileWithin keys = .error (.lengthOverflow n) := by
  rw [lengths, firstExcess?_cons] at h
  rw [compileWithin]
  by_cases haccounts : limit < instruction.accounts.length
  · rw [if_pos haccounts, Option.some.injEq] at h
    rw [checkLength_of_lt haccounts, h]
    rfl
  · rw [if_neg haccounts, firstExcess?_cons] at h
    have hdata : limit < instruction.data.length := by
      by_contra hdata
      rw [if_neg hdata] at h
      cases h
    rw [if_pos hdata, Option.some.injEq] at h
    have hfirst : checkLength instruction.accounts.length = .ok () :=
      checkLength_eq_ok.2 (Nat.not_lt.1 haccounts)
    rw [hfirst, checkLength_of_lt hdata, h]
    rfl

theorem NamedIn.exists_compileWithin (h : instruction.NamedIn keys)
    (hlengths : firstExcess? instruction.lengths = none) :
    ∃ compiled, instruction.compileWithin keys = .ok compiled := by
  obtain ⟨haccounts, hdata⟩ := firstExcess?_lengths_eq_none.1 hlengths
  have hwithin : instruction.CompilesWithin keys :=
    { accounts := haccounts
      data := hdata
      program_mem := h.program
      accounts_mem := h.accounts }
  exact hwithin.exists_compileWithin

/-- The induction is on the instructions: those before the one with the excess are compiled. -/
theorem mapM_compileWithin_of_excess (hnamed : ∀ instruction ∈ instructions, instruction.NamedIn keys)
    (h : firstExcess? (instructions.flatMap lengths) = some n) :
    instructions.mapM (compileWithin keys) = .error (.lengthOverflow n) := by
  induction instructions with
  | nil => cases h
  | cons instruction instructions ih =>
      rw [List.forall_mem_cons] at hnamed
      rw [List.flatMap_cons, firstExcess?_append] at h
      rw [List.mapM_cons, Except.bind_eq_error]
      cases hfirst : firstExcess? instruction.lengths with
      | some m =>
          rw [hfirst, Option.some_or, Option.some.injEq] at h
          rw [← h]
          exact Or.inl (compileWithin_of_excess hfirst)
      | none =>
          rw [hfirst, Option.none_or] at h
          obtain ⟨compiled, hcompiled⟩ := hnamed.1.exists_compileWithin hfirst
          exact Or.inr ⟨compiled, hcompiled, Except.bind_eq_error.2 (Or.inl (ih hnamed.2 h))⟩

theorem exists_mapM_compileWithin (hnamed : ∀ instruction ∈ instructions, instruction.NamedIn keys)
    (h : firstExcess? (instructions.flatMap lengths) = none) :
    ∃ compiled, instructions.mapM (compileWithin keys) = .ok compiled := by
  apply List.exists_mapM_eq_ok
  intro instruction hinstruction
  apply (hnamed instruction hinstruction).exists_compileWithin
  rw [firstExcess?_eq_none] at h ⊢
  intro n hn
  exact h n (List.mem_flatMap.2 ⟨instruction, hinstruction, hn⟩)

theorem mapM_compileWithin_eq_error_iff (hnamed : ∀ instruction ∈ instructions, instruction.NamedIn keys) :
    instructions.mapM (compileWithin keys) = .error e ↔
      ∃ n, firstExcess? (instructions.flatMap lengths) = some n ∧ e = .lengthOverflow n := by
  cases hexcess : firstExcess? (instructions.flatMap lengths) with
  | some n =>
      rw [mapM_compileWithin_of_excess hnamed hexcess]
      simp [eq_comm]
  | none =>
      obtain ⟨compiled, hcompiled⟩ := exists_mapM_compileWithin hnamed hexcess
      simp [hcompiled]

theorem checkTable_eq_error_iff :
    checkTable keys = .error e ↔ 256 < keys.length ∧ e = .tooManyAccountKeys keys.length := by
  unfold checkTable
  split_ifs with h <;> simp [h, eq_comm]

/-- Against a table that has all keys, instructions are refused for its size or else for a length. -/
theorem compileAll_eq_error_iff (hnamed : ∀ instruction ∈ instructions, instruction.NamedIn keys) :
    compileAll keys instructions = .error e ↔
      256 < keys.length ∧ e = .tooManyAccountKeys keys.length ∨
      keys.length ≤ 256 ∧ ∃ n, firstExcess? (allLengths instructions) = some n ∧ e = .lengthOverflow n := by
  unfold compileAll
  simp only [Except.bind_eq_error, checkTable_eq_ok, checkTable_eq_error_iff, checkLength_eq_ok,
    checkLength_eq_error_iff, exists_const, mapM_compileWithin_eq_error_iff hnamed]
  apply or_congr_right
  apply and_congr_right
  intro _
  rw [allLengths, firstExcess?_cons]
  by_cases hcount : limit < instructions.length
  · rw [if_pos hcount]
    simp [hcount, Nat.not_le.2 hcount]
  · rw [if_neg hcount]
    simp [hcount, Nat.not_lt.1 hcount]

end Instruction

end LedgerTx
