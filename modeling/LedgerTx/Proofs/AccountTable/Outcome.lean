import LedgerTx.AccountTable
import LedgerTx.Proofs.AccountTable.Lengths

/-! What comes of one instruction against any table of keys, which need not be laid out for it: keys may be missing, and
may be there more than once. The size of the table, the two lengths, the program and the accounts are asked for in turn,
and what fails first is the reason given; of the accounts it is the first that is missing. If nothing fails, each key is
named by the first place at which the table has it. -/

section

variable {α β ε : Type}

/-- What fails first is what is reported. -/
theorem List.mapM_append_cons_eq_error {f : α → Except ε β} {before after : List α} {a : α} {e : ε}
    (hbefore : ∀ b ∈ before, ∃ c, f b = .ok c) (h : f a = .error e) :
    (before ++ a :: after).mapM f = .error e := by
  obtain ⟨cs, hcs⟩ := List.exists_mapM_eq_ok hbefore
  rw [List.mapM_append, hcs, List.mapM_cons, h]
  rfl

end

namespace LedgerTx

open CompactLength (firstExcess?)

variable {keys : List Pubkey}

namespace AccountMeta

variable {accounts : List AccountMeta} {account : AccountMeta} {places : Bytes}

theorem compile_of_not_mem (h : account.key ∉ keys) :
    account.compile keys = .error (.unknownInstructionKey account.key) := by
  rw [compile, tableIndex?_eq_none_iff.2 h]

theorem exists_compile_of_mem (h : account.key ∈ keys) : ∃ place, account.compile keys = .ok place := by
  obtain ⟨place, hplace⟩ := exists_tableIndex?_eq_some h
  exact ⟨place, compile_eq_ok.2 hplace⟩

theorem mapM_compile_eq_ok_iff (htable : keys.length ≤ 256) :
    accounts.mapM (compile keys) = .ok places ↔
      List.Forall₂ (fun place account => IsFirstPlace keys account.key place) places accounts := by
  simp only [List.mapM_eq_ok_iff_forall₂, compile_eq_ok, tableIndex?_eq_some_iff htable]

/-- The accounts that are all in the table, or those up to the first that is not. -/
theorem forall_mem_or_exists_first (keys : List Pubkey) (accounts : List AccountMeta) :
    (∀ account ∈ accounts, account.key ∈ keys) ∨
      ∃ before account after, accounts = before ++ account :: after ∧
        (∀ other ∈ before, other.key ∈ keys) ∧ account.key ∉ keys := by
  cases hfind : accounts.find? fun account => account.key ∉ keys with
  | none =>
      rw [List.find?_eq_none] at hfind
      exact Or.inl fun account haccount => by simpa using hfind account haccount
  | some account =>
      obtain ⟨hmissing, before, after, rfl, hbefore⟩ := List.find?_eq_some_iff_append.1 hfind
      refine Or.inr ⟨before, account, after, rfl, ?_, by simpa using hmissing⟩
      exact fun other hother => by simpa using hbefore other hother

end AccountMeta

/-- A compiled instruction names the program and the accounts of the given one by the first places of their keys. -/
structure CompiledInstruction.NamesFirst (keys : List Pubkey) (compiled : CompiledInstruction)
    (instruction : Instruction) : Prop where
  program : IsFirstPlace keys instruction.program compiled.program
  accounts : List.Forall₂ (fun place account => IsFirstPlace keys account.key place) compiled.accounts
    instruction.accounts
  data : compiled.data = instruction.data

theorem CompiledInstruction.NamesFirst.namedIn {compiled : CompiledInstruction} {instruction : Instruction}
    (h : compiled.NamesFirst keys instruction) : instruction.NamedIn keys := by
  refine ⟨h.program.mem, ?_⟩
  intro account haccount
  obtain ⟨place, -, hplace⟩ := h.accounts.flip.exists_of_mem_left haccount
  exact IsFirstPlace.mem hplace

namespace Instruction

variable {instruction : Instruction} {result : Except CompileError CompiledInstruction}

/-- What comes of an instruction against a table: the first reason to refuse it, or if there is none, its places. -/
inductive Outcome (keys : List Pubkey) (instruction : Instruction) :
    Except CompileError CompiledInstruction → Prop where
  | table (h : 256 < keys.length) : Outcome keys instruction (.error (.tooManyAccountKeys keys.length))
  | length {n : Nat} (htable : keys.length ≤ 256) (h : firstExcess? instruction.lengths = some n) :
      Outcome keys instruction (.error (.lengthOverflow n))
  | program (htable : keys.length ≤ 256) (hlengths : firstExcess? instruction.lengths = none)
      (h : instruction.program ∉ keys) :
      Outcome keys instruction (.error (.programIdNotFound instruction.program))
  | account {before after : List AccountMeta} {account : AccountMeta} (htable : keys.length ≤ 256)
      (hlengths : firstExcess? instruction.lengths = none) (hprogram : instruction.program ∈ keys)
      (haccounts : instruction.accounts = before ++ account :: after)
      (hbefore : ∀ other ∈ before, other.key ∈ keys) (h : account.key ∉ keys) :
      Outcome keys instruction (.error (.unknownInstructionKey account.key))
  | compiled {compiled : CompiledInstruction} (htable : keys.length ≤ 256)
      (hlengths : firstExcess? instruction.lengths = none) (h : compiled.NamesFirst keys instruction) :
      Outcome keys instruction (.ok compiled)

theorem compile_of_length_le (htable : keys.length ≤ 256) :
    instruction.compile keys = instruction.compileWithin keys := by
  have hsize : checkTable keys = .ok () := checkTable_eq_ok.2 htable
  rw [compile, hsize]
  rfl

/-- With lengths that can be said, nothing is left but to look for the keys. -/
theorem compileWithin_of_lengths (hlengths : firstExcess? instruction.lengths = none) :
    instruction.compileWithin keys =
      match tableIndex? keys instruction.program with
      | none => .error (.programIdNotFound instruction.program)
      | some program =>
        (instruction.accounts.mapM (AccountMeta.compile keys)).map fun accounts =>
          ⟨program, accounts, instruction.data⟩ := by
  obtain ⟨haccounts, hdata⟩ := firstExcess?_lengths_eq_none.1 hlengths
  have hfirst : checkLength instruction.accounts.length = .ok () := checkLength_eq_ok.2 haccounts
  have hsecond : checkLength instruction.data.length = .ok () := checkLength_eq_ok.2 hdata
  rw [compileWithin, hfirst, hsecond]
  rfl

theorem compileWithin_eq_ok_iff (htable : keys.length ≤ 256)
    (hlengths : firstExcess? instruction.lengths = none) {compiled : CompiledInstruction} :
    instruction.compileWithin keys = .ok compiled ↔ compiled.NamesFirst keys instruction := by
  rw [compileWithin_eq_ok, tableIndex?_eq_some_iff htable, AccountMeta.mapM_compile_eq_ok_iff htable,
    and_iff_right (firstExcess?_lengths_eq_none.1 hlengths)]
  exact ⟨fun h => ⟨h.1, h.2.1, h.2.2⟩, fun h => ⟨h.program, h.accounts, h.data⟩⟩

theorem NamedIn.exists_namesFirst (h : instruction.NamedIn keys) (htable : keys.length ≤ 256)
    (hlengths : firstExcess? instruction.lengths = none) :
    ∃ compiled : CompiledInstruction, compiled.NamesFirst keys instruction := by
  obtain ⟨compiled, hcompiled⟩ := h.exists_compileWithin hlengths
  exact ⟨compiled, (compileWithin_eq_ok_iff htable hlengths).1 hcompiled⟩

/-- A reason to refuse an instruction is given where all that is asked before succeeds. -/
theorem Outcome.compile_eq (h : instruction.Outcome keys result) : instruction.compile keys = result := by
  cases h with
  | table h => exact Except.bind_eq_error.2 (Or.inl (checkTable_eq_error_iff.2 ⟨h, rfl⟩))
  | length htable h => rw [compile_of_length_le htable, compileWithin_of_excess h]
  | program htable hlengths h =>
      rw [compile_of_length_le htable, compileWithin_of_lengths hlengths, tableIndex?_eq_none_iff.2 h]
  | @account _ _ account htable hlengths hprogram haccounts hbefore h =>
      obtain ⟨program, hplace⟩ := exists_tableIndex?_eq_some hprogram
      have hmissing : instruction.accounts.mapM (AccountMeta.compile keys) =
          .error (.unknownInstructionKey account.key) := by
        rw [haccounts]
        exact List.mapM_append_cons_eq_error
          (fun other hother => AccountMeta.exists_compile_of_mem (hbefore other hother))
          (AccountMeta.compile_of_not_mem h)
      rw [compile_of_length_le htable, compileWithin_of_lengths hlengths, hplace, hmissing]
      rfl
  | compiled htable hlengths h =>
      rw [compile_of_length_le htable, (compileWithin_eq_ok_iff htable hlengths).2 h]

/-- The outcomes are all there are: one of them is left whatever is answered on the way. -/
theorem exists_outcome (keys : List Pubkey) (instruction : Instruction) :
    ∃ result, instruction.Outcome keys result := by
  by_cases htable : 256 < keys.length
  · exact ⟨_, .table htable⟩
  have htable := Nat.not_lt.1 htable
  cases hlengths : firstExcess? instruction.lengths with
  | some n => exact ⟨_, .length htable hlengths⟩
  | none =>
      by_cases hprogram : instruction.program ∈ keys
      · obtain haccounts | ⟨before, account, after, haccounts, hbefore, hmissing⟩ :=
          AccountMeta.forall_mem_or_exists_first keys instruction.accounts
        · have hnamed : instruction.NamedIn keys := ⟨hprogram, haccounts⟩
          obtain ⟨compiled, hfirst⟩ := hnamed.exists_namesFirst htable hlengths
          exact ⟨_, .compiled htable hlengths hfirst⟩
        · exact ⟨_, .account htable hlengths hprogram haccounts hbefore hmissing⟩
      · exact ⟨_, .program htable hlengths hprogram⟩

theorem compile_eq_iff : instruction.compile keys = result ↔ instruction.Outcome keys result := by
  obtain ⟨found, hfound⟩ := exists_outcome keys instruction
  constructor
  · rintro rfl
    rwa [hfound.compile_eq]
  · exact Outcome.compile_eq

theorem exists_compile_iff : (∃ compiled, instruction.compile keys = .ok compiled) ↔
    keys.length ≤ 256 ∧ firstExcess? instruction.lengths = none ∧ instruction.NamedIn keys := by
  simp only [compile_eq_iff]
  constructor
  · rintro ⟨compiled, houtcome⟩
    cases houtcome with
    | compiled htable hlengths hfirst => exact ⟨htable, hlengths, hfirst.namedIn⟩
  · rintro ⟨htable, hlengths, hnamed⟩
    obtain ⟨compiled, hfirst⟩ := hnamed.exists_namesFirst htable hlengths
    exact ⟨compiled, .compiled htable hlengths hfirst⟩

end Instruction

/-- Against the table of any message, an instruction is compiled to its places or refused for the first reason there
is. It is compiled just if the table is no larger than bytes can name, its lengths can be said, and all its keys are
there. -/
theorem Message.compileInstruction_eq_iff (m : Message) (instruction : Instruction) :
    (∀ result, m.compileInstruction instruction = result ↔ instruction.Outcome m.accountKeys result) ∧
    ((∃ compiled, m.compileInstruction instruction = .ok compiled) ↔ m.accountKeys.length ≤ 256 ∧
      firstExcess? instruction.lengths = none ∧ instruction.NamedIn m.accountKeys) :=
  ⟨fun _ => Instruction.compile_eq_iff, Instruction.exists_compile_iff⟩

/-- A key that the table has twice, and two accounts that it does not have. -/
example :
    let key (n : UInt8) : Pubkey := ⟨List.replicate 32 n, rfl⟩
    let account (n : UInt8) : AccountMeta := ⟨key n, false, false⟩
    let m : Message := ⟨⟨1, 0, 0⟩, [key 1, key 2, key 1, key 3], Fixed.zero, []⟩
    m.compileInstruction ⟨key 3, [account 1, account 2, account 1], [7]⟩ = .ok ⟨3, [0, 1, 0], [7]⟩ ∧
      m.compileInstruction ⟨key 3, [account 1, account 9, account 8], []⟩ =
        .error (.unknownInstructionKey (key 9)) := by
  decide +kernel

end LedgerTx
