import LedgerTx.Proofs.AccountTable.Index
import LedgerTx.Proofs.Message.Sane

/-! Programs asked for by their keys and by their places. The first way looks through the keys of the programs called.
Instructions whose program is not in the table have no key among them, so that positions need not be those of
instructions, and places with the same key are taken for one another. In a message that holds together every program is
in the table, and if no key is there twice, a program has the key at a place just if it has that place. Then both ways
give the same answers, also for places that no byte can name. -/

namespace LedgerTx

namespace CompiledInstruction

variable {keys : List Pubkey} {key : Pubkey} {i : Nat}

theorem programKey?_of_lt {ix : CompiledInstruction} (h : ix.program.toNat < keys.length) :
    ix.programKey? keys = some keys[ix.program.toNat] :=
  List.getElem?_eq_getElem h

/-- The induction is on the instructions: as each has a key, none is left out, and positions among the keys are
positions among the instructions. -/
theorem idxOf?_programKeys (hnodup : keys.Nodup) (hkey : keys[i]? = some key) {instructions : List CompiledInstruction}
    (hprograms : ∀ ix ∈ instructions, ix.program.toNat < keys.length) :
    (instructions.filterMap fun ix => ix.programKey? keys).idxOf? key =
      instructions.findIdx? fun ix => ix.program.toNat == i := by
  induction instructions with
  | nil => rfl
  | cons ix instructions ih =>
      rw [List.forall_mem_cons] at hprograms
      obtain ⟨hprogram, hrest⟩ := hprograms
      have hsame : (keys[ix.program.toNat] == key) = (ix.program.toNat == i) := by
        rw [Bool.eq_iff_iff, beq_iff_eq, beq_iff_eq, ← List.getElem?_inj hprogram hnodup, hkey,
          List.getElem?_eq_getElem hprogram, Option.some.injEq]
      have hkeys : ((ix :: instructions).filterMap fun ix => ix.programKey? keys) =
          keys[ix.program.toNat] :: instructions.filterMap fun ix => ix.programKey? keys :=
        List.filterMap_cons_some (programKey?_of_lt hprogram)
      rw [hkeys, List.idxOf?_cons, List.findIdx?_cons, hsame, ih hrest]

end CompiledInstruction

namespace Message

variable {m : Message} {i : Nat}

theorem hasDuplicates_eq_false_iff : m.hasDuplicates = false ↔ m.accountKeys.Nodup := by
  simp [hasDuplicates]

theorem program_toNat_lt_of_sanitize (h : m.sanitize = .ok ()) :
    ∀ ix ∈ m.instructions, ix.program.toNat < m.accountKeys.length := by
  intro ix hix
  obtain ⟨-, hinstructions⟩ := sanitize_eq_ok.1 h
  exact (CompiledInstruction.isWithin_iff.1 (hinstructions ix hix)).2.1

/-- Behind the table there is neither a key to look for nor a program. -/
theorem programPosition?_eq_findIdx? (hnodup : m.accountKeys.Nodup)
    (hprograms : ∀ ix ∈ m.instructions, ix.program.toNat < m.accountKeys.length) :
    m.programPosition? i = m.instructions.findIdx? fun ix => ix.program.toNat == i := by
  cases hkey : m.accountKeys[i]? with
  | some key =>
      rw [programPosition?, hkey, Option.bind_some]
      exact CompiledInstruction.idxOf?_programKeys hnodup hkey hprograms
  | none =>
      have hi := List.getElem?_eq_none_iff.1 hkey
      rw [programPosition?, hkey, Option.bind_none, eq_comm, List.findIdx?_eq_none_iff]
      intro ix hix
      have hprogram := hprograms ix hix
      simp only [beq_eq_false_iff_ne]
      omega

theorem findIdx?_program_eq_some_iff {p : Nat} :
    (m.instructions.findIdx? fun ix => ix.program.toNat == i) = some p ↔
      IsLeast {j | m.programIndex? j = some i} p := by
  rw [List.findIdx?_eq_some_iff_isLeast]
  simp only [programIndex?, Option.map_eq_some_iff, beq_iff_eq]

/-- In a message that holds together and has no key twice, the position of the account at a place is the first
instruction that calls it. There is a position just if some instruction does, and if then none passes the account, it
may be a loader. -/
theorem programQueries_of_sanitize (h : m.sanitize = .ok ()) (hnodup : m.hasDuplicates = false) (i : Nat) :
    (∀ p, m.programPosition? i = some p ↔ IsLeast {j | m.programIndex? j = some i} p) ∧
    (m.maybeExecutable i = true ↔ m.isCalled i = true) ∧
    (m.isNonLoader i = false ↔
      (∃ p, m.programPosition? i = some p) ∧
        ¬∃ ix ∈ m.instructions, ∃ account ∈ ix.accounts, account.toNat = i) := by
  have hposition := programPosition?_eq_findIdx? (i := i) (hasDuplicates_eq_false_iff.1 hnodup)
    (program_toNat_lt_of_sanitize h)
  have hcalled : (m.programPosition? i).isSome = m.isCalled i := by
    rw [hposition, List.findIdx?_isSome, isCalled]
  refine ⟨?_, ?_, ?_⟩
  · intro p
    rw [hposition, findIdx?_program_eq_some_iff]
  · rw [maybeExecutable, hcalled]
  · rw [isNonLoader_eq_false_iff, isPassed_iff, ← Option.isSome_iff_exists, hcalled]

/-- The first and the last instruction call the same program, which is passed to the one between them. The program of
that one is passed to none. -/
theorem programQueries_of_sanitize_between :
    let key (n : UInt8) : Pubkey := ⟨List.replicate 32 n, rfl⟩
    let m : Message :=
      ⟨⟨1, 0, 2⟩, [key 1, key 2, key 3, key 4], Fixed.zero, [⟨3, [0], [5]⟩, ⟨2, [3, 1], []⟩, ⟨3, [], []⟩]⟩
    (m.sanitize = .ok () ∧ m.hasDuplicates = false) ∧
      (IsLeast {j | m.programIndex? j = some 3} 0 ∧ m.isNonLoader 3 = true) ∧
      (IsLeast {j | m.programIndex? j = some 2} 1 ∧ m.isNonLoader 2 = false) ∧
      m.maybeExecutable 300 = false := by
  intro key m
  have hsane : m.sanitize = .ok () := rfl
  have hnodup : m.hasDuplicates = false := by decide
  obtain ⟨hrepeated, -, hpassed⟩ := programQueries_of_sanitize hsane hnodup 3
  obtain ⟨hbetween, -, hloader⟩ := programQueries_of_sanitize hsane hnodup 2
  obtain ⟨-, hbeyond, -⟩ := programQueries_of_sanitize hsane hnodup 300
  refine ⟨⟨hsane, hnodup⟩, ⟨(hrepeated 0).1 (by decide), ?_⟩, ⟨(hbetween 1).1 (by decide), ?_⟩, ?_⟩
  · rw [← Bool.not_eq_false, hpassed]
    exact fun h => h.2 (by decide)
  · exact hloader.2 ⟨⟨1, by decide⟩, by decide⟩
  · rw [← Bool.not_eq_true, hbeyond]
    decide

end Message

end LedgerTx
