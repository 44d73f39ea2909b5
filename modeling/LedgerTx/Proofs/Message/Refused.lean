import LedgerTx.Proofs.AccountTable.Counts
import LedgerTx.Proofs.AccountTable.Lengths
import LedgerTx.Proofs.Message.Canonical

/-! When instructions are not compiled, and why. The size of the table, the counts of the header and the
lengths are tested in three places, on what requests were merged into; together they come to two questions
about what is demanded: whether it exceeds a table, and whether a length is in excess. All keys that are
looked up are in the table, as it is laid out for them. -/

namespace LedgerTx

open CompactLength (firstExcess?)

variable {instructions : List Instruction} {payer : Option Pubkey} {blockhash : Hash} {e : CompileError}

/-- The reason for which instructions are refused: too many keys, all of which are counted, or else the first
length in excess. -/
inductive Demand.Refused (instructions : List Instruction) (payer : Option Pubkey) : CompileError → Prop where
  | table (h : ExceedsTable instructions payer) :
      Refused instructions payer (.tooManyAccountKeys (keyCount instructions payer))
  | length {n : Nat} (h : ¬ExceedsTable instructions payer)
      (hn : firstExcess? (Instruction.allLengths instructions) = some n) :
      Refused instructions payer (.lengthOverflow n)

namespace Message

theorem mem_layout_keys {key : Pubkey} :
    key ∈ (Layout.ofRequests payer (Requests.merged instructions payer)).keys ↔
      Demand.Names instructions payer key := by
  rw [(layout_keys_perm instructions payer).mem_iff, Requests.mem_keys_merged]

/-- The layout is refused for what is demanded, as it holds each key once and in its category. -/
theorem layout_header_eq_error_iff :
    (Layout.ofRequests payer (Requests.merged instructions payer)).header = .error e ↔
      Demand.ExceedsTable instructions payer ∧
        e = .tooManyAccountKeys (Demand.keyCount instructions payer) := by
  have hperm := layout_keys_perm instructions payer
  have hsorts := Layout.sorts_ofRequests (Requests.faithful_merged instructions payer)
  have hnodup := hperm.nodup_iff.2 (Requests.ascending_merged instructions payer).nodup_keys
  have hsigners := hsorts.signerCount_eq hnodup fun key hsigns => mem_layout_keys.2 hsigns.names
  rw [Layout.header_eq_error_iff, ← Demand.keyCount_eq_length hperm, hsigners,
    hsorts.length_readonlyOthers_eq hnodup fun key => mem_layout_keys]
  rfl

theorem compile_of_exceedsTable (h : Demand.ExceedsTable instructions payer) :
    compile instructions payer blockhash =
      .error (.tooManyAccountKeys (Demand.keyCount instructions payer)) :=
  Except.bind_eq_error.2 (Or.inl (layout_header_eq_error_iff.2 ⟨h, rfl⟩))

/-- In a table that is large enough nothing but a length is refused. -/
theorem compile_eq_error_iff_of_not_exceedsTable (h : ¬Demand.ExceedsTable instructions payer) :
    compile instructions payer blockhash = .error e ↔
      ∃ n, firstExcess? (Instruction.allLengths instructions) = some n ∧ e = .lengthOverflow n := by
  obtain ⟨header, hheader⟩ :
      ∃ header, (Layout.ofRequests payer (Requests.merged instructions payer)).header = .ok header := by
    rw [Except.exists_eq_ok_iff]
    rintro ⟨e, herror⟩
    exact h (layout_header_eq_error_iff.1 herror).1
  have hnamed : ∀ instruction ∈ instructions, instruction.NamedIn
      (Layout.ofRequests payer (Requests.merged instructions payer)).keys :=
    Instruction.namedIn_of_names fun _ hnames => mem_layout_keys.2 hnames
  have hlarge : ¬256 < (Layout.ofRequests payer (Requests.merged instructions payer)).keys.length :=
    Nat.not_lt.2 (Layout.header_eq_ok hheader).1
  rw [compile, hheader]
  change (Instruction.compileAll _ instructions >>= _) = _ ↔ _
  rw [Except.bind_pure_eq_error, Instruction.compileAll_eq_error_iff hnamed, or_iff_right fun h => hlarge h.1,
    and_iff_right (Nat.not_lt.1 hlarge)]

theorem compile_eq_error_iff :
    compile instructions payer blockhash = .error e ↔ Demand.Refused instructions payer e := by
  by_cases hexceeds : Demand.ExceedsTable instructions payer
  · rw [compile_of_exceedsTable hexceeds, Except.error.injEq]
    constructor
    · rintro rfl
      exact .table hexceeds
    · rintro (- | ⟨hfits, -⟩)
      · rfl
      · exact absurd hexceeds hfits
  · rw [compile_eq_error_iff_of_not_exceedsTable hexceeds]
    constructor
    · rintro ⟨n, hn, rfl⟩
      exact .length hexceeds hn
    · rintro (hlarge | ⟨-, hn⟩)
      · exact absurd hlarge hexceeds
      · exact ⟨_, hn, rfl⟩

theorem exists_compile_iff :
    (∃ m, compile instructions payer blockhash = .ok m) ↔ ¬Demand.ExceedsTable instructions payer ∧
      firstExcess? (Instruction.allLengths instructions) = none := by
  by_cases hexceeds : Demand.ExceedsTable instructions payer
  · refine iff_of_false ?_ fun h => h.1 hexceeds
    rintro ⟨m, hcompile⟩
    rw [compile_of_exceedsTable hexceeds] at hcompile
    cases hcompile
  · rw [and_iff_right hexceeds]
    exact exists_eq_ok_iff_firstExcess?_eq_none fun _ => compile_eq_error_iff_of_not_exceedsTable hexceeds

/-- Instructions are refused for what is demanded of keys and for their lengths, and otherwise compiled. It is
never the reason that a key is not in the table. -/
theorem compile_refused_iff :
    (∀ e, compile instructions payer blockhash = .error e ↔ Demand.Refused instructions payer e) ∧
    ((∃ m, compile instructions payer blockhash = .ok m) ↔ ¬Demand.ExceedsTable instructions payer ∧
      firstExcess? (Instruction.allLengths instructions) = none) ∧
    ∀ key, compile instructions payer blockhash ≠ .error (.programIdNotFound key) ∧
      compile instructions payer blockhash ≠ .error (.unknownInstructionKey key) := by
  refine ⟨fun e => compile_eq_error_iff, exists_compile_iff, ?_⟩
  intro key
  simp only [Ne, compile_eq_error_iff]
  exact ⟨nofun, nofun⟩

end Message

end LedgerTx
