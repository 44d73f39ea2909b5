import LedgerTx.Proofs.Message.Canonical

/-! The instructions of a compiled message are the given ones, in their order. Read through the table of
the message they call the same programs with the same accounts and data, no account gets less than its
instruction asks for, and compiling one of them again, against the table as it is now, gives what the
message has. The table is laid out before any place in it is looked up, so that this rests on no key being
left out of it, and on its having at most 256. -/

namespace LedgerTx.Message

variable {instructions : List Instruction} {payer : Option Pubkey} {blockhash : Hash} {m : Message}

/-- The account at a place signs, or is written, if an instruction asks for it. -/
structure Grants (m : Message) (place : UInt8) (account : AccountMeta) : Prop where
  signer : account.signer = true → m.isSigner place.toNat = true
  writable : account.writable = true → m.isWritableIndex place.toNat = true

/-- A message has an instruction at a position, compiled against its table. -/
structure Carries (m : Message) (j : Nat) (instruction : Instruction) (compiled : CompiledInstruction) :
    Prop where
  position : m.instructions[j]? = some compiled
  program : m.programKey? j = some instruction.program
  accounts : Selects m.accountKeys compiled.accounts (instruction.accounts.map AccountMeta.key)
  data : compiled.data = instruction.data
  grants : List.Forall₂ m.Grants compiled.accounts instruction.accounts
  compileInstruction : m.compileInstruction instruction = .ok compiled

theorem compileWithin_of_compile (h : compile instructions payer blockhash = .ok m) :
    m.accountKeys.length ≤ 256 ∧
      List.Forall₂ (fun compiled instruction => instruction.compileWithin m.accountKeys = .ok compiled)
        m.instructions instructions := by
  obtain ⟨header, -, h⟩ := Except.bind_eq_ok.1 h
  obtain ⟨compiled, hcompiled, h⟩ := Except.bind_eq_ok.1 h
  cases h
  obtain ⟨htable, -, hmap⟩ := Instruction.compileAll_eq_ok.1 hcompiled
  exact ⟨htable, List.forall₂_of_mapM_eq_ok hmap⟩

/-- What the table grants is computed back from the header; it is what was demanded of the key. -/
theorem grants_of_compile (h : compile instructions payer blockhash = .ok m) {instruction : Instruction}
    (hinstruction : instruction ∈ instructions) {account : AccountMeta}
    (haccount : account ∈ instruction.accounts) {place : UInt8}
    (hplace : m.accountKeys[place.toNat]? = some account.key) : m.Grants place account := by
  have hdescribes := (compile_eq_ok h).1
  have hsorts := Layout.sorts_ofRequests (Requests.faithful_merged instructions payer)
  refine ⟨?_, ?_⟩
  · intro hsigner
    have hsigns : Demand.Signs instructions payer account.key :=
      Or.inr ⟨instruction, hinstruction, account, haccount, rfl, hsigner⟩
    exact (hdescribes.isSigner_iff hsorts hplace).2 hsigns
  · intro hwritable
    have hwrites : Demand.Writes instructions payer account.key :=
      Or.inr ⟨instruction, hinstruction, account, haccount, rfl, hwritable⟩
    exact (hdescribes.isWritableIndex_iff hsorts hplace).2 hwrites

theorem carries_of_compileWithin (h : compile instructions payer blockhash = .ok m) {j : Nat}
    {instruction : Instruction} {compiled : CompiledInstruction}
    (hinstruction : instructions[j]? = some instruction) (hcompiled : m.instructions[j]? = some compiled)
    (hwithin : instruction.compileWithin m.accountKeys = .ok compiled) :
    m.Carries j instruction compiled := by
  have htable := (compileWithin_of_compile h).1
  have hdenotes := Instruction.denotes_of_compileWithin htable hwithin
  have hplaces := List.forall₂_of_mapM_eq_ok (Instruction.compileWithin_eq_ok.1 hwithin).2.2.1
  refine ⟨hcompiled, ?_, hdenotes.accounts, hdenotes.data, ?_, ?_⟩
  · rw [programKey?, hcompiled]
    exact hdenotes.program
  · have hmem : List.Forall₂
        (fun account place => account ∈ instruction.accounts ∧ account.compile m.accountKeys = .ok place)
        instruction.accounts compiled.accounts :=
      (List.forall₂_and_left _ _).2 ⟨fun _ haccount => haccount, hplaces.flip⟩
    apply List.Forall₂.flip
    apply hmem.imp
    intro account place haccount
    have hplace := getElem?_of_tableIndex? htable (AccountMeta.compile_eq_ok.1 haccount.2)
    exact grants_of_compile h (List.mem_of_getElem? hinstruction) haccount.1 hplace
  · exact Except.bind_eq_ok.2 ⟨(), Instruction.checkTable_eq_ok.2 htable, hwithin⟩

/-- A compiled message has the given instructions and no others, in their order. -/
theorem carries_of_compile (h : compile instructions payer blockhash = .ok m) :
    m.instructions.length = instructions.length ∧
      ∀ j instruction, instructions[j]? = some instruction →
        ∃ compiled, m.Carries j instruction compiled := by
  have hpairs := (compileWithin_of_compile h).2
  refine ⟨hpairs.length_eq, ?_⟩
  intro j instruction hinstruction
  obtain ⟨compiled, hcompiled, hwithin⟩ := hpairs.exists_getElem? hinstruction
  exact ⟨compiled, carries_of_compileWithin h hinstruction hcompiled hwithin⟩

/-- The second instruction lists an account three times, asking for something else each time, and lists
its own program; there is no payer. -/
theorem carries_of_compile_repeated :
    let key (n : UInt8) : Pubkey := ⟨List.replicate 32 n, rfl⟩
    let repeated : Instruction :=
      ⟨key 6, [⟨key 3, false, true⟩, ⟨key 6, true, false⟩, ⟨key 3, true, false⟩, ⟨key 3, false, false⟩], [4]⟩
    let instructions : List Instruction := [⟨key 5, [⟨key 6, false, false⟩], []⟩, repeated]
    ∃ m, compile instructions none Fixed.zero = .ok m ∧ instructions[1]? = some repeated ∧
      m.instructions[1]? = some ⟨1, [0, 1, 0, 0], [4]⟩ ∧
      m.instructions.length = instructions.length ∧ ∃ compiled, m.Carries 1 repeated compiled := by
  refine ⟨_, rfl, rfl, rfl, And.imp_right ?_ (@carries_of_compile _ none Fixed.zero _ rfl)⟩
  exact fun hcarries => hcarries 1 _ rfl

end LedgerTx.Message
