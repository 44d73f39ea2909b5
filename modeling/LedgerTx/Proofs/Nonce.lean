import LedgerTx.Message
import LedgerTx.Proofs.Message.Canonical

/-! Nonces found in the messages that were built to advance them. What is looked for are places: of the program of
the first instruction, and of its first account, which has to be written. These come from compiling a call
that names keys, so the places are there, and what is left to ask is whether the nonce is written. The call
asks for that itself; it is in vain if the nonce is called as a program, by any of the instructions, and the
loader that writes programs is not there. -/

namespace LedgerTx

namespace CompiledInstruction

variable {compiled : CompiledInstruction} {keys : List Pubkey} {nonce authority : Pubkey} {i : Nat}

theorem Denotes.exists_firstAccount (h : compiled.Denotes keys (SystemProgram.advanceNonce nonce authority)) :
    ∃ i, compiled.firstAccount? = some i ∧ keys[i]? = some nonce := by
  obtain ⟨place, more, hplaces, hkey, -⟩ := h.accounts.exists_of_cons
  exact ⟨place.toNat, by rw [firstAccount?, hplaces]; rfl, hkey⟩

theorem Denotes.nonceKey?_eq (h : compiled.Denotes keys (SystemProgram.advanceNonce nonce authority)) :
    compiled.nonceKey? keys = some nonce := by
  obtain ⟨i, hfirst, hkey⟩ := h.exists_firstAccount
  rw [nonceKey?, hfirst, Option.bind_some, hkey]

theorem advancesNonce_eq_isWritable (hprogram : compiled.programKey? keys = some SystemProgram.key)
    (hdata : compiled.data = SystemProgram.advanceNonceTag) (hfirst : compiled.firstAccount? = some i)
    (isWritable : Nat → Bool) : compiled.advancesNonce keys isWritable = isWritable i := by
  have htag : SystemProgram.advanceNonceTag.isPrefixOf compiled.data = true := by
    rw [hdata]
    rfl
  have hcalled : (compiled.programKey? keys == some SystemProgram.key) = true := beq_iff_eq.2 hprogram
  rw [advancesNonce, hcalled, htag, hfirst, Bool.true_and, Bool.true_and, Option.any_some]

/-- Of a call that advances a nonce nothing is left to test but whether the nonce is written. -/
theorem Denotes.advancesNonce_eq (h : compiled.Denotes keys (SystemProgram.advanceNonce nonce authority))
    (hfirst : compiled.firstAccount? = some i) (isWritable : Nat → Bool) :
    compiled.advancesNonce keys isWritable = isWritable i :=
  advancesNonce_eq_isWritable h.program h.data hfirst isWritable

end CompiledInstruction

theorem nonceInstructionOf?_of_head {keys : List Pubkey} {instructions : List CompiledInstruction}
    {isWritable : Nat → Bool} {first : CompiledInstruction} (h : instructions.head? = some first) :
    nonceInstructionOf? keys instructions isWritable =
      if first.advancesNonce keys isWritable then some first else none := by
  rw [nonceInstructionOf?, h, Option.filter_some]

theorem Demand.writes_advanceNonce (instructions : List Instruction) (payer : Option Pubkey)
    (nonce authority : Pubkey) :
    Writes (SystemProgram.advanceNonce nonce authority :: instructions) payer nonce :=
  Or.inr ⟨_, List.mem_cons_self, _, List.mem_cons_self, rfl, rfl⟩

namespace Message

variable {instructions : List Instruction} {payer : Option Pubkey} {nonce authority : Pubkey} {m : Message}

/-- Whether a message that advances a nonce and then executes instructions writes the nonce: it is not called as a
program, or the loader that writes programs is there. -/
def WritesNonce (instructions : List Instruction) (nonce : Pubkey) (m : Message) : Prop :=
  (nonce ≠ SystemProgram.key ∧ ∀ ix ∈ instructions, ix.program ≠ nonce) ∨
    SystemProgram.upgradeableLoader ∈ m.accountKeys

instance : Decidable (WritesNonce instructions nonce m) :=
  inferInstanceAs (Decidable ((_ ∧ ∀ ix ∈ instructions, ix.program ≠ nonce) ∨ _))

theorem writesNonce_iff (authority : Pubkey) : WritesNonce instructions nonce m ↔
    ¬Demand.Calls (SystemProgram.advanceNonce nonce authority :: instructions) nonce ∨
      SystemProgram.upgradeableLoader ∈ m.accountKeys := by
  have hcalls : Demand.Calls (SystemProgram.advanceNonce nonce authority :: instructions) nonce ↔
      SystemProgram.key = nonce ∨ ∃ ix ∈ instructions, ix.program = nonce :=
    List.exists_mem_cons_iff _ _ _
  rw [WritesNonce, hcalls]
  simp only [not_or, not_exists, not_and, ne_comm, ne_eq]

theorem isWritable_iff_of_compileWithNonce (h : compileWithNonce instructions payer nonce authority = .ok m)
    {i : Nat} (hkey : m.accountKeys[i]? = some nonce) :
    m.isWritable i = true ↔ WritesNonce instructions nonce m := by
  rw [isWritable_iff_of_compile h hkey, and_iff_right (Demand.writes_advanceNonce _ _ _ _),
    writesNonce_iff authority]

/-- A message that is built to advance a nonce has the call in front, and the call names the nonce. It is found just
if the message writes the nonce, in the message itself and in the message as one of either form. -/
theorem nonceInstruction_of_compileWithNonce
    (h : compileWithNonce instructions payer nonce authority = .ok m) :
    ∃ first, m.instructions.head? = some first ∧ first.nonceKey? m.accountKeys = some nonce ∧
      m.nonceInstruction? = (if WritesNonce instructions nonce m then some first else none) ∧
      (VersionedMessage.legacy m).nonceInstruction? = m.nonceInstruction? := by
  obtain ⟨-, hdenotes⟩ := compile_eq_ok h
  obtain ⟨first, hhead, hfirst⟩ := hdenotes.exists_getElem? List.getElem?_cons_zero
  rw [← List.head?_eq_getElem?] at hhead
  obtain ⟨i, hplace, hkey⟩ := hfirst.exists_firstAccount
  refine ⟨first, hhead, hfirst.nonceKey?_eq, ?_, rfl⟩
  have hadvances : first.advancesNonce m.accountKeys m.isWritable = true ↔ WritesNonce instructions nonce m := by
    rw [hfirst.advancesNonce_eq hplace, isWritable_iff_of_compileWithNonce h hkey]
  exact (nonceInstructionOf?_of_head hhead).trans (if_congr hadvances rfl rfl)

/-- The nonce is the payer's, and is passed to another program. If it is called instead, the call that advances it is
not found, unless the loader is among the accounts. -/
theorem nonceInstruction_of_compileWithNonce_called :
    let key (n : UInt8) : Pubkey := ⟨List.replicate 32 n, rfl⟩
    let passing : List Instruction := [⟨key 5, [⟨key 9, true, false⟩], [1]⟩]
    let calling : List Instruction := [⟨key 9, [⟨key 5, false, false⟩], [1]⟩]
    let loading : List Instruction := [⟨key 9, [⟨SystemProgram.upgradeableLoader, false, false⟩], []⟩]
    let advance : CompiledInstruction := ⟨2, [0, 4, 1], SystemProgram.advanceNonceTag⟩
    let table (other : Pubkey) : List Pubkey :=
      [key 9, key 7, SystemProgram.key, other, SystemProgram.recentBlockhashes]
    let passed : Message := ⟨⟨2, 1, 3⟩, table (key 5), Fixed.zero, [advance, ⟨3, [0], [1]⟩]⟩
    let called : Message := ⟨⟨2, 1, 3⟩, table (key 5), Fixed.zero, [advance, ⟨0, [3], [1]⟩]⟩
    let loaded : Message :=
      ⟨⟨2, 1, 3⟩, table SystemProgram.upgradeableLoader, Fixed.zero, [advance, ⟨0, [3], []⟩]⟩
    (compileWithNonce passing (some (key 9)) (key 9) (key 7) = .ok passed ∧
      passed.nonceInstruction? = some advance ∧
      advance.nonceKey? passed.accountKeys = some (key 9)) ∧
    (compileWithNonce calling (some (key 9)) (key 9) (key 7) = .ok called ∧
      called.nonceInstruction? = none) ∧
    compileWithNonce loading (some (key 9)) (key 9) (key 7) = .ok loaded ∧
      loaded.nonceInstruction? = some advance := by
  intro key passing calling loading advance table passed called loaded
  have hpassed : compileWithNonce passing (some (key 9)) (key 9) (key 7) = .ok passed := by decide +kernel
  have hcalled : compileWithNonce calling (some (key 9)) (key 9) (key 7) = .ok called := by decide +kernel
  have hloaded : compileWithNonce loading (some (key 9)) (key 9) (key 7) = .ok loaded := by decide +kernel
  obtain ⟨first, hhead, hnonce, hfound, -⟩ := nonceInstruction_of_compileWithNonce hpassed
  obtain rfl : advance = first := Option.some.inj hhead
  obtain ⟨lost, -, -, hlost, -⟩ := nonceInstruction_of_compileWithNonce hcalled
  obtain ⟨first, hhead, -, hagain, -⟩ := nonceInstruction_of_compileWithNonce hloaded
  obtain rfl : advance = first := Option.some.inj hhead
  have hpasses : WritesNonce passing (key 9) passed := by decide
  have hcalls : ¬WritesNonce calling (key 9) called := by decide
  have hloads : WritesNonce loading (key 9) loaded := by decide
  exact ⟨⟨hpassed, hfound.trans (if_pos hpasses), hnonce⟩, ⟨hcalled, hlost.trans (if_neg hcalls)⟩,
    hloaded, hagain.trans (if_pos hloads)⟩

end Message

end LedgerTx
