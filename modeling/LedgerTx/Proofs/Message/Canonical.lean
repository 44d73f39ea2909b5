import LedgerTx.AccountTable
import LedgerTx.Proofs.AccountTable.Index
import LedgerTx.Proofs.AccountTable.Layout

/-! The table of a compiled message is canonical: it depends only on which keys are demanded, and for
what. The header squeezes the layout into three counts, and what the message says of a place is computed
back from these; it agrees with what was demanded of the key there. -/

namespace LedgerTx.Message

variable {instructions : List Instruction} {payer : Option Pubkey} {blockhash : Hash} {m : Message}

/-- What the table of a message should be, for the given instructions and payer. -/
structure Canonical (instructions : List Instruction) (payer : Option Pubkey) (m : Message) : Prop where
  nodup : m.accountKeys.Nodup
  hasDuplicates : m.hasDuplicates = false
  mem_accountKeys : ∀ key, key ∈ m.accountKeys ↔ Demand.Names instructions payer key
  payer_first : ∀ p, payer = some p → m.accountKeys[0]? = some p
  categories : ∃ layout : Layout, m.accountKeys = layout.keys ∧
    layout.Sorts instructions payer ∧ layout.Ascends payer
  isSigner : ∀ i key, m.accountKeys[i]? = some key →
    (m.isSigner i = true ↔ Demand.Signs instructions payer key)
  isWritableIndex : ∀ i key, m.accountKeys[i]? = some key →
    (m.isWritableIndex i = true ↔ Demand.Writes instructions payer key)
  isWritable : ∀ i key, m.accountKeys[i]? = some key →
    (m.isWritable i = true ↔ Demand.Writes instructions payer key ∧
      (¬Demand.Calls instructions key ∨ SystemProgram.upgradeableLoader ∈ m.accountKeys))

theorem compile_eq_ok (h : compile instructions payer blockhash = .ok m) :
    (Layout.ofRequests payer (Requests.merged instructions payer)).Describes m ∧
      List.Forall₂ (CompiledInstruction.Denotes m.accountKeys) m.instructions instructions := by
  obtain ⟨header, hheader, h⟩ := Except.bind_eq_ok.1 h
  obtain ⟨compiled, hcompiled, h⟩ := Except.bind_eq_ok.1 h
  cases h
  exact ⟨⟨hheader, rfl⟩, Instruction.denotes_of_compileAll hcompiled⟩

theorem layout_keys_perm (instructions : List Instruction) (payer : Option Pubkey) :
    (Layout.ofRequests payer (Requests.merged instructions payer)).keys.Perm
      ((Requests.merged instructions payer).map Prod.fst) := by
  apply Layout.ofRequests_keys_perm (Requests.ascending_merged instructions payer)
  intro p hp
  exact Requests.mem_keys_merged.2 (Or.inl hp)

theorem accountKeys_perm (h : compile instructions payer blockhash = .ok m) :
    m.accountKeys.Perm ((Requests.merged instructions payer).map Prod.fst) := by
  rw [(compile_eq_ok h).1.keys]
  exact layout_keys_perm instructions payer

theorem nodup_accountKeys_of_compile (h : compile instructions payer blockhash = .ok m) : m.accountKeys.Nodup :=
  (accountKeys_perm h).nodup_iff.2 (Requests.ascending_merged instructions payer).nodup_keys

/-- A key is written if that is demanded, unless it is called and the loader that writes programs is not there. -/
theorem isWritable_iff_of_compile (h : compile instructions payer blockhash = .ok m) {i : Nat} {key : Pubkey}
    (hkey : m.accountKeys[i]? = some key) : m.isWritable i = true ↔ Demand.Writes instructions payer key ∧
      (¬Demand.Calls instructions key ∨ SystemProgram.upgradeableLoader ∈ m.accountKeys) := by
  obtain ⟨hdescribes, hdenotes⟩ := compile_eq_ok h
  have hsorts := Layout.sorts_ofRequests (Requests.faithful_merged instructions payer)
  rw [Message.isWritable, Bool.and_eq_true, hdescribes.isWritableIndex_iff hsorts hkey,
    not_isDemoted_iff hdenotes (nodup_accountKeys_of_compile h) hkey]

/-- What is compiled is refused only for its header or for lengths, as all keys that the instructions name
are in the table. -/
theorem exists_compile {header : Header}
    (hheader : (Layout.ofRequests payer (Requests.merged instructions payer)).header = .ok header)
    (hcount : instructions.length ≤ CompactLength.limit)
    (hlengths : ∀ ix ∈ instructions,
      ix.accounts.length ≤ CompactLength.limit ∧ ix.data.length ≤ CompactLength.limit)
    (blockhash : Hash) : ∃ m, compile instructions payer blockhash = .ok m ∧ m.header = header := by
  have hmem : ∀ {key}, Demand.Names instructions payer key →
      key ∈ (Layout.ofRequests payer (Requests.merged instructions payer)).keys := by
    intro key hnames
    exact (layout_keys_perm instructions payer).mem_iff.2 (Requests.mem_keys_merged.2 hnames)
  obtain ⟨compiled, hcompiled⟩ :=
    Instruction.exists_compileAll (Layout.header_eq_ok hheader).1 hcount fun ix hix =>
      { accounts := (hlengths ix hix).1
        data := (hlengths ix hix).2
        program_mem := hmem (Or.inr ⟨ix, hix, Or.inl rfl⟩)
        accounts_mem := fun account haccount =>
          hmem (Or.inr ⟨ix, hix, Or.inr ⟨account, haccount, rfl⟩⟩) }
  let table := (Layout.ofRequests payer (Requests.merged instructions payer)).keys
  have hcompile : compile instructions payer blockhash = .ok ⟨header, table, blockhash, compiled⟩ :=
    Except.bind_eq_ok.2 ⟨header, hheader, Except.bind_eq_ok.2 ⟨compiled, hcompiled, rfl⟩⟩
  exact ⟨_, hcompile, rfl⟩

/-- The table of a compiled message is canonical. -/
theorem canonical_of_compile (h : compile instructions payer blockhash = .ok m) :
    m.Canonical instructions payer := by
  obtain ⟨hdescribes, hdenotes⟩ := compile_eq_ok h
  have hascending := Requests.ascending_merged instructions payer
  have hperm := accountKeys_perm h
  have hnodup : m.accountKeys.Nodup := hperm.nodup_iff.2 hascending.nodup_keys
  have hsorts := Layout.sorts_ofRequests (Requests.faithful_merged instructions payer)
  have hascends := Layout.ascends_ofRequests hascending payer
  refine ⟨hnodup, ?_, ?_, ?_, ⟨_, hdescribes.keys, hsorts, hascends⟩, ?_, ?_, ?_⟩
  · rw [hasDuplicates, decide_eq_true hnodup, Bool.not_true]
  · intro key
    rw [hperm.mem_iff, Requests.mem_keys_merged]
  · intro p hp
    rw [hdescribes.keys]
    exact Layout.getElem?_keys_zero hascends hp
  · intro i key hkey
    exact hdescribes.isSigner_iff hsorts hkey
  · intro i key hkey
    exact hdescribes.isWritableIndex_iff hsorts hkey
  · intro i key hkey
    rw [Message.isWritable, Bool.and_eq_true, hdescribes.isWritableIndex_iff hsorts hkey,
      not_isDemoted_iff hdenotes hnodup hkey]

/-- Three keys are asked for more than once with different flags, and the payer is called and passed. -/
theorem canonical_of_compile_overlapping :
    let key (n : UInt8) : Pubkey := ⟨List.replicate 32 n, rfl⟩
    let instructions : List Instruction :=
      [⟨key 5, [⟨key 9, false, false⟩, ⟨key 3, false, true⟩, ⟨key 7, true, false⟩], []⟩,
        ⟨key 9, [⟨key 3, true, false⟩, ⟨key 5, false, true⟩, ⟨key 1, false, false⟩], [8]⟩]
    ∃ m, compile instructions (some (key 9)) Fixed.zero = .ok m ∧
      m.accountKeys = [key 9, key 3, key 7, key 5, key 1] ∧
      m.Canonical instructions (some (key 9)) :=
  ⟨_, rfl, rfl, canonical_of_compile rfl⟩

end LedgerTx.Message
