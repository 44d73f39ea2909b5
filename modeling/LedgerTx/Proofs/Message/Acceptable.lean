import LedgerTx.Proofs.Message.Canonical
import LedgerTx.Proofs.Message.Loading
import LedgerTx.Proofs.Message.Sane

/-! Which compiled messages hold together. Their counts fit their tables and their places are taken, so that two
questions are left: whether the first account signs and is written, and whether it is called. A payer comes
first, signs and is written, but nothing keeps an instruction from calling it. Without a payer, the first
account signs and is written if any account does both. -/

namespace LedgerTx

variable {instructions : List Instruction} {key : Pubkey} {blockhash : Hash}

/-- If the counts fit the table, some signer is written just if the first account is one. -/
theorem Message.headerFits_iff_first {m : Message}
    (h : m.required + m.header.readonlyUnsigned.toNat ≤ m.accountKeys.length) :
    m.HeaderFits ↔ m.isSigner 0 = true ∧ m.isWritableIndex 0 = true := by
  constructor
  · intro hfits
    exact ⟨hfits.isSigner_zero, hfits.isWritableIndex_zero⟩
  · rintro ⟨hsigner, hwritable⟩
    rw [isSigner_iff] at hsigner
    rw [isWritableIndex_iff] at hwritable
    exact ⟨h, by omega⟩

theorem Layout.Describes.headerFits_iff {layout : Layout} {payer : Option Pubkey} {m : Message}
    (h : layout.Describes m) (hsorts : layout.Sorts instructions payer)
    (hkey : m.accountKeys[0]? = some key) :
    m.HeaderFits ↔ Demand.Signs instructions payer key ∧ Demand.Writes instructions payer key := by
  rw [Message.headerFits_iff_first h.counts_le, h.isSigner_iff hsorts hkey,
    h.isWritableIndex_iff hsorts hkey]

/-- The places in compiled instructions are those of keys that are there, so that only a call of the first
account can be refused. -/
theorem CompiledInstruction.forall_isWithin_iff {keys : List Pubkey} {compiled : List CompiledInstruction}
    {programs : Nat} (h : List.Forall₂ (Denotes keys) compiled instructions) (hnodup : keys.Nodup)
    (hkey : keys[0]? = some key) (hprograms : ∀ ix ∈ compiled, ix.program.toNat < programs) :
    (∀ ix ∈ compiled, ix.isWithin programs keys.length = true) ↔ ¬Demand.Calls instructions key := by
  rw [← any_program_iff h hnodup hkey, Bool.not_eq_true, List.any_eq_false]
  apply forall₂_congr
  intro ix hix
  obtain ⟨instruction, -, hdenotes⟩ := h.exists_of_mem_left hix
  have haccounts : ∀ account ∈ ix.accounts, account.toNat < keys.length :=
    fun _ haccount => hdenotes.accounts.lt_length haccount
  rw [isWithin_iff, and_iff_left ⟨hprograms ix hix, haccounts⟩, beq_iff_eq]

theorem Message.sanitize_of_compile_iff {payer : Option Pubkey} {m : Message}
    (h : compile instructions payer blockhash = .ok m) (hkey : m.accountKeys[0]? = some key) :
    m.sanitize = .ok () ↔
      (Demand.Signs instructions payer key ∧ Demand.Writes instructions payer key) ∧
        ¬Demand.Calls instructions key := by
  obtain ⟨hdescribes, hdenotes⟩ := compile_eq_ok h
  have hsorts := Layout.sorts_ofRequests (Requests.faithful_merged instructions payer)
  have hnodup := nodup_accountKeys_of_compile h
  have hprograms : ∀ ix ∈ m.instructions, ix.program.toNat < m.accountKeys.length := by
    intro ix hix
    obtain ⟨instruction, -, hone⟩ := hdenotes.exists_of_mem_left hix
    exact (List.getElem?_eq_some_iff.1 hone.program).1
  rw [sanitize_eq_ok, hdescribes.headerFits_iff hsorts hkey,
    CompiledInstruction.forall_isWithin_iff hdenotes hnodup hkey hprograms]

/-- A key that comes first is the payer's, if there is a payer. -/
theorem Message.first_signs_and_writes_iff {payer : Option Pubkey} {m : Message}
    (h : compile instructions payer blockhash = .ok m) (hkey : m.accountKeys[0]? = some key) :
    Demand.Signs instructions payer key ∧ Demand.Writes instructions payer key ↔
      payer = some key ∨
        payer = none ∧ Demand.Signs instructions none key ∧ Demand.Writes instructions none key := by
  cases payer with
  | none => simp only [reduceCtorEq, false_or, true_and]
  | some p =>
      have hascends := Layout.ascends_ofRequests (Requests.ascending_merged instructions (some p)) (some p)
      rw [(compile_eq_ok h).1.keys, Layout.getElem?_keys_zero hascends rfl] at hkey
      exact iff_of_true ⟨Or.inl hkey, Or.inl hkey⟩ (Or.inl hkey)

theorem V0Message.sanitize_of_compile_iff {payer : Pubkey} {tables : List LookupTable} {m : V0Message}
    (h : compile payer instructions tables blockhash = .ok m) :
    m.sanitize = .ok () ↔ ¬Demand.Calls instructions payer := by
  obtain ⟨taken, left, hassembled⟩ := assembled_of_compile h
  have hsorts := Layout.sorts_ofRequests hassembled.drained.faithful_left
  have hascends := Layout.ascends_ofRequests hassembled.drained.ascending_left (some payer)
  have hfirst : m.accountKeys[0]? = some payer := by
    rw [hassembled.describes.keys]
    exact Layout.getElem?_keys_zero hascends rfl
  have hkey : (m.accountKeys ++ (LoadedAddresses.ofTaken taken).keys)[0]? = some payer := by
    rw [List.getElem?_append_left (List.getElem?_eq_some_iff.1 hfirst).1, hfirst]
  have hfits : m.HeaderFits :=
    (hassembled.describes.headerFits_iff hsorts hfirst).2 ⟨Or.inl rfl, Or.inl rfl⟩
  rw [sanitize_eq_ok, and_iff_right hfits, and_iff_right fun _ => length_pos_of_mem_lookups h,
    and_iff_right (accountCount_le_of_compile h), hassembled.accountCount_eq]
  exact CompiledInstruction.forall_isWithin_iff hassembled.denotes hassembled.nodup_keys hkey
    fun _ => hassembled.program_toNat_lt

/-- A compiled message holds together just if its first account is the payer, or else signs and is written, and
no instruction calls it. With lookup tables there is a payer, and only a call of it is refused. -/
theorem sanitize_iff_of_compile :
    (∀ instructions payer blockhash (m : Message), Message.compile instructions payer blockhash = .ok m →
      (m.sanitize = .ok () ↔ ∃ key, m.accountKeys[0]? = some key ∧
        (payer = some key ∨
          payer = none ∧ Demand.Signs instructions none key ∧ Demand.Writes instructions none key) ∧
        ¬Demand.Calls instructions key)) ∧
    ∀ payer instructions tables blockhash (m : V0Message),
      V0Message.compile payer instructions tables blockhash = .ok m →
        (m.sanitize = .ok () ↔ ¬Demand.Calls instructions payer) := by
  refine ⟨?_, fun _ _ _ _ _ => V0Message.sanitize_of_compile_iff⟩
  intro instructions payer blockhash m h
  constructor
  · intro hsane
    obtain ⟨key, hkey⟩ := (Message.sanitize_eq_ok.1 hsane).1.exists_first
    rw [Message.sanitize_of_compile_iff h hkey, Message.first_signs_and_writes_iff h hkey] at hsane
    exact ⟨key, hkey, hsane⟩
  · rintro ⟨key, hkey, hfirst⟩
    rw [Message.sanitize_of_compile_iff h hkey, Message.first_signs_and_writes_iff h hkey]
    exact hfirst

/-- Without a payer the message is accepted for an account that signs for one instruction and is written by
another; with that account as the payer and called, it is refused, although a table takes the other key. -/
theorem sanitize_iff_of_compile_called :
    let key (n : UInt8) : Pubkey := ⟨List.replicate 32 n, rfl⟩
    let instructions : List Instruction :=
      [⟨key 5, [⟨key 7, true, false⟩, ⟨key 3, false, true⟩], [1]⟩, ⟨key 6, [⟨key 7, false, true⟩], []⟩]
    let m : Message :=
      ⟨⟨1, 0, 2⟩, [key 7, key 3, key 5, key 6], Fixed.zero, [⟨2, [0, 1], [1]⟩, ⟨3, [0], []⟩]⟩
    let calling : List Instruction := ⟨key 7, [], []⟩ :: instructions
    let loading : V0Message :=
      ⟨⟨⟨1, 0, 2⟩, [key 7, key 5, key 6], Fixed.zero, [⟨0, [], []⟩, ⟨1, [0, 3], [1]⟩, ⟨2, [0], []⟩]⟩,
        [⟨key 20, [0], []⟩]⟩
    (Message.compile instructions none Fixed.zero = .ok m ∧ m.sanitize = .ok () ∧
      Demand.Signs instructions none (key 7) ∧ Demand.Writes instructions none (key 7) ∧
        ¬Demand.Calls instructions (key 7)) ∧
    V0Message.compile (key 7) calling [⟨key 20, [key 3]⟩] Fixed.zero = .ok loading ∧
      Demand.Calls calling (key 7) ∧ loading.sanitize ≠ .ok () := by
  intro key instructions m calling loading
  have hcompile : Message.compile instructions none Fixed.zero = .ok m := by
    decide +kernel
  have hsane : m.sanitize = .ok () := rfl
  have hload : V0Message.compile (key 7) calling [⟨key 20, [key 3]⟩] Fixed.zero = .ok loading := by
    decide +kernel
  have hcalls : Demand.Calls calling (key 7) := ⟨_, List.mem_cons_self, rfl⟩
  obtain ⟨first, hkey, hpayer | ⟨-, hsigns, hwrites⟩, huncalled⟩ :=
    (sanitize_iff_of_compile.1 _ _ _ _ hcompile).1 hsane
  · cases hpayer
  · cases hkey
    refine ⟨⟨hcompile, hsane, hsigns, hwrites, huncalled⟩, hload, hcalls, ?_⟩
    intro hsane
    exact (sanitize_iff_of_compile.2 _ _ _ _ _ hload).1 hsane hcalls

end LedgerTx
