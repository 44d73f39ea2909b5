import LedgerTx.Message.Versioned
import LedgerTx.Proofs.Message.Queries

/-! What may be relied on once a message was found to hold together. Its header is three bytes from elsewhere,
and its instructions name places by bytes from elsewhere; a handful of comparisons make all of them meaningful.
The first account is there, signs and is written, every place that an instruction names is taken, and the
header tells for each of the four kinds of accounts how many there are. -/

namespace LedgerTx

theorem CompiledInstruction.isWithin_iff {instruction : CompiledInstruction} {programs accounts : Nat} :
    instruction.isWithin programs accounts = true ↔
      instruction.program.toNat ≠ 0 ∧ instruction.program.toNat < programs ∧
        ∀ account ∈ instruction.accounts, account.toNat < accounts := by
  have hzero : instruction.program ≠ 0 ↔ instruction.program.toNat ≠ 0 :=
    not_congr UInt8.toNat_inj.symm
  simp only [isWithin, Bool.and_eq_true, bne_iff_ne, decide_eq_true_iff, List.all_eq_true, hzero, and_assoc]

namespace Message

variable {m : Message}

theorem headerFits_iff :
    m.HeaderFits ↔ ¬m.headerExceedsKeys = true ∧ ¬m.lacksWritableSigner = true := by
  have hkeys : ¬m.headerExceedsKeys = true ↔
      m.required + m.header.readonlyUnsigned.toNat ≤ m.accountKeys.length := by
    rw [headerExceedsKeys, decide_eq_true_iff, Nat.not_lt]
  have hsigners : ¬m.lacksWritableSigner = true ↔ m.header.readonlySigned.toNat < m.required := by
    rw [lacksWritableSigner, decide_eq_true_iff, UInt8.not_le, UInt8.lt_iff_toNat_lt, required]
  rw [hkeys, hsigners]
  exact ⟨fun h => ⟨h.keys, h.signers⟩, fun h => ⟨h.1, h.2⟩⟩

namespace HeaderFits

variable (h : m.HeaderFits)

include h

theorem required_pos : 0 < m.required :=
  Nat.zero_lt_of_lt h.signers

theorem required_le : m.required ≤ m.accountKeys.length :=
  Nat.le_of_add_right_le h.keys

theorem isSigner_zero : m.isSigner 0 = true :=
  isSigner_iff.2 h.required_pos

theorem isWritableIndex_zero : m.isWritableIndex 0 = true :=
  isWritableIndex_iff.2 (Or.inl (Nat.sub_pos_of_lt h.signers))

theorem exists_first : ∃ key, m.accountKeys[0]? = some key :=
  ⟨_, List.getElem?_eq_getElem (Nat.lt_of_lt_of_le h.required_pos h.required_le)⟩

end HeaderFits

/-- An account that no instruction calls is not kept from being written. -/
theorem not_isDemoted_of_not_called {i : Nat} (h : ∀ ix ∈ m.instructions, ix.program.toNat ≠ i) :
    m.isDemoted i = false := by
  rw [← Bool.not_eq_true, isDemoted_iff]
  rintro ⟨⟨ix, hix, hplace⟩, -⟩
  exact h ix hix hplace

/-- What may be relied on in a message that holds together. -/
structure Sane (m : Message) : Prop where
  headerFits : m.HeaderFits
  first : ∃ key, m.accountKeys[0]? = some key
  isSigner_zero : m.isSigner 0 = true
  isWritable_zero : m.isWritable 0 = true
  length_signerKeys : m.signerKeys.length = m.required
  programs : ∀ j < m.instructions.length, ∃ i key, m.programIndex? j = some i ∧ i ≠ 0 ∧
    m.accountKeys[i]? = some key ∧ m.programKey? j = some key
  accounts : ∀ ix ∈ m.instructions, ∀ account ∈ ix.accounts,
    ∃ key, m.accountKeys[account.toNat]? = some key
  length_programKeys : m.programKeys.length = m.instructions.length
  partitioned : m.Partitioned m.isSigner m.isWritableIndex

theorem sanitize_eq_ok :
    m.sanitize = .ok () ↔ m.HeaderFits ∧
      ∀ ix ∈ m.instructions, ix.isWithin m.accountKeys.length m.accountKeys.length = true := by
  rw [sanitize, headerFits_iff, ← List.all_eq_true]
  split_ifs with hkeys hsigners hix
  · exact iff_of_false nofun fun h => h.1.1 hkeys
  · exact iff_of_false nofun fun h => h.1.2 hsigners
  · refine iff_of_false nofun fun h => ?_
    rw [h.2] at hix
    cases hix
  · exact iff_of_true rfl ⟨⟨hkeys, hsigners⟩, by simpa using hix⟩

/-- The counts come from the header alone, and the rest from the bounds on what instructions name. -/
theorem sane_of_sanitize_eq_ok (h : m.sanitize = .ok ()) : m.Sane := by
  obtain ⟨hfits, hinstructions⟩ := sanitize_eq_ok.1 h
  have hwithin := fun ix hix => CompiledInstruction.isWithin_iff.1 (hinstructions ix hix)
  have hprogram : ∀ ix ∈ m.instructions, ∃ key, ix.programKey? m.accountKeys = some key :=
    fun ix hix => ⟨_, List.getElem?_eq_getElem (hwithin ix hix).2.1⟩
  refine
    { headerFits := hfits
      first := hfits.exists_first
      isSigner_zero := hfits.isSigner_zero
      isWritable_zero := ?_
      length_signerKeys := List.length_take_of_le hfits.required_le
      programs := ?_
      accounts := ?_
      length_programKeys := ?_
      partitioned := hfits.partitioned (fun _ => rfl) fun _ _ => rfl }
  · rw [isWritable, hfits.isWritableIndex_zero,
      not_isDemoted_of_not_called fun ix hix => (hwithin ix hix).1]
    rfl
  · intro j hj
    obtain ⟨key, hkey⟩ := hprogram _ (List.getElem_mem hj)
    have hix : m.instructions[j]? = some m.instructions[j] := List.getElem?_eq_getElem hj
    refine ⟨m.instructions[j].program.toNat, key, ?_, (hwithin _ (List.getElem_mem hj)).1, hkey, ?_⟩
    · rw [programIndex?, hix, Option.map_some]
    · rw [programKey?, hix, Option.bind_some, hkey]
  · intro ix hix account haccount
    exact ⟨_, List.getElem?_eq_getElem ((hwithin ix hix).2.2 account haccount)⟩
  · rw [programKeys, List.filterMap_length_eq_length]
    intro ix hix
    exact Option.isSome_iff_exists.2 (hprogram ix hix)

end Message

namespace V0Message

variable {m : V0Message}

/-- What may be relied on in a message of version 0 that holds together. -/
structure Sane (m : V0Message) : Prop where
  headerFits : m.HeaderFits
  first : ∃ key, m.accountKeys[0]? = some key
  isSigner_zero : m.isSigner 0 = true
  isMaybeWritable_zero : m.isMaybeWritable 0 = true
  partitioned : m.Partitioned m.isSigner m.isMaybeWritableIndex
  programs : ∀ ix ∈ m.instructions, ix.program.toNat ≠ 0 ∧ ix.program.toNat < m.accountKeys.length
  accounts : ∀ ix ∈ m.instructions, ∀ account ∈ ix.accounts, account.toNat < m.accountCount
  accountCount_le : m.accountCount ≤ 256
  lookups : ∀ lookup ∈ m.lookups, 0 < (lookup.writable ++ lookup.readonly).length

theorem sanitize_eq_ok :
    m.sanitize = .ok () ↔ m.HeaderFits ∧
      (∀ lookup ∈ m.lookups, 0 < (lookup.writable ++ lookup.readonly).length) ∧ m.accountCount ≤ 256 ∧
        ∀ ix ∈ m.instructions, ix.isWithin m.accountKeys.length m.accountCount = true := by
  have hlookups : (∀ lookup ∈ m.lookups, 0 < (lookup.writable ++ lookup.readonly).length) ↔
      ¬(m.lookups.any fun lookup => lookup.writable.isEmpty && lookup.readonly.isEmpty) = true := by
    simp only [List.length_pos_iff, ne_eq, List.append_eq_nil_iff, List.any_eq_true, Bool.and_eq_true,
      List.isEmpty_iff, not_exists, not_and]
  rw [sanitize, Message.headerFits_iff, hlookups, ← List.all_eq_true]
  split_ifs with hkeys hsigners hempty hcount hix
  · exact iff_of_false nofun fun h => h.1.1 hkeys
  · exact iff_of_false nofun fun h => h.1.2 hsigners
  · exact iff_of_false nofun fun h => h.2.1 hempty
  · exact iff_of_false nofun fun h => Nat.not_lt.2 h.2.2.1 hcount
  · refine iff_of_false nofun fun h => ?_
    rw [h.2.2.2] at hix
    cases hix
  · exact iff_of_true rfl ⟨⟨hkeys, hsigners⟩, hempty, Nat.le_of_not_lt hcount, by simpa using hix⟩

theorem sane_of_sanitize_eq_ok (h : m.sanitize = .ok ()) : m.Sane := by
  obtain ⟨hfits, hlookups, hcount, hinstructions⟩ := sanitize_eq_ok.1 h
  have hwithin := fun ix hix => CompiledInstruction.isWithin_iff.1 (hinstructions ix hix)
  have hlength := Nat.lt_of_lt_of_le hfits.required_pos hfits.required_le
  refine
    { headerFits := hfits
      first := hfits.exists_first
      isSigner_zero := (isSigner_toMessage m 0).symm.trans hfits.isSigner_zero
      isMaybeWritable_zero := ?_
      partitioned := hfits.partitioned (fun i => (isSigner_toMessage m i).symm) fun _ => isMaybeWritableIndex_of_lt
      programs := fun ix hix => ⟨(hwithin ix hix).1, (hwithin ix hix).2.1⟩
      accounts := fun ix hix => (hwithin ix hix).2.2
      accountCount_le := hcount
      lookups := hlookups }
  rw [isMaybeWritable_eq_and, isMaybeWritableIndex_of_lt hlength, hfits.isWritableIndex_zero,
    Message.not_isDemoted_of_not_called fun ix hix => (hwithin ix hix).1]
  rfl

end V0Message

/-- Messages of both forms that hold together may be indexed by all that they name, and their headers
partition their accounts. -/
theorem sane_of_sanitize :
    (∀ m : Message, m.sanitize = .ok () → m.Sane) ∧ ∀ m : V0Message, m.sanitize = .ok () → m.Sane :=
  ⟨fun _ => Message.sane_of_sanitize_eq_ok, fun _ => V0Message.sane_of_sanitize_eq_ok⟩

/-- One account of each kind, and in the second message two more that are loaded. -/
theorem sane_of_sanitize_both :
    let key (n : UInt8) : Pubkey := ⟨List.replicate 32 n, rfl⟩
    let m : Message := ⟨⟨2, 1, 1⟩, [key 1, key 2, key 3, key 4], Fixed.zero, [⟨3, [0, 2], [5]⟩, ⟨1, [], []⟩]⟩
    let loading : V0Message := ⟨{ m with instructions := [⟨3, [5, 4, 0], []⟩] }, [⟨key 9, [7], [8]⟩]⟩
    (m.sanitize = .ok () ∧ m.Sane) ∧ loading.sanitize = .ok () ∧ loading.Sane :=
  ⟨⟨rfl, sane_of_sanitize.1 _ rfl⟩, rfl, sane_of_sanitize.2 _ rfl⟩

end LedgerTx
