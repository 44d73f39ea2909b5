import LedgerTx.AccountTable
import LedgerTx.Proofs.AccountTable.Index
import LedgerTx.Proofs.AccountTable.Layout
import LedgerTx.Proofs.AccountTable.Lookups

/-! Compiling with lookup tables preserves what the instructions mean. The message alone does not tell all
its keys: they are resolved by the tables, and the keys of the message followed by those that its lookups
select are the table that its instructions are read through. Keys that are taken neither sign nor are
called, so that what is said of signers and programs is decided by the keys that are left. -/

namespace LedgerTx

/-- The keys that a lookup selects from the table that it names. -/
def TableLookup.resolve (tables : List LookupTable) (lookup : TableLookup) : LoadedAddresses :=
  match tables.find? fun table => table.key == lookup.key with
  | none => ⟨[], []⟩
  | some table =>
    ⟨lookup.writable.filterMap fun i => table.addresses[i.toNat]?,
      lookup.readonly.filterMap fun i => table.addresses[i.toNat]?⟩

/-- All keys of a message: those in it, and those that its lookups select, first to be written and then
to be read. -/
def V0Message.allKeys (tables : List LookupTable) (m : V0Message) : List Pubkey :=
  m.accountKeys ++ (LoadedAddresses.join (m.lookups.map (TableLookup.resolve tables))).keys

/-- A lookup names one of the tables and stays within it. -/
def TableLookup.InRange (tables : List LookupTable) (lookup : TableLookup) : Prop :=
  ∃ table ∈ tables, lookup.key = table.key ∧
    ∀ i ∈ lookup.writable ++ lookup.readonly, i.toNat < table.addresses.length

variable {instructions : List Instruction} {payer : Pubkey} {tables : List LookupTable}
  {requests left : Requests} {taken : List (TableLookup × LoadedAddresses)} {blockhash : Hash}

namespace LookupTable

variable {table : LookupTable} {lookup : TableLookup} {loaded : LoadedAddresses}

theorem find?_eq_some (htables : (tables.map LookupTable.key).Nodup) (htable : table ∈ tables)
    (hkey : lookup.key = table.key) :
    (tables.find? fun table => table.key == lookup.key) = some table := by
  have hfound : (tables.find? fun table => table.key == lookup.key).isSome := by
    rw [List.find?_isSome]
    exact ⟨table, htable, beq_iff_eq.2 hkey.symm⟩
  obtain ⟨found, hfound⟩ := Option.isSome_iff_exists.1 hfound
  have hbeq := List.find?_some hfound
  have hsame : found.key = lookup.key := beq_iff_eq.1 hbeq
  rw [hfound, List.inj_on_of_nodup_map htables (List.mem_of_find?_eq_some hfound) htable
    (hsame.trans hkey)]

theorem Takes.resolve_eq (h : table.Takes requests lookup loaded) (htable : table ∈ tables)
    (htables : (tables.map LookupTable.key).Nodup) : lookup.resolve tables = loaded := by
  rw [TableLookup.resolve, find?_eq_some htables htable h.key]
  simp only [h.writable.filterMap_eq, h.readonly.filterMap_eq]

theorem Takes.inRange (h : table.Takes requests lookup loaded) (htable : table ∈ tables) :
    lookup.InRange tables := by
  refine ⟨table, htable, h.key, ?_⟩
  intro i hi
  rcases List.mem_append.1 hi with hi | hi
  · exact h.writable.lt_length hi
  · exact h.readonly.lt_length hi

end LookupTable

theorem Requests.Drained.map_resolve (h : Requests.Drained tables requests taken left)
    (htables : (tables.map LookupTable.key).Nodup) :
    (taken.map Prod.fst).map (TableLookup.resolve tables) = taken.map Prod.snd := by
  rw [List.map_map]
  apply List.map_congr_left
  intro entry hentry
  obtain ⟨table, htable, htakes⟩ := h.takes entry hentry
  exact htakes.resolve_eq htable htables

theorem Requests.Drained.length_flatMap (h : Requests.Drained tables requests taken left)
    {places : TableLookup → Bytes} {keys : LoadedAddresses → List Pubkey}
    (hselects : ∀ table lookup loaded, LookupTable.Takes table requests lookup loaded →
      Selects table.addresses (places lookup) (keys loaded)) :
    ((taken.map Prod.fst).flatMap places).length = ((taken.map Prod.snd).flatMap keys).length := by
  simp only [List.length_flatMap, List.map_map]
  congr 1
  apply List.map_congr_left
  intro entry hentry
  obtain ⟨table, -, htakes⟩ := h.takes entry hentry
  exact (hselects table entry.1 entry.2 htakes).length_eq

theorem Requests.Drained.length_writable (h : Requests.Drained tables requests taken left) :
    ((taken.map Prod.fst).flatMap TableLookup.writable).length =
      (LoadedAddresses.ofTaken taken).writable.length :=
  h.length_flatMap fun _ _ _ htakes => htakes.writable

theorem LoadedAddresses.length_keys_join (parts : List LoadedAddresses) :
    (join parts).keys.length = (parts.flatMap keys).length := by
  induction parts with
  | nil => rfl
  | cons part parts ih =>
      rw [(join_cons_keys_perm part parts).length_eq, List.flatMap_cons, List.length_append,
        List.length_append, ih, Nat.add_comm]

theorem Requests.Drained.length_places (h : Requests.Drained tables requests taken left) :
    ((taken.map Prod.fst).flatMap fun lookup => lookup.writable ++ lookup.readonly).length =
      (LoadedAddresses.ofTaken taken).keys.length := by
  rw [LoadedAddresses.length_keys_join]
  exact h.length_flatMap fun _ _ _ htakes => htakes.writable.append htakes.readonly

namespace Requests.Drained

variable (h : Drained tables (merged instructions (some payer)) taken left)

include h

theorem faithful_left : Faithful instructions (some payer) left :=
  (faithful_merged instructions (some payer)).sublist h.left_sublist

theorem ascending_left : left.Ascending :=
  (ascending_merged instructions (some payer)).sublist h.left_sublist

theorem demands_of_taken {key : Pubkey} (hkey : key ∈ (LoadedAddresses.ofTaken taken).keys) :
    ¬Demand.Signs instructions (some payer) key ∧ ¬Demand.Calls instructions key := by
  obtain ⟨writable, hloadable⟩ := h.mem_loadable hkey
  obtain ⟨hsigns, hcalls, -⟩ :=
    (faithful_merged instructions (some payer)).demands_of_loadable hloadable
  exact ⟨hsigns, hcalls⟩

theorem mem_left_of_signs {key : Pubkey} (hsigns : Demand.Signs instructions (some payer) key) :
    key ∈ left.map Prod.fst := by
  have hmerged : key ∈ (merged instructions (some payer)).map Prod.fst := mem_keys_merged.2 hsigns.names
  rcases List.mem_append.1 (h.keys_perm.mem_iff.2 hmerged) with hleft | htaken
  · exact hleft
  · exact absurd hsigns (h.demands_of_taken htaken).1

theorem layout_keys_perm : (Layout.ofRequests (some payer) left).keys.Perm (left.map Prod.fst) := by
  apply Layout.ofRequests_keys_perm h.ascending_left
  intro p hp
  cases hp
  exact h.mem_left_of_signs (Or.inl rfl)

theorem allKeys_perm :
    ((Layout.ofRequests (some payer) left).keys ++ (LoadedAddresses.ofTaken taken).keys).Perm
      ((merged instructions (some payer)).map Prod.fst) :=
  (h.layout_keys_perm.append_right _).trans h.keys_perm

end Requests.Drained

namespace V0Message

variable {m : V0Message}

/-- A message in which the tables took some of what was asked and the rest is laid out. -/
structure Assembled (payer : Pubkey) (instructions : List Instruction) (tables : List LookupTable)
    (taken : List (TableLookup × LoadedAddresses)) (left : Requests) (m : V0Message) : Prop where
  drained : Requests.Drained tables (Requests.merged instructions (some payer)) taken left
  describes : (Layout.ofRequests (some payer) left).Describes m.toMessage
  lookups : m.lookups = taken.map Prod.fst
  denotes : List.Forall₂
    (CompiledInstruction.Denotes (m.accountKeys ++ (LoadedAddresses.ofTaken taken).keys))
    m.instructions instructions

theorem compileAll_of_compile (h : compile payer instructions tables blockhash = .ok m) :
    ∃ taken left,
      (Requests.merged instructions (some payer)).takeLookups tables = .ok (taken, left) ∧
        m.Assembled payer instructions tables taken left ∧
        Instruction.compileAll (m.accountKeys ++ (LoadedAddresses.ofTaken taken).keys) instructions =
          .ok m.instructions := by
  obtain ⟨⟨taken, left⟩, htaken, h⟩ := Except.bind_eq_ok.1 h
  obtain ⟨header, hheader, h⟩ := Except.bind_eq_ok.1 h
  obtain ⟨compiled, hcompiled, h⟩ := Except.bind_eq_ok.1 h
  cases h
  have hdrained := Requests.drained_of_takeLookups (Requests.ascending_merged _ _) htaken
  exact ⟨taken, left, htaken,
    ⟨hdrained, ⟨hheader, rfl⟩, rfl, Instruction.denotes_of_compileAll hcompiled⟩, hcompiled⟩

theorem takeLookups_of_compile (h : compile payer instructions tables blockhash = .ok m) :
    ∃ taken left,
      (Requests.merged instructions (some payer)).takeLookups tables = .ok (taken, left) ∧
        m.Assembled payer instructions tables taken left := by
  obtain ⟨taken, left, htaken, hassembled, -⟩ := compileAll_of_compile h
  exact ⟨taken, left, htaken, hassembled⟩

theorem assembled_of_compile (h : compile payer instructions tables blockhash = .ok m) :
    ∃ taken left, m.Assembled payer instructions tables taken left := by
  obtain ⟨taken, left, -, hassembled⟩ := takeLookups_of_compile h
  exact ⟨taken, left, hassembled⟩

namespace Assembled

variable (h : m.Assembled payer instructions tables taken left)

include h

theorem accountKeys_perm : m.accountKeys.Perm (left.map Prod.fst) := by
  rw [h.describes.keys]
  exact h.drained.layout_keys_perm

/-- No key is both in the message and loaded. -/
theorem nodup_keys : (m.accountKeys ++ (LoadedAddresses.ofTaken taken).keys).Nodup := by
  rw [h.describes.keys, h.drained.allKeys_perm.nodup_iff]
  exact (Requests.ascending_merged instructions (some payer)).nodup_keys

theorem accountCount_eq :
    m.accountCount = (m.accountKeys ++ (LoadedAddresses.ofTaken taken).keys).length := by
  rw [accountCount, h.lookups, h.drained.length_places, List.length_append]

theorem allKeys_eq (htables : (tables.map LookupTable.key).Nodup) :
    m.allKeys tables = m.accountKeys ++ (LoadedAddresses.ofTaken taken).keys := by
  rw [allKeys, h.lookups, h.drained.map_resolve htables]

theorem allKeys_perm (htables : (tables.map LookupTable.key).Nodup) :
    (m.allKeys tables).Perm ((Requests.merged instructions (some payer)).map Prod.fst) := by
  rw [h.allKeys_eq htables, h.describes.keys]
  exact h.drained.allKeys_perm

variable {i : Nat} {key : Pubkey}

theorem loaded_cases (hkey : (LoadedAddresses.ofTaken taken).keys[i]? = some key) :
    (i < m.loadedWritable ∧ key ∈ (LoadedAddresses.ofTaken taken).writable) ∨
    (m.loadedWritable ≤ i ∧ key ∈ (LoadedAddresses.ofTaken taken).readonly) := by
  rw [loadedWritable, h.lookups, h.drained.length_writable]
  rcases List.getElem?_append_cases hkey with ⟨hi, hkey⟩ | ⟨hi, hkey⟩
  · exact Or.inl ⟨hi, List.mem_of_getElem? hkey⟩
  · exact Or.inr ⟨hi, List.mem_of_getElem? hkey⟩

theorem isSigner_iff
    (hkey : (m.accountKeys ++ (LoadedAddresses.ofTaken taken).keys)[i]? = some key) :
    m.isSigner i = true ↔ Demand.Signs instructions (some payer) key := by
  rw [← isSigner_toMessage]
  rcases List.getElem?_append_cases hkey with ⟨-, hkey⟩ | ⟨hi, hkey⟩
  · exact h.describes.isSigner_iff (Layout.sorts_ofRequests h.drained.faithful_left) hkey
  · have hrequired := h.describes.required_le
    rw [Message.isSigner_iff]
    exact iff_of_false (by omega) (h.drained.demands_of_taken (List.mem_of_getElem? hkey)).1

theorem isMaybeWritableIndex_iff
    (hkey : (m.accountKeys ++ (LoadedAddresses.ofTaken taken).keys)[i]? = some key) :
    m.isMaybeWritableIndex i = true ↔ Demand.Writes instructions (some payer) key := by
  have hfaithful := Requests.faithful_merged instructions (some payer)
  rcases List.getElem?_append_cases hkey with ⟨hi, hkey⟩ | ⟨hi, hkey⟩
  · rw [isMaybeWritableIndex_of_lt hi]
    exact h.describes.isWritableIndex_iff (Layout.sorts_ofRequests h.drained.faithful_left) hkey
  · rw [isMaybeWritableIndex_of_le hi]
    rcases h.loaded_cases hkey with ⟨hloaded, hmem⟩ | ⟨hloaded, hmem⟩
    · obtain ⟨-, -, hwrites⟩ := hfaithful.demands_of_loadable (h.drained.mem_writable hmem)
      exact iff_of_true hloaded (hwrites.2 rfl)
    · obtain ⟨-, -, hwrites⟩ := hfaithful.demands_of_loadable (h.drained.mem_readonly hmem)
      exact iff_of_false (Nat.not_lt.2 hloaded) fun h => Bool.false_ne_true (hwrites.1 h)

theorem isMaybeWritable_iff
    (hkey : (m.accountKeys ++ (LoadedAddresses.ofTaken taken).keys)[i]? = some key) :
    m.isMaybeWritable i = true ↔ Demand.Writes instructions (some payer) key ∧
      (¬Demand.Calls instructions key ∨ SystemProgram.upgradeableLoader ∈ m.accountKeys) := by
  rw [isMaybeWritable_eq_and, Bool.and_eq_true, h.isMaybeWritableIndex_iff hkey,
    Message.not_isDemoted_iff h.denotes h.nodup_keys hkey]

/-- What is called is not taken, so that the place of a program is in the message. -/
theorem program_toNat_lt {compiled : CompiledInstruction} (hcompiled : compiled ∈ m.instructions) :
    compiled.program.toNat < m.accountKeys.length := by
  obtain ⟨instruction, hinstruction, hdenotes⟩ := h.denotes.exists_of_mem_left hcompiled
  have hcalls : Demand.Calls instructions instruction.program := ⟨instruction, hinstruction, rfl⟩
  rcases List.getElem?_append_cases hdenotes.program with ⟨hi, -⟩ | ⟨-, hkey⟩
  · exact hi
  · exact absurd hcalls (h.drained.demands_of_taken (List.mem_of_getElem? hkey)).2

end Assembled

/-- What a message should mean, for the given payer and instructions, once the tables resolve its lookups. -/
structure Preserves (payer : Pubkey) (instructions : List Instruction) (tables : List LookupTable)
    (m : V0Message) : Prop where
  lookups : ∀ lookup ∈ m.lookups, lookup.InRange tables
  nodup : (m.allKeys tables).Nodup
  mem_allKeys : ∀ key, key ∈ m.allKeys tables ↔ Demand.Names instructions (some payer) key
  denotes : List.Forall₂ (CompiledInstruction.Denotes (m.allKeys tables)) m.instructions instructions
  program_lt : ∀ compiled ∈ m.instructions, compiled.program.toNat < m.accountKeys.length
  isSigner : ∀ i key, (m.allKeys tables)[i]? = some key →
    (m.isSigner i = true ↔ Demand.Signs instructions (some payer) key)
  isMaybeWritable : ∀ i key, (m.allKeys tables)[i]? = some key →
    (m.isMaybeWritable i = true ↔ Demand.Writes instructions (some payer) key ∧
      (¬Demand.Calls instructions key ∨ SystemProgram.upgradeableLoader ∈ m.accountKeys))

/-- Compiling with lookup tables preserves what the instructions mean. -/
theorem preserves_of_compile (htables : (tables.map LookupTable.key).Nodup)
    (h : compile payer instructions tables blockhash = .ok m) :
    m.Preserves payer instructions tables := by
  obtain ⟨taken, left, h⟩ := assembled_of_compile h
  have hperm := h.allKeys_perm htables
  have hnodup : (m.allKeys tables).Nodup :=
    hperm.nodup_iff.2 (Requests.ascending_merged instructions (some payer)).nodup_keys
  have hkeys := h.allKeys_eq htables
  have hdenotes := h.denotes
  rw [← hkeys] at hdenotes
  refine ⟨?_, hnodup, ?_, hdenotes, ?_, ?_, ?_⟩
  · intro lookup hlookup
    rw [h.lookups] at hlookup
    obtain ⟨entry, hentry, rfl⟩ := List.mem_map.1 hlookup
    obtain ⟨table, htable, htakes⟩ := h.drained.takes entry hentry
    exact htakes.inRange htable
  · intro key
    rw [hperm.mem_iff, Requests.mem_keys_merged]
  · intro compiled hcompiled
    exact h.program_toNat_lt hcompiled
  · intro i key hkey
    rw [hkeys] at hkey
    exact h.isSigner_iff hkey
  · intro i key hkey
    have hdemoted := Message.not_isDemoted_iff hdenotes hnodup hkey
    rw [hkeys] at hkey
    rw [isMaybeWritable_eq_and, Bool.and_eq_true, h.isMaybeWritableIndex_iff hkey, hdemoted]

/-- Both tables list a key that the other one lists too, and one lists the payer and a program. -/
theorem preserves_of_compile_overlapping :
    let key (n : UInt8) : Pubkey := ⟨List.replicate 32 n, rfl⟩
    let instructions : List Instruction :=
      [⟨key 5, [⟨key 9, false, false⟩, ⟨key 3, false, true⟩, ⟨key 7, true, false⟩], []⟩,
        ⟨key 6, [⟨key 2, false, false⟩, ⟨key 4, false, false⟩, ⟨key 3, false, false⟩,
          ⟨key 8, false, true⟩], [1]⟩]
    let tables : List LookupTable :=
      [⟨key 20, [key 9, key 4, key 3, key 3, key 5]⟩, ⟨key 21, [key 3, key 2, key 4, key 8]⟩]
    (tables.map LookupTable.key).Nodup ∧
      ∃ m, compile (key 9) instructions tables Fixed.zero = .ok m ∧
        m.allKeys tables = [key 9, key 7, key 5, key 6, key 3, key 8, key 4, key 2] ∧
        m.Preserves (key 9) instructions tables :=
  ⟨by decide, _, rfl, rfl, preserves_of_compile (by decide) rfl⟩

end V0Message

end LedgerTx
