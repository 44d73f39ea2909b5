import LedgerTx.Proofs.AccountTable.Entries
import LedgerTx.Proofs.Message.Resolved

/-! Where a compiled message of version 0 has the keys that its instructions name. A key that neither signs
nor is called, and is not the payer's, is left to the first table that lists it; all other keys are in the
message. The lookups do not tell the tables that they are for by position, and two tables may have the same
key, so that it is said for each table, in order, whether it gave a lookup and which. -/

namespace LedgerTx

variable {instructions : List Instruction} {payer key : Pubkey} {tables : List LookupTable}
  {blockhash : Hash} {m : V0Message}

/-- A key that instructions name is left to lookup tables: it is not the payer's, no instruction asks for its
signature or calls it, and some table lists it. -/
structure Demand.LeftToTables (payer : Pubkey) (instructions : List Instruction) (tables : List LookupTable)
    (key : Pubkey) : Prop where
  names : Names instructions (some payer) key
  ne_payer : key ≠ payer
  not_signs : ¬Signs instructions none key
  not_calls : ¬Calls instructions key
  listed : ∃ table ∈ tables, key ∈ table.addresses

theorem Demand.signs_some_iff :
    Signs instructions (some payer) key ↔ key = payer ∨ Signs instructions none key := by
  simp only [Signs, Option.some.injEq, reduceCtorEq, false_or]
  exact or_congr eq_comm Iff.rfl

theorem Demand.writes_some_iff :
    Writes instructions (some payer) key ↔ key = payer ∨ Writes instructions none key := by
  simp only [Writes, Option.some.injEq, reduceCtorEq, false_or]
  exact or_congr eq_comm Iff.rfl

/-- What is asked of a key lets it be loaded if it is demanded only that it be there. -/
theorem Requests.isLoadable_iff_of_mem_merged {access : Access} {writable : Bool}
    (hmem : (key, access) ∈ merged instructions (some payer)) :
    access.isLoadable writable = true ↔ key ≠ payer ∧ ¬Demand.Signs instructions none key ∧
      ¬Demand.Calls instructions key ∧ (writable = true ↔ Demand.Writes instructions none key) := by
  obtain ⟨hsigner, hwritable, hinvoked⟩ := faithful_merged instructions (some payer) key access hmem
  have hside : access.writable = writable ↔ (writable = true ↔ access.writable = true) := by
    rw [← Bool.eq_iff_iff, eq_comm]
  rw [Access.isLoadable_iff, hside, ← Bool.not_eq_true, ← Bool.not_eq_true, hsigner, hinvoked, hwritable,
    Demand.signs_some_iff, Demand.writes_some_iff, not_or, and_assoc]
  apply and_congr_right
  intro hpayer
  rw [or_iff_right hpayer]

theorem Requests.mem_loadable_merged {writable : Bool} :
    key ∈ (merged instructions (some payer)).keysWith (Access.isLoadable writable) ↔
      Demand.Names instructions (some payer) key ∧ key ≠ payer ∧ ¬Demand.Signs instructions none key ∧
        ¬Demand.Calls instructions key ∧ (writable = true ↔ Demand.Writes instructions none key) := by
  rw [mem_keysWith, ← mem_keys_merged]
  refine ⟨?_, ?_⟩
  · rintro ⟨access, hmem, hloadable⟩
    exact ⟨List.mem_map_of_mem hmem, (isLoadable_iff_of_mem_merged hmem).1 hloadable⟩
  · rintro ⟨hkey, hdemands⟩
    obtain ⟨⟨_, access⟩, hmem, rfl⟩ := List.mem_map.1 hkey
    exact ⟨access, hmem, (isLoadable_iff_of_mem_merged hmem).2 hdemands⟩

theorem Requests.exists_loadable_merged :
    (∃ writable, key ∈ (merged instructions (some payer)).keysWith (Access.isLoadable writable)) ↔
      Demand.Names instructions (some payer) key ∧ key ≠ payer ∧ ¬Demand.Signs instructions none key ∧
        ¬Demand.Calls instructions key := by
  simp only [mem_loadable_merged]
  refine ⟨?_, ?_⟩
  · rintro ⟨_, hnames, hpayer, hsigns, hcalls, -⟩
    exact ⟨hnames, hpayer, hsigns, hcalls⟩
  · rintro ⟨hnames, hpayer, hsigns, hcalls⟩
    classical
    exact ⟨decide (Demand.Writes instructions none key), hnames, hpayer, hsigns, hcalls, decide_eq_true_iff⟩

theorem Demand.leftToTables_iff : LeftToTables payer instructions tables key ↔
    (∃ writable, key ∈ (Requests.merged instructions (some payer)).keysWith (Access.isLoadable writable)) ∧
      ∃ table ∈ tables, key ∈ table.addresses := by
  rw [Requests.exists_loadable_merged]
  refine ⟨fun h => ⟨⟨h.names, h.ne_payer, h.not_signs, h.not_calls⟩, h.listed⟩, ?_⟩
  rintro ⟨⟨hnames, hpayer, hsigns, hcalls⟩, hlisted⟩
  exact ⟨hnames, hpayer, hsigns, hcalls, hlisted⟩

namespace V0Message

/-- Where a message has the keys that its instructions name, if of the tables each gave a lookup or none. -/
structure Placed (payer : Pubkey) (instructions : List Instruction) (tables : List LookupTable)
    (given : List (Option TableLookup)) (m : V0Message) : Prop where
  not_mem_accountKeys : ∀ key, Demand.Names instructions (some payer) key →
    (key ∉ m.accountKeys ↔ key ≠ payer ∧ ¬Demand.Signs instructions none key ∧
      ¬Demand.Calls instructions key ∧ ∃ table ∈ tables, key ∈ table.addresses)
  lookups : m.lookups = given.reduceOption
  length_given : given.length = tables.length
  key : ∀ (t : Nat) (table : LookupTable) (lookup : TableLookup), tables[t]? = some table →
    given[t]? = some (some lookup) → lookup.key = table.key
  gives : ∀ t, (∃ lookup, given[t]? = some (some lookup)) ↔
    ∃ key, Demand.LeftToTables payer instructions tables key ∧ LookupTable.firstListing? tables key = some t
  entry : ∀ key, Demand.LeftToTables payer instructions tables key →
    ∃ entry : LookupEntry, (LookupEntry.all given).filter (fun other => other.key? tables = some key) = [entry] ∧
      entry.IsFirst tables key ∧ (entry.writable = true ↔ Demand.Writes instructions none key)
  entries : ∀ entry ∈ LookupEntry.all given, ∃ key, Demand.LeftToTables payer instructions tables key ∧
    entry.key? tables = some key

/-- In a compiled message a key that may be left to tables is left to the first that lists it. -/
theorem placed_of_compile (h : compile payer instructions tables blockhash = .ok m) :
    ∃ given, m.Placed payer instructions tables given := by
  obtain ⟨taken, left, htaken, hassembled⟩ := takeLookups_of_compile h
  have hascending := Requests.ascending_merged instructions (some payer)
  obtain ⟨rfl, hlookups, hplaces⟩ := Requests.takeLookups_eq_ok hascending htaken
  refine ⟨(Requests.merged instructions (some payer)).contributions tables, ?_, ?_, ?_, ?_, ?_, ?_, ?_⟩
  · intro key hnames
    rw [hassembled.accountKeys_perm.mem_iff, hascending.mem_keys_unlisted, Requests.mem_keys_merged,
      Requests.exists_loadable_merged, and_iff_right hnames, not_not, and_iff_right hnames, and_assoc,
      and_assoc]
  · rw [hassembled.lookups, hlookups]
  · exact List.length_mapIdx
  · intro t table lookup htable hlookup
    obtain ⟨other, hother, rfl⟩ := Requests.getElem?_contributions_eq_some hlookup
    cases Option.some.inj (htable.symm.trans hother)
    rfl
  · intro t
    rw [Requests.exists_getElem?_contributions]
    apply exists_congr
    intro key
    rw [Demand.leftToTables_iff, and_assoc]
    apply and_congr_right
    intro _
    exact (and_iff_right_of_imp LookupTable.listed_of_firstListing?).symm
  · intro key hkey
    obtain ⟨⟨writable, hloadable⟩, hlisted⟩ := Demand.leftToTables_iff.1 hkey
    obtain ⟨entry, rfl, hfirst⟩ := Requests.exists_isFirst hplaces hloadable hlisted
    obtain ⟨-, -, -, -, hwrites⟩ := Requests.mem_loadable_merged.1 hloadable
    exact ⟨entry, Requests.filter_entries_contributions hascending hplaces hloadable hfirst, hfirst, hwrites⟩
  · intro entry hentry
    obtain ⟨key, hloadable, hfirst⟩ := (Requests.mem_entries_contributions hplaces).1 hentry
    have hlisted := LookupTable.listed_of_firstListing? hfirst.table
    exact ⟨key, Demand.leftToTables_iff.2 ⟨⟨_, hloadable⟩, hlisted⟩, hfirst.key?_eq⟩

/-- Two tables have the same key and share addresses, one of which the first lists twice; the second table
lists nothing that is left for it, and all list the payer, a signer or a program. -/
theorem placed_of_compile_shared :
    let key (n : UInt8) : Pubkey := ⟨List.replicate 32 n, rfl⟩
    let instructions : List Instruction :=
      [⟨key 5, [⟨key 9, false, false⟩, ⟨key 3, false, true⟩, ⟨key 7, true, false⟩, ⟨key 5, false, true⟩], []⟩,
        ⟨key 6, [⟨key 2, false, false⟩, ⟨key 4, false, false⟩, ⟨key 3, false, false⟩], [1]⟩]
    let tables : List LookupTable :=
      [⟨key 20, [key 5, key 3, key 4, key 3]⟩, ⟨key 21, [key 3, key 9, key 4]⟩,
        ⟨key 20, [key 7, key 4, key 2, key 2]⟩]
    ∃ m, compile (key 9) instructions tables Fixed.zero = .ok m ∧
      m.accountKeys = [key 9, key 7, key 5, key 6] ∧
      m.lookups = [⟨key 20, [1], [2]⟩, ⟨key 20, [], [2]⟩] ∧
      ∃ given, m.Placed (key 9) instructions tables given :=
  ⟨_, rfl, rfl, rfl, placed_of_compile rfl⟩

end V0Message

end LedgerTx
