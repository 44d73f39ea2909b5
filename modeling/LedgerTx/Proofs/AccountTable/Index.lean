import LedgerTx.AccountTable
import LedgerTx.Proofs.AccountTable.Requests
import LedgerTx.Proofs.Message.Queries
import Mathlib.Data.List.Nodup
import Mathlib.Order.Bounds.Defs
import Mathlib.Tactic.SplitIfs

/-! Compiled instructions read back through the table that they were compiled against. A place is a byte,
so this rests on the table having at most 256 keys: what is compiled against a larger one is refused. If
moreover no key is in the table twice, the place of a program tells which key is called. -/

section

variable {α β ε : Type}

theorem Except.bind_eq_ok {first : Except ε α} {next : α → Except ε β} {b : β} :
    (first >>= next) = .ok b ↔ ∃ a, first = .ok a ∧ next a = .ok b := by
  cases first with
  | error e => exact ⟨nofun, fun ⟨_, h, _⟩ => nomatch h⟩
  | ok a => exact ⟨fun h => ⟨a, rfl, h⟩, fun ⟨_, rfl, h⟩ => h⟩

theorem List.mapM_cons_eq_ok {f : α → Except ε β} {a : α} {as : List α} {bs : List β} :
    (a :: as).mapM f = .ok bs ↔ ∃ b more, f a = .ok b ∧ as.mapM f = .ok more ∧ b :: more = bs := by
  rw [List.mapM_cons, Except.bind_eq_ok]
  refine ⟨?_, ?_⟩
  · rintro ⟨b, hhead, h⟩
    obtain ⟨more, htail, ⟨⟩⟩ := Except.bind_eq_ok.1 h
    exact ⟨b, more, hhead, htail, rfl⟩
  · rintro ⟨b, more, hhead, htail, rfl⟩
    exact ⟨b, hhead, Except.bind_eq_ok.2 ⟨more, htail, rfl⟩⟩

theorem List.forall₂_of_mapM_eq_ok {f : α → Except ε β} {as : List α} {bs : List β}
    (h : as.mapM f = .ok bs) : List.Forall₂ (fun b a => f a = .ok b) bs as := by
  induction as generalizing bs with
  | nil =>
      cases h
      exact .nil
  | cons a as ih =>
      obtain ⟨b, more, hhead, htail, rfl⟩ := List.mapM_cons_eq_ok.1 h
      exact .cons hhead (ih htail)

theorem List.mapM_eq_ok_iff_forall₂ {f : α → Except ε β} {as : List α} {bs : List β} :
    as.mapM f = .ok bs ↔ List.Forall₂ (fun b a => f a = .ok b) bs as := by
  refine ⟨List.forall₂_of_mapM_eq_ok, ?_⟩
  intro h
  induction h with
  | nil => rfl
  | cons hhead _ ih => exact List.mapM_cons_eq_ok.2 ⟨_, _, hhead, ih, rfl⟩

theorem List.exists_mapM_eq_ok {f : α → Except ε β} {as : List α} (h : ∀ a ∈ as, ∃ b, f a = .ok b) :
    ∃ bs, as.mapM f = .ok bs := by
  induction as with
  | nil => exact ⟨[], rfl⟩
  | cons a as ih =>
      rw [List.forall_mem_cons] at h
      obtain ⟨b, hhead⟩ := h.1
      obtain ⟨bs, htail⟩ := ih h.2
      exact ⟨b :: bs, List.mapM_cons_eq_ok.2 ⟨b, bs, hhead, htail, rfl⟩⟩

theorem List.Forall₂.exists_of_mem_left {related : α → β → Prop} {as : List α} {bs : List β}
    (h : List.Forall₂ related as bs) {a : α} (ha : a ∈ as) : ∃ b ∈ bs, related a b := by
  induction h with
  | nil => cases ha
  | @cons _ b _ _ hhead _ ih =>
      rcases List.mem_cons.1 ha with rfl | ha
      · exact ⟨b, List.mem_cons_self, hhead⟩
      · obtain ⟨b, hb, hrelated⟩ := ih ha
        exact ⟨b, List.mem_cons_of_mem _ hb, hrelated⟩

/-- What related lists have at one position is related. -/
theorem List.Forall₂.exists_getElem? {related : α → β → Prop} {as : List α} {bs : List β}
    (h : List.Forall₂ related as bs) {j : Nat} {b : β} (hb : bs[j]? = some b) :
    ∃ a, as[j]? = some a ∧ related a b := by
  induction h generalizing j with
  | nil => cases hb
  | @cons a _ _ _ hhead _ ih =>
      cases j with
      | zero =>
          cases hb
          exact ⟨a, rfl, hhead⟩
      | succ j => exact ih hb

theorem List.findIdx?_eq_some_iff_isLeast {as : List α} {p : α → Bool} {n : Nat} :
    as.findIdx? p = some n ↔ IsLeast {j | ∃ a, as[j]? = some a ∧ p a = true} n := by
  rw [List.findIdx?_eq_some_iff_getElem]
  constructor
  · rintro ⟨hlt, hfound, hbefore⟩
    refine ⟨⟨_, List.getElem?_eq_getElem hlt, hfound⟩, ?_⟩
    rintro j ⟨a, ha, hpa⟩
    obtain ⟨hj, rfl⟩ := List.getElem?_eq_some_iff.1 ha
    exact Nat.not_lt.1 fun hearlier => hbefore j hearlier hpa
  · rintro ⟨⟨a, ha, hpa⟩, hleast⟩
    obtain ⟨hlt, rfl⟩ := List.getElem?_eq_some_iff.1 ha
    refine ⟨hlt, hpa, ?_⟩
    intro j hj hpj
    exact Nat.not_le.2 hj (hleast ⟨_, List.getElem?_eq_getElem _, hpj⟩)

end

namespace LedgerTx

variable {keys : List Pubkey} {key : Pubkey} {i : Nat}

/-- A byte is the first place at which a table has a key. -/
def IsFirstPlace (keys : List Pubkey) (key : Pubkey) (place : UInt8) : Prop :=
  IsLeast {j | keys[j]? = some key} place.toNat

theorem idxOf?_eq_some_iff_isLeast {n : Nat} :
    keys.idxOf? key = some n ↔ IsLeast {j | keys[j]? = some key} n := by
  rw [List.idxOf?, List.findIdx?_eq_some_iff_isLeast]
  simp only [beq_iff_eq, exists_eq_right]

theorem tableIndex?_eq_some_iff (htable : keys.length ≤ 256) {place : UInt8} :
    tableIndex? keys key = some place ↔ IsFirstPlace keys key place := by
  rw [tableIndex?, Option.map_eq_some_iff, IsFirstPlace, ← idxOf?_eq_some_iff_isLeast]
  constructor
  · rintro ⟨n, hn, rfl⟩
    obtain ⟨hlt, -⟩ := List.idxOf?_eq_some_iff.1 hn
    have hplace : (UInt8.ofNat n).toNat = n := UInt8.toNat_ofNat_of_lt' (Nat.lt_of_lt_of_le hlt htable)
    rw [hplace, hn]
  · intro h
    exact ⟨_, h, UInt8.ofNat_toNat⟩

theorem tableIndex?_eq_none_iff : tableIndex? keys key = none ↔ key ∉ keys := by
  rw [tableIndex?, Option.map_eq_none_iff, List.idxOf?_eq_none_iff]

theorem IsFirstPlace.mem {place : UInt8} (h : IsFirstPlace keys key place) : key ∈ keys :=
  List.mem_of_getElem? h.1

theorem getElem?_of_tableIndex? {place : UInt8} (htable : keys.length ≤ 256)
    (h : tableIndex? keys key = some place) : keys[place.toNat]? = some key :=
  ((tableIndex?_eq_some_iff htable).1 h).1

theorem exists_tableIndex?_eq_some (h : key ∈ keys) : ∃ place, tableIndex? keys key = some place :=
  Option.ne_none_iff_exists'.1 fun hnone => tableIndex?_eq_none_iff.1 hnone h

/-- The places are in the table, and the keys there are the given ones, in their order. -/
def Selects (keys : List Pubkey) (places : Bytes) (selected : List Pubkey) : Prop :=
  places.map (fun i => keys[i.toNat]?) = selected.map some

namespace Selects

variable {places : Bytes} {selected : List Pubkey}

theorem nil : Selects keys [] [] :=
  rfl

theorem cons {place : UInt8} (hhead : keys[place.toNat]? = some key) (htail : Selects keys places selected) :
    Selects keys (place :: places) (key :: selected) := by
  unfold Selects
  rw [List.map_cons, List.map_cons, hhead, htail]

theorem exists_of_cons (h : Selects keys places (key :: selected)) :
    ∃ place more, places = place :: more ∧ keys[place.toNat]? = some key ∧ Selects keys more selected := by
  cases places with
  | nil => cases h
  | cons place more =>
      obtain ⟨hhead, htail⟩ := List.cons.inj h
      exact ⟨place, more, rfl, hhead, htail⟩

theorem append {more : Bytes} {others : List Pubkey} (h : Selects keys places selected)
    (hmore : Selects keys more others) : Selects keys (places ++ more) (selected ++ others) := by
  unfold Selects
  rw [List.map_append, List.map_append, h, hmore]

theorem of_map {α : Type} {entries : List α} {place : α → UInt8} {name : α → Pubkey}
    (h : ∀ entry ∈ entries, keys[(place entry).toNat]? = some (name entry)) :
    Selects keys (entries.map place) (entries.map name) := by
  unfold Selects
  rw [List.map_map, List.map_map]
  exact List.map_congr_left h

theorem filterMap_eq (h : Selects keys places selected) :
    places.filterMap (fun i => keys[i.toNat]?) = selected := by
  have hmap : places.filterMap (fun i => keys[i.toNat]?) =
      (places.map fun i => keys[i.toNat]?).filterMap id := by
    rw [List.filterMap_map]
    rfl
  rw [hmap, h, List.filterMap_map]
  exact List.filterMap_some

theorem length_eq (h : Selects keys places selected) : places.length = selected.length := by
  have hlength := congrArg List.length h
  rwa [List.length_map, List.length_map] at hlength

theorem lt_length (h : Selects keys places selected) {place : UInt8} (hplace : place ∈ places) :
    place.toNat < keys.length := by
  have hmem : keys[place.toNat]? ∈ selected.map some := by
    rw [← h]
    exact List.mem_map_of_mem hplace
  obtain ⟨key, -, hkey⟩ := List.mem_map.1 hmem
  exact (List.getElem?_eq_some_iff.1 hkey.symm).1

end Selects

namespace CompiledInstruction

/-- Read through a table of keys, a compiled instruction is the given one. What is asked of the accounts
is not kept in it. -/
structure Denotes (keys : List Pubkey) (compiled : CompiledInstruction) (instruction : Instruction) :
    Prop where
  program : compiled.programKey? keys = some instruction.program
  accounts : Selects keys compiled.accounts (instruction.accounts.map AccountMeta.key)
  data : compiled.data = instruction.data

variable {compiled : CompiledInstruction} {instruction : Instruction}

theorem Denotes.program_toNat_eq_iff (h : compiled.Denotes keys instruction) (hnodup : keys.Nodup)
    (hkey : keys[i]? = some key) : compiled.program.toNat = i ↔ instruction.program = key := by
  have hprogram : keys[compiled.program.toNat]? = some instruction.program := h.program
  have hlt : compiled.program.toNat < keys.length := (List.getElem?_eq_some_iff.1 hprogram).1
  rw [← List.getElem?_inj hlt hnodup, hprogram, hkey, Option.some.injEq]

end CompiledInstruction

theorem AccountMeta.compile_eq_ok {account : AccountMeta} {place : UInt8} :
    account.compile keys = .ok place ↔ tableIndex? keys account.key = some place := by
  unfold AccountMeta.compile
  cases tableIndex? keys account.key with
  | none => exact iff_of_false nofun nofun
  | some i => rw [Except.ok.injEq, Option.some.injEq]

theorem checkLength_eq_ok {n : Nat} {u : Unit} : checkLength n = .ok u ↔ n ≤ CompactLength.limit := by
  unfold checkLength
  split_ifs with h
  · exact iff_of_false nofun (by omega)
  · exact iff_of_true rfl (by omega)

namespace Instruction

theorem checkTable_eq_ok {u : Unit} : checkTable keys = .ok u ↔ keys.length ≤ 256 := by
  unfold checkTable
  split_ifs with h
  · exact iff_of_false nofun (by omega)
  · exact iff_of_true rfl (by omega)

theorem selects_of_mapM_compile {accounts : List AccountMeta} {places : Bytes} (htable : keys.length ≤ 256)
    (h : accounts.mapM (AccountMeta.compile keys) = .ok places) :
    Selects keys places (accounts.map AccountMeta.key) := by
  have hpairs := List.forall₂_of_mapM_eq_ok h
  clear h
  induction hpairs with
  | nil => exact Selects.nil
  | cons hhead _ ih =>
      exact Selects.cons (getElem?_of_tableIndex? htable (AccountMeta.compile_eq_ok.1 hhead)) ih

theorem compileWithin_eq_ok {instruction : Instruction} {compiled : CompiledInstruction} :
    instruction.compileWithin keys = .ok compiled ↔
      (instruction.accounts.length ≤ CompactLength.limit ∧ instruction.data.length ≤ CompactLength.limit) ∧
        tableIndex? keys instruction.program = some compiled.program ∧
        instruction.accounts.mapM (AccountMeta.compile keys) = .ok compiled.accounts ∧
        compiled.data = instruction.data := by
  unfold compileWithin
  simp only [Except.bind_eq_ok, checkLength_eq_ok, exists_const, and_assoc]
  refine and_congr_right fun _ => and_congr_right fun _ => ?_
  cases tableIndex? keys instruction.program with
  | none => exact iff_of_false nofun nofun
  | some program =>
      refine ⟨?_, ?_⟩
      · intro h
        obtain ⟨places, hplaces, h⟩ := Except.bind_eq_ok.1 h
        cases h
        exact ⟨rfl, hplaces, rfl⟩
      · rintro ⟨hprogram, hplaces, hdata⟩
        refine Except.bind_eq_ok.2 ⟨_, hplaces, ?_⟩
        cases hprogram
        rw [← hdata]
        rfl

theorem compileAll_eq_ok {instructions : List Instruction} {compiled : List CompiledInstruction} :
    compileAll keys instructions = .ok compiled ↔
      keys.length ≤ 256 ∧ instructions.length ≤ CompactLength.limit ∧
        instructions.mapM (compileWithin keys) = .ok compiled := by
  unfold compileAll
  simp only [Except.bind_eq_ok, checkTable_eq_ok, checkLength_eq_ok, exists_const]

/-- What an instruction has to be for a table, in order to be compiled against it. -/
structure CompilesWithin (keys : List Pubkey) (instruction : Instruction) : Prop where
  accounts : instruction.accounts.length ≤ CompactLength.limit
  data : instruction.data.length ≤ CompactLength.limit
  program_mem : instruction.program ∈ keys
  accounts_mem : ∀ account ∈ instruction.accounts, account.key ∈ keys

theorem CompilesWithin.exists_compileWithin {instruction : Instruction}
    (h : instruction.CompilesWithin keys) : ∃ compiled, instruction.compileWithin keys = .ok compiled := by
  obtain ⟨program, hprogram⟩ := exists_tableIndex?_eq_some h.program_mem
  obtain ⟨places, hplaces⟩ : ∃ places, instruction.accounts.mapM (AccountMeta.compile keys) = .ok places := by
    apply List.exists_mapM_eq_ok
    intro account haccount
    obtain ⟨place, hplace⟩ := exists_tableIndex?_eq_some (h.accounts_mem account haccount)
    exact ⟨place, AccountMeta.compile_eq_ok.2 hplace⟩
  exact ⟨⟨program, places, instruction.data⟩,
    compileWithin_eq_ok.2 ⟨⟨h.accounts, h.data⟩, hprogram, hplaces, rfl⟩⟩

theorem exists_compileAll {instructions : List Instruction} (htable : keys.length ≤ 256)
    (hcount : instructions.length ≤ CompactLength.limit)
    (h : ∀ instruction ∈ instructions, instruction.CompilesWithin keys) :
    ∃ compiled, compileAll keys instructions = .ok compiled := by
  obtain ⟨compiled, hcompiled⟩ :=
    List.exists_mapM_eq_ok fun instruction hmem => (h instruction hmem).exists_compileWithin
  exact ⟨compiled, compileAll_eq_ok.2 ⟨htable, hcount, hcompiled⟩⟩

theorem denotes_of_compileWithin {instruction : Instruction} {compiled : CompiledInstruction}
    (htable : keys.length ≤ 256) (h : instruction.compileWithin keys = .ok compiled) :
    compiled.Denotes keys instruction := by
  obtain ⟨-, hprogram, haccounts, hdata⟩ := compileWithin_eq_ok.1 h
  exact ⟨getElem?_of_tableIndex? htable hprogram, selects_of_mapM_compile htable haccounts, hdata⟩

/-- What is compiled against a table is read back through it, instruction by instruction. -/
theorem denotes_of_compileAll {instructions : List Instruction} {compiled : List CompiledInstruction}
    (h : compileAll keys instructions = .ok compiled) :
    List.Forall₂ (CompiledInstruction.Denotes keys) compiled instructions := by
  obtain ⟨htable, -, h⟩ := compileAll_eq_ok.1 h
  apply (List.forall₂_of_mapM_eq_ok h).imp
  intro compiled instruction hone
  exact denotes_of_compileWithin htable hone

end Instruction

theorem any_program_iff {instructions : List Instruction} {compiled : List CompiledInstruction}
    (h : List.Forall₂ (CompiledInstruction.Denotes keys) compiled instructions)
    (hnodup : keys.Nodup) (hkey : keys[i]? = some key) :
    (compiled.any fun instruction => instruction.program.toNat == i) = true ↔
      Demand.Calls instructions key := by
  unfold Demand.Calls
  induction h with
  | nil => simp
  | cons hhead _ ih =>
      rw [List.any_cons, Bool.or_eq_true, ih, beq_iff_eq, hhead.program_toNat_eq_iff hnodup hkey,
        List.exists_mem_cons_iff]

/-- The table that the instructions are read through need not be the one in the message, which may hold
only the first keys of it. -/
theorem Message.not_isDemoted_iff {m : Message} {instructions : List Instruction}
    (h : List.Forall₂ (CompiledInstruction.Denotes keys) m.instructions instructions)
    (hnodup : keys.Nodup) (hkey : keys[i]? = some key) :
    (!m.isDemoted i) = true ↔
      ¬Demand.Calls instructions key ∨ SystemProgram.upgradeableLoader ∈ m.accountKeys := by
  have hcalled : m.isCalled i = true ↔ Demand.Calls instructions key := any_program_iff h hnodup hkey
  rw [Bool.not_eq_true', ← Bool.not_eq_true, isDemoted_iff, Demotes, ← isCalled_iff, hcalled, not_and_or, not_not]

end LedgerTx
