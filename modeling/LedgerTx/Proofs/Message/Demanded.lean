import LedgerTx.Proofs.Message.Canonical
import LedgerTx.Proofs.Message.Resolved
import Mathlib.Data.List.Perm.Basic

/-! What the layout of a compiled message depends on. Instructions that demand the same of every key leave
the same requests once these are merged, whatever their order and number, and the header, the table and the
lookups are computed from the merged requests alone. The flags do not tell everything that is demanded: an
account that is passed to be read has none set, and still has a place. -/

namespace LedgerTx

variable {a b : List Instruction} {payer : Option Pubkey} {requests others : Requests}

/-- The instructions of two lists, with the payer, name the same keys, call the same ones, and ask for the
same signatures and the same writing. -/
structure Demand.Same (payer : Option Pubkey) (a b : List Instruction) : Prop where
  names : ∀ key, Demand.Names a payer key ↔ Demand.Names b payer key
  signs : ∀ key, Demand.Signs a payer key ↔ Demand.Signs b payer key
  writes : ∀ key, Demand.Writes a payer key ↔ Demand.Writes b payer key
  calls : ∀ key, Demand.Calls a key ↔ Demand.Calls b key

theorem Demand.Same.symm (h : Demand.Same payer a b) : Demand.Same payer b a where
  names key := (h.names key).symm
  signs key := (h.signs key).symm
  writes key := (h.writes key).symm
  calls key := (h.calls key).symm

namespace Instruction

/-- A call of the same program with the same accounts in some order. -/
def SameCall (x y : Instruction) : Prop :=
  x.program = y.program ∧ x.accounts.Perm y.accounts

/-- Every instruction of either list is called in the other one too, however often, and wherever it stands. -/
structure Rearranged (a b : List Instruction) : Prop where
  forth : ∀ x ∈ a, ∃ y ∈ b, x.SameCall y
  back : ∀ y ∈ b, ∃ x ∈ a, x.SameCall y

variable {x y : Instruction}

theorem SameCall.exists_account_iff (h : x.SameCall y) (asked : AccountMeta → Prop) :
    (∃ account ∈ x.accounts, asked account) ↔ ∃ account ∈ y.accounts, asked account :=
  exists_congr fun _ => and_congr_left fun _ => h.2.mem_iff

/-- What is the same of two calls that are the same is found in both lists. -/
theorem Rearranged.exists_iff (h : Rearranged a b) {property : Instruction → Prop}
    (hproperty : ∀ x y : Instruction, x.SameCall y → (property x ↔ property y)) :
    (∃ x ∈ a, property x) ↔ ∃ y ∈ b, property y := by
  constructor
  · intro hfound
    obtain ⟨x, hx, hholds⟩ := hfound
    obtain ⟨y, hy, hsame⟩ := h.forth x hx
    exact ⟨y, hy, (hproperty x y hsame).1 hholds⟩
  · intro hfound
    obtain ⟨y, hy, hholds⟩ := hfound
    obtain ⟨x, hx, hsame⟩ := h.back y hy
    exact ⟨x, hx, (hproperty x y hsame).2 hholds⟩

theorem Rearranged.same_demand (h : Rearranged a b) (payer : Option Pubkey) : Demand.Same payer a b where
  names key := by
    refine or_congr Iff.rfl (h.exists_iff fun x y hsame => ?_)
    rw [hsame.1, hsame.exists_account_iff]
  signs key := or_congr Iff.rfl (h.exists_iff fun _ _ hsame => hsame.exists_account_iff _)
  writes key := or_congr Iff.rfl (h.exists_iff fun _ _ hsame => hsame.exists_account_iff _)
  calls key := h.exists_iff fun x y hsame => by rw [hsame.1]

end Instruction

namespace Requests

/-- Requests that ascend are told by their members. -/
theorem Ascending.eq_of_mem_iff (h : requests.Ascending) (hothers : others.Ascending)
    (hmem : ∀ request, request ∈ requests ↔ request ∈ others) : requests = others := by
  have hnodup : requests.Nodup := h.nodup_keys.of_map
  have hperm : requests.Perm others :=
    (List.perm_ext_iff_of_nodup hnodup hothers.nodup_keys.of_map).2 hmem
  refine hperm.eq_of_pairwise ?_ h hothers
  intro x y _ _ hlt hgt
  exact absurd hgt (Std.OrientedCmp.not_lt_of_lt hlt)

/-- What is asked of a key is the same, if the same is demanded of it. -/
theorem Faithful.access_eq {key : Pubkey} {access other : Access} (h : Faithful a payer requests)
    (hothers : Faithful b payer others) (hsame : Demand.Same payer a b) (hmem : (key, access) ∈ requests)
    (hother : (key, other) ∈ others) : access = other := by
  obtain ⟨hsigner, hwritable, hinvoked⟩ := h key access hmem
  obtain ⟨hsigner', hwritable', hinvoked'⟩ := hothers key other hother
  have hsigner : access.signer = other.signer := by
    rw [Bool.eq_iff_iff, hsigner, hsigner', hsame.signs]
  have hwritable : access.writable = other.writable := by
    rw [Bool.eq_iff_iff, hwritable, hwritable', hsame.writes]
  have hinvoked : access.invoked = other.invoked := by
    rw [Bool.eq_iff_iff, hinvoked, hinvoked', hsame.calls]
  cases access
  cases other
  simp_all

theorem mem_merged_of_same (h : Demand.Same payer a b) {request : Pubkey × Access}
    (hmem : request ∈ merged a payer) : request ∈ merged b payer := by
  obtain ⟨key, access⟩ := request
  have hnames : Demand.Names a payer key := mem_keys_merged.1 (List.mem_map_of_mem hmem)
  obtain ⟨⟨_, other⟩, hother, rfl⟩ := List.mem_map.1 (mem_keys_merged.2 ((h.names key).1 hnames))
  rw [(faithful_merged a payer).access_eq (faithful_merged b payer) h hmem hother]
  exact hother

theorem merged_eq_of_same (h : Demand.Same payer a b) : merged a payer = merged b payer := by
  apply (ascending_merged a payer).eq_of_mem_iff (ascending_merged b payer)
  intro request
  exact ⟨mem_merged_of_same h, mem_merged_of_same h.symm⟩

end Requests

/-- A layout describes one header and one table. -/
theorem Layout.Describes.unique {layout : Layout} {m n : Message} (hm : layout.Describes m)
    (hn : layout.Describes n) : m.header = n.header ∧ m.accountKeys = n.accountKeys := by
  have hheader : Except.ok m.header = Except.ok n.header := hm.header.symm.trans hn.header
  exact ⟨Except.ok.inj hheader, hm.keys.trans hn.keys.symm⟩

theorem Message.layout_eq_of_same {first second : Hash} {m n : Message} (h : Demand.Same payer a b)
    (hm : compile a payer first = .ok m) (hn : compile b payer second = .ok n) :
    m.header = n.header ∧ m.accountKeys = n.accountKeys := by
  have hdescribes := (compile_eq_ok hm).1
  rw [Requests.merged_eq_of_same h] at hdescribes
  exact hdescribes.unique (compile_eq_ok hn).1

theorem V0Message.layout_eq_of_same {payer : Pubkey} {tables : List LookupTable} {first second : Hash}
    {m n : V0Message} (h : Demand.Same (some payer) a b) (hm : compile payer a tables first = .ok m)
    (hn : compile payer b tables second = .ok n) :
    m.header = n.header ∧ m.accountKeys = n.accountKeys ∧ m.lookups = n.lookups := by
  obtain ⟨taken, left, htaken, hassembled⟩ := takeLookups_of_compile hm
  obtain ⟨taken', left', htaken', hassembled'⟩ := takeLookups_of_compile hn
  rw [Requests.merged_eq_of_same h, htaken'] at htaken
  cases htaken
  obtain ⟨hheader, hkeys⟩ := hassembled.describes.unique hassembled'.describes
  exact ⟨hheader, hkeys, hassembled.lookups.trans hassembled'.lookups.symm⟩

/-- The layout of a compiled message depends only on what is demanded, and so neither on the order of the
instructions and of their accounts nor on repetitions. -/
theorem layout_eq_of_same_demand (a b : List Instruction) (first second : Hash) :
    (∀ (payer : Pubkey) (tables : List LookupTable) (m n : V0Message), Demand.Same (some payer) a b →
      V0Message.compile payer a tables first = .ok m → V0Message.compile payer b tables second = .ok n →
        m.header = n.header ∧ m.accountKeys = n.accountKeys ∧ m.lookups = n.lookups) ∧
    (∀ (payer : Option Pubkey) (m n : Message), Demand.Same payer a b →
      Message.compile a payer first = .ok m → Message.compile b payer second = .ok n →
        m.header = n.header ∧ m.accountKeys = n.accountKeys) ∧
    ∀ payer : Option Pubkey, Instruction.Rearranged a b → Demand.Same payer a b :=
  ⟨fun _ _ _ _ h hm hn => V0Message.layout_eq_of_same h hm hn,
    fun _ _ _ h hm hn => Message.layout_eq_of_same h hm hn, fun payer h => h.same_demand payer⟩

/-- The instructions change places, the second has its accounts in another order, and the first comes twice. -/
theorem layout_eq_of_same_demand_rearranged :
    let key (n : UInt8) : Pubkey := ⟨List.replicate 32 n, rfl⟩
    let first : Instruction := ⟨key 5, [⟨key 9, false, false⟩, ⟨key 3, false, true⟩], []⟩
    let second : Instruction := ⟨key 9, [⟨key 3, false, false⟩, ⟨key 7, true, false⟩], [8]⟩
    let turned : Instruction := ⟨key 9, [⟨key 7, true, false⟩, ⟨key 3, false, false⟩], []⟩
    let tables : List LookupTable := [⟨key 20, [key 4, key 3]⟩]
    let compiled (instructions : List CompiledInstruction) : V0Message :=
      ⟨⟨⟨2, 1, 2⟩, [key 1, key 7, key 5, key 9], Fixed.zero, instructions⟩, [⟨key 20, [1], []⟩]⟩
    let m := compiled [⟨2, [3, 4], []⟩, ⟨3, [4, 1], [8]⟩]
    let n := compiled [⟨3, [1, 4], []⟩, ⟨2, [3, 4], []⟩, ⟨2, [3, 4], []⟩]
    Demand.Same (some (key 1)) [first, second] [turned, first, first] ∧
      V0Message.compile (key 1) [first, second] tables Fixed.zero = .ok m ∧
      V0Message.compile (key 1) [turned, first, first] tables Fixed.zero = .ok n ∧
      m.header = n.header ∧ m.accountKeys = n.accountKeys ∧ m.lookups = n.lookups := by
  intro key first second turned tables compiled m n
  obtain ⟨hlayout, -, hsame⟩ :=
    layout_eq_of_same_demand [first, second] [turned, first, first] Fixed.zero Fixed.zero
  have hturned : second.SameCall turned := ⟨rfl, List.Perm.swap _ _ []⟩
  have hrearranged : Instruction.Rearranged [first, second] [turned, first, first] := by
    constructor
    · simp [Instruction.SameCall, hturned.1, hturned.2]
    · simp [Instruction.SameCall, hturned.1, hturned.2]
  have hdemand := hsame (some (key 1)) hrearranged
  have hm : V0Message.compile (key 1) [first, second] tables Fixed.zero = .ok m := by
    decide +kernel
  have hn : V0Message.compile (key 1) [turned, first, first] tables Fixed.zero = .ok n := by
    decide +kernel
  exact ⟨hdemand, hm, hn, hlayout _ tables m n hdemand hm hn⟩

/-- Beside the same calls and the same flags of every key, one list passes an account to be read, and the other
one does not. The account has a place in the one table only. -/
theorem exists_same_flags_other_layout :
    let key (n : UInt8) : Pubkey := ⟨List.replicate 32 n, rfl⟩
    let bare : List Instruction := [⟨key 5, [], []⟩]
    let reading : List Instruction := [⟨key 5, [⟨key 3, false, false⟩], []⟩]
    let m : Message := ⟨⟨1, 0, 1⟩, [key 9, key 5], Fixed.zero, [⟨1, [], []⟩]⟩
    let n : Message := ⟨⟨1, 0, 2⟩, [key 9, key 3, key 5], Fixed.zero, [⟨2, [1], []⟩]⟩
    (∀ k, Demand.Calls bare k ↔ Demand.Calls reading k) ∧
      (∀ k, Demand.Signs bare none k ↔ Demand.Signs reading none k) ∧
      (∀ k, Demand.Writes bare none k ↔ Demand.Writes reading none k) ∧
      V0Message.compile (key 9) bare [] Fixed.zero = .ok ⟨m, []⟩ ∧
      V0Message.compile (key 9) reading [] Fixed.zero = .ok ⟨n, []⟩ ∧
      Message.compile bare (some (key 9)) Fixed.zero = .ok m ∧
      Message.compile reading (some (key 9)) Fixed.zero = .ok n ∧
      m.header ≠ n.header ∧ m.accountKeys ≠ n.accountKeys := by
  intro key bare reading m n
  have hcalls : ∀ k, Demand.Calls bare k ↔ Demand.Calls reading k := by
    intro k
    simp [Demand.Calls, bare, reading]
  have hsigns : ∀ k, Demand.Signs bare none k ↔ Demand.Signs reading none k := by
    intro k
    simp [Demand.Signs, bare, reading]
  have hwrites : ∀ k, Demand.Writes bare none k ↔ Demand.Writes reading none k := by
    intro k
    simp [Demand.Writes, bare, reading]
  refine ⟨hcalls, hsigns, hwrites, ?_, ?_, ?_, ?_, by decide, by decide⟩
  all_goals decide +kernel

end LedgerTx
