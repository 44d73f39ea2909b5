import LedgerTx.AccountTable
import Mathlib.Data.List.Nodup

/-! Merged requests hold every key once, ascending, with what is demanded of it: a flag is set as soon as
one instruction or the payer asks for it. What is demanded is said without merging, by `Demand`; the
merged requests are `Faithful` to it, and so is whatever is left of them when keys are taken out. -/

namespace LedgerTx

namespace Demand

variable (instructions : List Instruction) (payer : Option Pubkey) (key : Pubkey)

/-- The key is the payer's, a program's or an account's. -/
def Names : Prop :=
  payer = some key ∨
    ∃ ix ∈ instructions, ix.program = key ∨ ∃ account ∈ ix.accounts, account.key = key

/-- The key has to sign: it is the payer's, or some instruction asks for its signature. -/
def Signs : Prop :=
  payer = some key ∨
    ∃ ix ∈ instructions, ∃ account ∈ ix.accounts, account.key = key ∧ account.signer = true

/-- The key has to be written: it is the payer's, or some instruction asks to write it. -/
def Writes : Prop :=
  payer = some key ∨
    ∃ ix ∈ instructions, ∃ account ∈ ix.accounts, account.key = key ∧ account.writable = true

/-- Some instruction calls the key as its program. -/
def Calls : Prop := ∃ ix ∈ instructions, ix.program = key

variable {instructions payer key}

theorem Signs.names (h : Signs instructions payer key) : Names instructions payer key := by
  rcases h with hpayer | ⟨ix, hix, account, haccount, hkey, -⟩
  · exact Or.inl hpayer
  · exact Or.inr ⟨ix, hix, Or.inr ⟨account, haccount, hkey⟩⟩

theorem Writes.names (h : Writes instructions payer key) : Names instructions payer key := by
  rcases h with hpayer | ⟨ix, hix, account, haccount, hkey, -⟩
  · exact Or.inl hpayer
  · exact Or.inr ⟨ix, hix, Or.inr ⟨account, haccount, hkey⟩⟩

end Demand

theorem Bytes.compare_eq_lt_iff {a b : Bytes} : compare a b = .lt ↔ a < b := by
  induction a generalizing b with
  | nil =>
      cases b with
      | nil => exact iff_of_false nofun (List.lt_irrefl _)
      | cons y ys => exact iff_of_true rfl (List.nil_lt_cons _ _)
  | cons x xs ih =>
      cases b with
      | nil => exact iff_of_false nofun (List.not_lt_nil _)
      | cons y ys =>
          rw [List.compare_cons_cons, List.cons_lt_cons_iff, Ordering.then_eq_lt, Std.compare_eq_lt,
            Std.compare_eq_iff_eq, ih]

theorem Fixed.compare_eq_lt_iff {kind : Kind} {a b : Fixed kind} :
    compare a b = .lt ↔ a.bytes < b.bytes := by
  rw [Fixed.compare_def, Bytes.compare_eq_lt_iff]

/-- A flag of requests that is set by merging as soon as it is set on one side. -/
def Access.Joins (flag : Access → Bool) : Prop :=
  ∀ a b : Access, flag (a.merge b) = (flag a || flag b)

namespace Requests

variable {requests : Requests} {flag : Access → Bool} {key k : Pubkey} {access : Access}

/-- Some request for a key has a flag. -/
def Asks (requests : Requests) (flag : Access → Bool) (key : Pubkey) : Prop :=
  ∃ access, (key, access) ∈ requests ∧ flag access = true

/-- The keys ascend, so that none is there twice. -/
def Ascending (requests : Requests) : Prop :=
  requests.Pairwise fun a b => compare a.1 b.1 = .lt

theorem asks_nil : ¬Asks [] flag k := by
  simp [Asks]

theorem asks_cons {rest : Requests} :
    Asks ((key, access) :: rest) flag k ↔ (key = k ∧ flag access = true) ∨ rest.Asks flag k := by
  refine ⟨?_, ?_⟩
  · intro h
    obtain ⟨a, hmem, hflag⟩ := h
    rcases List.mem_cons.1 hmem with heq | hmem
    · obtain ⟨rfl, rfl⟩ := Prod.mk.inj heq
      exact Or.inl ⟨rfl, hflag⟩
    · exact Or.inr ⟨a, hmem, hflag⟩
  · intro h
    rcases h with ⟨rfl, hflag⟩ | ⟨a, hmem, hflag⟩
    · exact ⟨access, List.mem_cons_self, hflag⟩
    · exact ⟨a, List.mem_cons_of_mem _ hmem, hflag⟩

theorem asks_append {more : Requests} :
    Asks (requests ++ more) flag k ↔ requests.Asks flag k ∨ more.Asks flag k := by
  simp only [Asks, List.mem_append, or_and_right, exists_or]

/-- One more request is asked for along with those that were merged before. -/
theorem asks_add (hflag : Access.Joins flag) :
    (requests.add key access).Asks flag k ↔
      (key = k ∧ flag access = true) ∨ requests.Asks flag k := by
  induction requests with
  | nil => rw [add, asks_cons]
  | cons request rest ih =>
      obtain ⟨k', a⟩ := request
      rw [add]
      cases hcompare : compare key k' with
      | lt => rw [asks_cons]
      | eq =>
          have heq : key = k' := Std.LawfulEqOrd.eq_of_compare hcompare
          subst heq
          simp only [asks_cons, hflag a access, Bool.or_eq_true]
          tauto
      | gt =>
          simp only [asks_cons, ih]
          exact or_left_comm

theorem mem_add {request : Pubkey × Access} (h : request ∈ requests.add key access) :
    request.1 = key ∨ ∃ a, (request.1, a) ∈ requests := by
  obtain ⟨k', a⟩ := request
  have hasks : (requests.add key access).Asks (fun _ => true) k' := ⟨a, h, rfl⟩
  rcases (asks_add fun _ _ => rfl).1 hasks with ⟨rfl, -⟩ | ⟨b, hmem, -⟩
  · exact Or.inl rfl
  · exact Or.inr ⟨b, hmem⟩

theorem Ascending.add (h : requests.Ascending) (key : Pubkey) (access : Access) :
    (requests.add key access).Ascending := by
  induction requests with
  | nil => exact List.pairwise_singleton _ _
  | cons request rest ih =>
      obtain ⟨k', a⟩ := request
      obtain ⟨hhead, htail⟩ := List.pairwise_cons.1 h
      rw [Requests.add]
      cases hcompare : compare key k' with
      | lt =>
          refine List.pairwise_cons.2 ⟨?_, h⟩
          intro other hmem
          rcases List.mem_cons.1 hmem with rfl | hmem
          · exact hcompare
          · exact Std.TransCmp.lt_trans hcompare (hhead other hmem)
      | eq => exact List.pairwise_cons.2 ⟨hhead, htail⟩
      | gt =>
          refine List.pairwise_cons.2 ⟨?_, ih htail⟩
          intro other hmem
          rcases mem_add hmem with hkey | ⟨b, hmem⟩
          · rw [hkey]
            exact Std.OrientedCmp.lt_of_gt hcompare
          · exact hhead (other.1, b) hmem

/-- What a fold over single requests asks for is what was asked before and what they ask. -/
theorem asks_foldl_add (hflag : Access.Joins flag) (single merged : Requests) :
    Asks (single.foldl (fun requests (key, access) => requests.add key access) merged) flag k ↔
      merged.Asks flag k ∨ single.Asks flag k := by
  induction single generalizing merged with
  | nil => simp [asks_nil]
  | cons request single ih =>
      obtain ⟨key, access⟩ := request
      rw [List.foldl_cons, ih, asks_add hflag, asks_cons]
      tauto

theorem Ascending.foldl_add {merged : Requests} (h : merged.Ascending) (single : Requests) :
    Ascending (single.foldl (fun requests (key, access) => requests.add key access) merged) := by
  induction single generalizing merged with
  | nil => exact h
  | cons request single ih => exact ih (h.add request.1 request.2)

theorem ascending_merged (instructions : List Instruction) (payer : Option Pubkey) :
    (merged instructions payer).Ascending :=
  Ascending.foldl_add List.Pairwise.nil _

theorem asks_merged (hflag : Access.Joins flag) (instructions : List Instruction)
    (payer : Option Pubkey) :
    (merged instructions payer).Asks flag k ↔ (all instructions payer).Asks flag k := by
  rw [merged, asks_foldl_add hflag, or_iff_right asks_nil]

theorem asks_ofPayer {payer : Option Pubkey} :
    (ofPayer payer).Asks flag k ↔ payer = some k ∧ flag ⟨true, true, false⟩ = true := by
  cases payer with
  | none => simp [ofPayer, Asks]
  | some p =>
      change Asks [(p, _)] flag k ↔ _
      rw [asks_cons, or_iff_left asks_nil, Option.some.injEq]

theorem asks_ofInstruction {instruction : Instruction} :
    (ofInstruction instruction).Asks flag k ↔
      (instruction.program = k ∧ flag ⟨false, false, true⟩ = true) ∨
        ∃ account ∈ instruction.accounts, account.key = k ∧
          flag ⟨account.signer, account.writable, false⟩ = true := by
  rw [ofInstruction, asks_cons]
  apply or_congr Iff.rfl
  refine ⟨?_, ?_⟩
  · intro h
    obtain ⟨a, hmem, hflag⟩ := h
    obtain ⟨account, haccount, heq⟩ := List.mem_map.1 hmem
    obtain ⟨rfl, rfl⟩ := Prod.mk.inj heq
    exact ⟨account, haccount, rfl, hflag⟩
  · intro h
    obtain ⟨account, haccount, rfl, hflag⟩ := h
    exact ⟨_, List.mem_map_of_mem haccount, hflag⟩

theorem asks_all {instructions : List Instruction} {payer : Option Pubkey} :
    (all instructions payer).Asks flag k ↔
      (∃ ix ∈ instructions, (ofInstruction ix).Asks flag k) ∨ (ofPayer payer).Asks flag k := by
  rw [all, asks_append]
  refine or_congr ?_ Iff.rfl
  simp only [Asks, List.mem_flatMap]
  tauto

theorem asks_all_signer {instructions : List Instruction} {payer : Option Pubkey} :
    (all instructions payer).Asks Access.signer k ↔ Demand.Signs instructions payer k := by
  simp [asks_all, asks_ofInstruction, asks_ofPayer, Demand.Signs, or_comm]

theorem asks_all_writable {instructions : List Instruction} {payer : Option Pubkey} :
    (all instructions payer).Asks Access.writable k ↔ Demand.Writes instructions payer k := by
  simp [asks_all, asks_ofInstruction, asks_ofPayer, Demand.Writes, or_comm]

theorem asks_all_invoked {instructions : List Instruction} {payer : Option Pubkey} :
    (all instructions payer).Asks Access.invoked k ↔ Demand.Calls instructions k := by
  simp [asks_all, asks_ofInstruction, asks_ofPayer, Demand.Calls]

theorem asks_all_true {instructions : List Instruction} {payer : Option Pubkey} :
    (all instructions payer).Asks (fun _ => true) k ↔ Demand.Names instructions payer k := by
  simp [asks_all, asks_ofInstruction, asks_ofPayer, Demand.Names, or_comm]

/-! ### Merged requests -/

theorem mem_keys_iff_asks : k ∈ requests.map Prod.fst ↔ requests.Asks (fun _ => true) k := by
  simp [Asks]

theorem mem_keysWith {wanted : Access → Bool} : k ∈ requests.keysWith wanted ↔ requests.Asks wanted k := by
  simp [keysWith, Asks]

theorem keysWith_sublist (wanted : Access → Bool) (requests : Requests) :
    (requests.keysWith wanted).Sublist (requests.map Prod.fst) :=
  List.filter_sublist.map Prod.fst

theorem Ascending.nodup_keys (h : requests.Ascending) : (requests.map Prod.fst).Nodup := by
  refine List.pairwise_map.2 (h.imp ?_)
  intro a b hlt heq
  have hself : compare b.1 b.1 = .eq := Std.ReflCmp.compare_self
  rw [heq, hself] at hlt
  cases hlt

theorem Ascending.nodup_keysWith (h : requests.Ascending) (wanted : Access → Bool) :
    (requests.keysWith wanted).Nodup :=
  h.nodup_keys.sublist (keysWith_sublist wanted requests)

/-- A key is asked for one thing only. -/
theorem Ascending.access_unique (h : requests.Ascending) {a b : Access} (ha : (k, a) ∈ requests)
    (hb : (k, b) ∈ requests) : a = b :=
  (Prod.mk.inj (List.inj_on_of_nodup_map h.nodup_keys ha hb rfl)).2

theorem Ascending.asks_iff (h : requests.Ascending) (hmem : (k, access) ∈ requests) :
    requests.Asks flag k ↔ flag access = true := by
  refine ⟨?_, ?_⟩
  · intro h
    obtain ⟨a, ha, hflag⟩ := h
    rwa [h.access_unique hmem ha]
  · exact fun hflag => ⟨access, hmem, hflag⟩

/-- What is asked of the keys is what instructions and a payer demand of them. -/
def Faithful (instructions : List Instruction) (payer : Option Pubkey) (requests : Requests) : Prop :=
  ∀ key access, (key, access) ∈ requests →
    (access.signer = true ↔ Demand.Signs instructions payer key) ∧
    (access.writable = true ↔ Demand.Writes instructions payer key) ∧
    (access.invoked = true ↔ Demand.Calls instructions key)

theorem faithful_merged (instructions : List Instruction) (payer : Option Pubkey) :
    Faithful instructions payer (merged instructions payer) := by
  intro key access hmem
  have hasc := ascending_merged instructions payer
  refine ⟨?_, ?_, ?_⟩
  · rw [← asks_all_signer, ← asks_merged fun _ _ => rfl, hasc.asks_iff hmem]
  · rw [← asks_all_writable, ← asks_merged fun _ _ => rfl, hasc.asks_iff hmem]
  · rw [← @asks_all_invoked key instructions payer, ← asks_merged fun _ _ => rfl, hasc.asks_iff hmem]

theorem mem_keys_merged {instructions : List Instruction} {payer : Option Pubkey} :
    k ∈ (merged instructions payer).map Prod.fst ↔ Demand.Names instructions payer k := by
  rw [mem_keys_iff_asks, asks_merged fun _ _ => rfl, asks_all_true]

theorem Faithful.sublist {instructions : List Instruction} {payer : Option Pubkey} {left : Requests}
    (h : Faithful instructions payer requests) (hsub : left.Sublist requests) :
    Faithful instructions payer left :=
  fun key access hmem => h key access (hsub.mem hmem)

end Requests

end LedgerTx
