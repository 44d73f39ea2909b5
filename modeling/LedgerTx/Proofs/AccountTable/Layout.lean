import LedgerTx.AccountTable
import LedgerTx.Proofs.AccountTable.Requests
import LedgerTx.Proofs.Message.Places
import Mathlib.Data.List.Perm.Basic
import Mathlib.Tactic.SplitIfs

/-! A layout of faithful requests holds each of their keys once, in the category that instructions and the
payer demand, and a header that describes a layout gives the category of a key back from its place. The
second part speaks of any message with such a header and table, whatever else it consists of. -/

/-- A place in one list behind another is in the first or, counted from the first one's end, in the
second. -/
theorem List.getElem?_append_cases {α : Type} {first second : List α} {i : Nat} {a : α}
    (h : (first ++ second)[i]? = some a) :
    (i < first.length ∧ first[i]? = some a) ∨
      (first.length ≤ i ∧ second[i - first.length]? = some a) := by
  rcases Nat.lt_or_ge i first.length with hi | hi
  · rw [List.getElem?_append_left hi] at h
    exact Or.inl ⟨hi, h⟩
  · rw [List.getElem?_append_right hi] at h
    exact Or.inr ⟨hi, h⟩

namespace LedgerTx

variable {instructions : List Instruction} {payer : Option Pubkey} {requests : Requests}

namespace Requests

/-- The requests for other keys than the payer's. -/
def apartFrom (payer : Option Pubkey) (requests : Requests) : Requests :=
  requests.filter fun request => payer != some request.1

theorem Ascending.keysWith (h : requests.Ascending) (wanted : Access → Bool) :
    (requests.keysWith wanted).Pairwise fun a b => a.bytes < b.bytes := by
  have hkeys : (requests.map Prod.fst).Pairwise fun a b => a.bytes < b.bytes := by
    refine List.pairwise_map.2 (h.imp ?_)
    intro a b hlt
    exact Fixed.compare_eq_lt_iff.1 hlt
  exact hkeys.sublist (keysWith_sublist wanted requests)

theorem Ascending.apartFrom (h : requests.Ascending) (payer : Option Pubkey) :
    (requests.apartFrom payer).Ascending :=
  h.sublist List.filter_sublist

/-- Each key is in one of the four categories. -/
theorem categories_perm (requests : Requests) :
    (requests.keysWith (fun a => a.signer && a.writable) ++
      (requests.keysWith (fun a => a.signer && !a.writable) ++
        (requests.keysWith (fun a => !a.signer && a.writable) ++
          requests.keysWith fun a => !a.signer && !a.writable))).Perm (requests.map Prod.fst) := by
  have hsplit : ∀ (p q : Access → Bool),
      (requests.keysWith (fun a => p a && q a) ++
        requests.keysWith fun a => p a && !q a).Perm (requests.keysWith p) := by
    intro p q
    have h := (List.filter_append_perm (fun request => q request.2)
      (requests.filter fun request => p request.2)).map Prod.fst
    rw [List.map_append, List.filter_filter, List.filter_filter] at h
    simpa only [keysWith, Bool.and_comm] using h
  have hall : (requests.keysWith Access.signer ++
      requests.keysWith fun a => !a.signer).Perm (requests.map Prod.fst) := by
    have h := (List.filter_append_perm (fun request => request.2.signer) requests).map Prod.fst
    rwa [List.map_append] at h
  rw [← List.append_assoc]
  exact ((hsplit _ _).append (hsplit _ _)).trans hall

theorem payer_append_perm (hasc : requests.Ascending)
    (hpayer : ∀ p, payer = some p → p ∈ requests.map Prod.fst) :
    (payer.toList ++ (requests.apartFrom payer).map Prod.fst).Perm (requests.map Prod.fst) := by
  cases payer with
  | none =>
      have hall : requests.apartFrom none = requests := List.filter_eq_self.2 fun _ _ => rfl
      rw [hall]
      exact List.Perm.refl _
  | some p =>
      have hfilter : (requests.apartFrom (some p)).map Prod.fst = (requests.map Prod.fst).erase p := by
        rw [hasc.nodup_keys.erase_eq_filter, List.filter_map, apartFrom]
        congr 1
        apply List.filter_congr
        intro request _
        show (some p != some request.1) = (request.1 != p)
        rw [bne_comm]
        rfl
      rw [hfilter]
      exact (List.perm_cons_erase (hpayer p rfl)).symm

end Requests

namespace Layout

variable {layout : Layout} {key : Pubkey} {i : Nat}

theorem ofRequests_keys_perm (hasc : requests.Ascending)
    (hpayer : ∀ p, payer = some p → p ∈ requests.map Prod.fst) :
    (ofRequests payer requests).keys.Perm (requests.map Prod.fst) := by
  have hcategories := (requests.apartFrom payer).categories_perm
  have h := (hcategories.append_left payer.toList).trans (Requests.payer_append_perm hasc hpayer)
  rwa [← List.append_assoc] at h

/-- Each category holds only keys of which it is demanded. -/
structure Sorts (instructions : List Instruction) (payer : Option Pubkey) (layout : Layout) : Prop where
  writableSigners : ∀ key ∈ layout.writableSigners,
    Demand.Signs instructions payer key ∧ Demand.Writes instructions payer key
  readonlySigners : ∀ key ∈ layout.readonlySigners,
    Demand.Signs instructions payer key ∧ ¬Demand.Writes instructions payer key
  writableOthers : ∀ key ∈ layout.writableOthers,
    ¬Demand.Signs instructions payer key ∧ Demand.Writes instructions payer key
  readonlyOthers : ∀ key ∈ layout.readonlyOthers,
    ¬Demand.Signs instructions payer key ∧ ¬Demand.Writes instructions payer key

theorem exists_of_mem_keysWith (wanted : Access → Bool)
    (hfaithful : Requests.Faithful instructions payer requests)
    (hkey : key ∈ (requests.apartFrom payer).keysWith wanted) :
    ∃ access : Access, wanted access = true ∧
      (access.signer = true ↔ Demand.Signs instructions payer key) ∧
      (access.writable = true ↔ Demand.Writes instructions payer key) := by
  obtain ⟨access, hmem, hwanted⟩ := Requests.mem_keysWith.1 hkey
  obtain ⟨hsigner, hwritable, -⟩ := hfaithful key access (List.mem_of_mem_filter hmem)
  exact ⟨access, hwanted, hsigner, hwritable⟩

theorem sorts_ofRequests (hfaithful : Requests.Faithful instructions payer requests) :
    (ofRequests payer requests).Sorts instructions payer where
  writableSigners := by
    intro key hkey
    rcases List.mem_append.1 hkey with hpayer | hkey
    · have hsome : payer = some key := Option.mem_toList.1 hpayer
      exact ⟨Or.inl hsome, Or.inl hsome⟩
    · obtain ⟨access, hwanted, hsigner, hwritable⟩ :=
        exists_of_mem_keysWith (fun a => a.signer && a.writable) hfaithful hkey
      simpa [hsigner, hwritable] using hwanted
  readonlySigners := by
    intro key hkey
    obtain ⟨access, hwanted, hsigner, hwritable⟩ :=
      exists_of_mem_keysWith (fun a => a.signer && !a.writable) hfaithful hkey
    simpa [← hsigner, ← hwritable] using hwanted
  writableOthers := by
    intro key hkey
    obtain ⟨access, hwanted, hsigner, hwritable⟩ :=
      exists_of_mem_keysWith (fun a => !a.signer && a.writable) hfaithful hkey
    simpa [← hsigner, ← hwritable] using hwanted
  readonlyOthers := by
    intro key hkey
    obtain ⟨access, hwanted, hsigner, hwritable⟩ :=
      exists_of_mem_keysWith (fun a => !a.signer && !a.writable) hfaithful hkey
    simpa [← hsigner, ← hwritable] using hwanted

/-- Each category ascends by the bytes of its keys, save that the payer is put in front. -/
structure Ascends (payer : Option Pubkey) (layout : Layout) : Prop where
  writableSigners : ∃ others, layout.writableSigners = payer.toList ++ others ∧
    others.Pairwise fun a b => a.bytes < b.bytes
  readonlySigners : layout.readonlySigners.Pairwise fun a b => a.bytes < b.bytes
  writableOthers : layout.writableOthers.Pairwise fun a b => a.bytes < b.bytes
  readonlyOthers : layout.readonlyOthers.Pairwise fun a b => a.bytes < b.bytes

theorem ascends_ofRequests (h : requests.Ascending) (payer : Option Pubkey) :
    (ofRequests payer requests).Ascends payer where
  writableSigners := ⟨_, rfl, (h.apartFrom payer).keysWith _⟩
  readonlySigners := (h.apartFrom payer).keysWith fun a => a.signer && !a.writable
  writableOthers := (h.apartFrom payer).keysWith fun a => !a.signer && a.writable
  readonlyOthers := (h.apartFrom payer).keysWith fun a => !a.signer && !a.writable

theorem getElem?_keys_zero (h : layout.Ascends payer) (hpayer : payer = some key) :
    layout.keys[0]? = some key := by
  obtain ⟨others, hothers, -⟩ := h.writableSigners
  rw [keys, hothers, hpayer]
  rfl

/-- A key is in the category in whose stretch of the table its place is. -/
theorem mem_category_of_getElem? (h : layout.keys[i]? = some key) :
    (i < layout.writableSigners.length ∧ key ∈ layout.writableSigners) ∨
    (layout.writableSigners.length ≤ i ∧ i < layout.signerCount ∧ key ∈ layout.readonlySigners) ∨
    (layout.signerCount ≤ i ∧ i < layout.signerCount + layout.writableOthers.length ∧
      key ∈ layout.writableOthers) ∨
    (layout.signerCount + layout.writableOthers.length ≤ i ∧ key ∈ layout.readonlyOthers) := by
  unfold signerCount
  rcases List.getElem?_append_cases h with ⟨hi, h⟩ | ⟨hfirst, h⟩
  · exact Or.inl ⟨hi, List.mem_of_getElem? h⟩
  rcases List.getElem?_append_cases h with ⟨hi, h⟩ | ⟨hsecond, h⟩
  · exact Or.inr (Or.inl ⟨hfirst, by omega, List.mem_of_getElem? h⟩)
  rcases List.getElem?_append_cases h with ⟨hi, h⟩ | ⟨hthird, h⟩
  · exact Or.inr (Or.inr (Or.inl ⟨by omega, by omega, List.mem_of_getElem? h⟩))
  · exact Or.inr (Or.inr (Or.inr ⟨by omega, List.mem_of_getElem? h⟩))

theorem length_keys (layout : Layout) : layout.keys.length =
    layout.signerCount + layout.writableOthers.length + layout.readonlyOthers.length := by
  simp only [keys, signerCount, List.length_append]
  omega

theorem header_eq_ok {header : Header} (h : layout.header = .ok header) :
    layout.keys.length ≤ 256 ∧ header.required.toNat = layout.signerCount ∧
      header.readonlySigned.toNat = layout.readonlySigners.length ∧
      header.readonlyUnsigned.toNat = layout.readonlyOthers.length := by
  simp only [Layout.header] at h
  split_ifs at h with hlimits
  cases h
  simp only [UInt8.toNat_ofNat']
  omega

/-- The header and the table of a message are those of a layout. -/
structure Describes (layout : Layout) (m : Message) : Prop where
  header : layout.header = .ok m.header
  keys : m.accountKeys = layout.keys

variable {m : Message}

theorem Describes.counts_le (h : layout.Describes m) :
    m.required + m.header.readonlyUnsigned.toNat ≤ m.accountKeys.length := by
  obtain ⟨-, hrequired, -, hunsigned⟩ := header_eq_ok h.header
  rw [Message.required, hrequired, hunsigned, h.keys, length_keys]
  omega

theorem Describes.required_le (h : layout.Describes m) : m.required ≤ m.accountKeys.length :=
  Nat.le_of_add_right_le h.counts_le

theorem Describes.isSigner_iff (h : layout.Describes m) (hsorts : layout.Sorts instructions payer)
    (hkey : m.accountKeys[i]? = some key) :
    m.isSigner i = true ↔ Demand.Signs instructions payer key := by
  obtain ⟨-, hrequired, -, -⟩ := header_eq_ok h.header
  rw [h.keys] at hkey
  rw [Message.isSigner_iff, Message.required, hrequired]
  rcases mem_category_of_getElem? hkey with ⟨hplace, hmem⟩ | ⟨-, hplace, hmem⟩ | ⟨hplace, -, hmem⟩ |
    ⟨hplace, hmem⟩
  · exact iff_of_true (by rw [signerCount]; omega) (hsorts.writableSigners key hmem).1
  · exact iff_of_true hplace (hsorts.readonlySigners key hmem).1
  · exact iff_of_false (by omega) (hsorts.writableOthers key hmem).1
  · exact iff_of_false (by omega) (hsorts.readonlyOthers key hmem).1

theorem Describes.isWritableIndex_iff (h : layout.Describes m) (hsorts : layout.Sorts instructions payer)
    (hkey : m.accountKeys[i]? = some key) :
    m.isWritableIndex i = true ↔ Demand.Writes instructions payer key := by
  obtain ⟨-, hrequired, hsigned, hunsigned⟩ := header_eq_ok h.header
  have hlength := layout.length_keys
  have hcount : layout.signerCount =
    layout.writableSigners.length + layout.readonlySigners.length := rfl
  have hplaces : m.isWritableIndex i = true ↔ i < layout.writableSigners.length ∨
      layout.signerCount ≤ i ∧ i < layout.signerCount + layout.writableOthers.length := by
    rw [Message.isWritableIndex_iff, Message.required, hrequired, hsigned, hunsigned, h.keys, hlength]
    omega
  rw [h.keys] at hkey
  rw [hplaces]
  rcases mem_category_of_getElem? hkey with ⟨hplace, hmem⟩ | ⟨hleft, hplace, hmem⟩ |
    ⟨hleft, hplace, hmem⟩ | ⟨hplace, hmem⟩
  · exact iff_of_true (Or.inl hplace) (hsorts.writableSigners key hmem).2
  · exact iff_of_false (by omega) (hsorts.readonlySigners key hmem).2
  · exact iff_of_true (Or.inr ⟨hleft, hplace⟩) (hsorts.writableOthers key hmem).2
  · exact iff_of_false (by omega) (hsorts.readonlyOthers key hmem).2

end Layout

end LedgerTx
