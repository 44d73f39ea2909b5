import LedgerTx.Proofs.Action
import LedgerTx.Transaction.Signing
import Mathlib.Data.List.Nodup
import Mathlib.Tactic.SplitIfs

/-! The slots of a transaction while it is signed. A slot belongs to the key at its place, so that
different keys have different slots. What a signer does is to put one signature into the slot of its key;
the message and the number of slots stay. Whether there is a slot for the first signer is asked twice, and
the second time it is asked of a transaction with the same slots, so that only a transaction that is left
untouched tells a first check that fails from a second one. -/

namespace LedgerTx.Transaction

variable {scheme : SignatureScheme} {t u left : Transaction} {key other : Pubkey} {i : Nat}
  {bs : Bytes} {blockhash : Hash} {signer : Signer scheme} {signers : List (Signer scheme)} {e : SignerError}

theorem slot?_eq_some (h : t.slot? key = some i) :
    i < t.signatures.length ∧ t.message.accountKeys[i]? = some key := by
  obtain ⟨hidx, hlt⟩ := Option.filter_eq_some_iff.1 h
  obtain ⟨hi, hkey, -⟩ := List.idxOf?_eq_some_iff.1 hidx
  refine ⟨of_decide_eq_true hlt, ?_⟩
  simp only [Message.signerKeys, List.getElem_take] at hkey
  rw [← hkey]
  exact List.getElem?_eq_getElem _

theorem slot?_injective (hkey : t.slot? key = some i) (hother : t.slot? other = some i) :
    key = other := by
  have h := (slot?_eq_some hkey).2.symm.trans (slot?_eq_some hother).2
  exact Option.some.inj h

/-- If no key signs twice, a slot is the one of the key at its place. -/
theorem slot?_eq_of_getElem? (hnodup : t.message.signerKeys.Nodup)
    (hkey : t.message.signerKeys[i]? = some key) (hi : i < t.signatures.length) : t.slot? key = some i := by
  obtain ⟨hlt, hget⟩ := List.getElem?_eq_some_iff.1 hkey
  have hidx : t.message.signerKeys.idxOf? key = some i := by
    refine List.idxOf?_eq_some_iff.2 ⟨hlt, hget, ?_⟩
    intro j hj hsame
    exact Nat.ne_of_lt hj (hnodup.getElem_inj_iff.1 (hsame.trans hget.symm))
  rw [slot?, hidx]
  exact if_pos (decide_eq_true hi)

theorem slot?_congr (hkeys : u.message.signerKeys = t.message.signerKeys)
    (hlength : u.signatures.length = t.signatures.length) : u.slot? key = t.slot? key := by
  rw [slot?, slot?, hkeys, hlength]

/-- With as many slots as required, each of the keys that sign has one. -/
theorem slot?_eq_idxOf? (hslots : t.signatures.length = t.required) :
    t.slot? key = t.message.signerKeys.idxOf? key := by
  cases hi : t.message.signerKeys.idxOf? key with
  | none => rw [slot?, hi, Option.filter_none]
  | some i =>
      obtain ⟨hlt, -⟩ := List.idxOf?_eq_some_iff.1 hi
      have hrequired : t.message.signerKeys.length ≤ t.required := List.length_take_le _ _
      rw [slot?, hi, Option.filter_some, if_pos]
      exact decide_eq_true (by omega)

theorem slot?_eq_none_iff (hslots : t.signatures.length = t.required) :
    t.slot? key = none ↔ key ∉ t.message.signerKeys := by
  rw [slot?_eq_idxOf? hslots, List.idxOf?_eq_none_iff]

theorem withBlockhash_of_eq (h : t.message.recentBlockhash = blockhash) :
    t.withBlockhash blockhash = t :=
  if_pos h

theorem withBlockhash_of_ne (h : t.message.recentBlockhash ≠ blockhash) :
    t.withBlockhash blockhash =
      ⟨t.signatures.map fun _ => Fixed.zero, { t.message with recentBlockhash := blockhash }⟩ :=
  if_neg h

@[simp] theorem message_withBlockhash :
    (t.withBlockhash blockhash).message = { t.message with recentBlockhash := blockhash } := by
  by_cases h : t.message.recentBlockhash = blockhash
  · rw [withBlockhash_of_eq h, ← h]
  · rw [withBlockhash_of_ne h]

@[simp] theorem length_signatures_withBlockhash :
    (t.withBlockhash blockhash).signatures.length = t.signatures.length := by
  by_cases h : t.message.recentBlockhash = blockhash
  · rw [withBlockhash_of_eq h]
  · rw [withBlockhash_of_ne h, List.length_map]

theorem slot?_withBlockhash : (t.withBlockhash blockhash).slot? key = t.slot? key := by
  apply slot?_congr
  · rw [message_withBlockhash]
    rfl
  · exact length_signatures_withBlockhash

theorem messageBytes_withBlockhash (t : Transaction) (blockhash : Hash) :
    (t.withBlockhash blockhash).messageBytes =
      Message.serialize { t.message with recentBlockhash := blockhash } := by
  rw [messageBytes, message_withBlockhash]

theorem withBlockhash_unsigned (m : Message) (blockhash : Hash) :
    (unsigned m).withBlockhash blockhash = unsigned { m with recentBlockhash := blockhash } := by
  by_cases h : m.recentBlockhash = blockhash
  · rw [withBlockhash_of_eq h, ← h]
  · rw [withBlockhash_of_ne h, unsigned, List.map_replicate]
    rfl

theorem fill_eq_ok :
    fill bs signer t = .ok () left ↔
      ∃ i signature, t.slot? signer.pubkey = some i ∧ signer.sign bs = .ok signature ∧
        left = ⟨t.signatures.set i signature, t.message⟩ := by
  unfold fill
  cases hslot : t.slot? signer.pubkey with
  | none => simp
  | some i =>
      cases hsign : signer.sign bs with
      | error e => simp
      | ok signature => simp [eq_comm]

theorem fill_of_slot?_eq_none (h : t.slot? signer.pubkey = none) :
    fill bs signer t = .error .keypairPubkeyMismatch t := by
  rw [fill, h]

/-- A signer who fails puts nothing into a slot. -/
theorem fill_eq_error :
    fill bs signer t = .error e left ↔ left = t ∧
      (t.slot? signer.pubkey = none ∧ e = .keypairPubkeyMismatch ∨
        t.slot? signer.pubkey ≠ none ∧ signer.sign bs = .error e) := by
  unfold fill
  cases hslot : t.slot? signer.pubkey with
  | none => simp [eq_comm, and_comm]
  | some i =>
      cases hsign : signer.sign bs with
      | error f => simp [eq_comm, and_comm]
      | ok signature => simp

/-- What outlasts putting the signature of a signer into its slot is kept by the signer. -/
theorem keeps_fill {property : Transaction → Prop}
    (h : ∀ t i signature, property t → t.slot? signer.pubkey = some i →
      signer.sign bs = .ok signature → property ⟨t.signatures.set i signature, t.message⟩) :
    (fill bs signer).Keeps property := by
  intro t ht
  cases hfill : fill bs signer t with
  | ok _ left =>
      obtain ⟨i, signature, hslot, hsign, rfl⟩ := fill_eq_ok.1 hfill
      rw [EStateM.leftBy_of_ok hfill]
      exact h t i signature ht hslot hsign
  | error e left =>
      rw [EStateM.leftBy_of_error hfill, (fill_eq_error.1 hfill).1]
      exact ht

/-- The message is the same, and there are as many slots. -/
def SameSlots (t u : Transaction) : Prop :=
  u.message = t.message ∧ u.signatures.length = t.signatures.length

theorem SameSlots.refl (t : Transaction) : t.SameSlots t :=
  ⟨rfl, rfl⟩

theorem SameSlots.set (h : t.SameSlots u) (i : Nat) (signature : Signature) :
    t.SameSlots ⟨u.signatures.set i signature, u.message⟩ :=
  ⟨h.1, List.length_set.trans h.2⟩

theorem SameSlots.slot?_eq (h : t.SameSlots u) : u.slot? key = t.slot? key :=
  slot?_congr (congrArg Message.signerKeys h.1) h.2

/-- Signers fill slots and change nothing else. -/
theorem keeps_sameSlots (t : Transaction) (bs : Bytes) (signers : List (Signer scheme)) :
    (signers.forM (fill bs)).Keeps t.SameSlots := by
  apply EStateM.Keeps.forM
  intro signer _
  apply keeps_fill
  intro u i signature hu _ _
  exact hu.set i signature

theorem sameSlots_of_fills (h : signers.forM (fill bs) t = .ok () left) : t.SameSlots left :=
  (keeps_sameSlots t bs signers).of_ok (SameSlots.refl t) h

/-- A slot that belongs to none of the signers stays as it is. -/
theorem getElem?_signatures_of_slot?_ne (hsigners : ∀ signer ∈ signers, t.slot? signer.pubkey ≠ some i)
    (h : signers.forM (fill bs) t = .ok () left) : left.signatures[i]? = t.signatures[i]? := by
  have hkeeps : (signers.forM (fill bs)).Keeps
      fun u => t.SameSlots u ∧ u.signatures[i]? = t.signatures[i]? := by
    apply EStateM.Keeps.forM
    intro signer hsigner
    apply keeps_fill
    intro u j signature hu hslot _
    have hij : j ≠ i := by
      intro hsame
      exact hsigners signer hsigner (hu.1.slot?_eq.symm.trans (hslot.trans (congrArg some hsame)))
    exact ⟨hu.1.set j signature, (List.getElem?_set_ne hij).trans hu.2⟩
  exact (hkeeps.of_ok ⟨SameSlots.refl t, rfl⟩ h).2

/-- The slot of a key for which nobody signs stays as it is. -/
theorem getElem?_signatures_of_not_mem (hkey : t.message.accountKeys[i]? = some key)
    (hsigners : key ∉ signers.map Signer.pubkey) (h : signers.forM (fill bs) t = .ok () left) :
    left.signatures[i]? = t.signatures[i]? := by
  apply getElem?_signatures_of_slot?_ne _ h
  intro signer hsigner hslot
  have hfound : signer.pubkey = key := Option.some.inj ((slot?_eq_some hslot).2.symm.trans hkey)
  exact hsigners (hfound ▸ List.mem_map_of_mem hsigner)

theorem partialSign_of_slots_ne (hslots : t.signatures.length ≠ t.required) :
    partialSign signers blockhash t =
      .error (.invalidInput (.slotCount t.signatures.length t.required)) t :=
  if_pos hslots

theorem partialSign_of_first_refused {first : Signer scheme} (hslots : t.signatures.length = t.required)
    (hfirst : signers.head? = some first) (hslot : t.slot? first.pubkey = none) :
    partialSign signers blockhash t = .error .keypairPubkeyMismatch t := by
  rw [partialSign, if_neg (not_not_intro hslots), if_pos]
  rw [hfirst, Option.any_some, hslot]
  rfl

theorem partialSign_of_first_admitted (hslots : t.signatures.length = t.required)
    (hfirst : ∀ first, signers.head? = some first → t.slot? first.pubkey ≠ none) :
    partialSign signers blockhash t =
      signers.forM (fill (t.withBlockhash blockhash).messageBytes) (t.withBlockhash blockhash) := by
  rw [partialSign, if_neg (not_not_intro hslots), if_neg]
  intro hnone
  obtain ⟨first, hhead, hslot⟩ := (Option.any_eq_true _ _).1 hnone
  exact hfirst first hhead (Option.isNone_iff_eq_none.1 hslot)

/-- The three ways in which partial signing goes: there are too few or too many slots, the first signer has
none, or the signers fill their slots under the block hash, as far as they get. -/
theorem partialSign_cases (signers : List (Signer scheme)) (blockhash : Hash) (t : Transaction) :
    (t.signatures.length ≠ t.required ∧
      partialSign signers blockhash t =
        .error (.invalidInput (.slotCount t.signatures.length t.required)) t) ∨
    (t.signatures.length = t.required ∧
      (∃ first, signers.head? = some first ∧ t.slot? first.pubkey = none) ∧
      partialSign signers blockhash t = .error .keypairPubkeyMismatch t) ∨
    (t.signatures.length = t.required ∧
      (∀ first, signers.head? = some first → t.slot? first.pubkey ≠ none) ∧
      partialSign signers blockhash t =
        signers.forM (fill (t.withBlockhash blockhash).messageBytes) (t.withBlockhash blockhash)) := by
  by_cases hslots : t.signatures.length = t.required
  · by_cases hrefused : ∃ first, signers.head? = some first ∧ t.slot? first.pubkey = none
    · obtain ⟨first, hfirst, hslot⟩ := hrefused
      exact Or.inr (Or.inl ⟨hslots, ⟨first, hfirst, hslot⟩,
        partialSign_of_first_refused hslots hfirst hslot⟩)
    · have hfirst : ∀ first, signers.head? = some first → t.slot? first.pubkey ≠ none :=
        fun first hhead hslot => hrefused ⟨first, hhead, hslot⟩
      exact Or.inr (Or.inr ⟨hslots, hfirst, partialSign_of_first_admitted hslots hfirst⟩)
  · exact Or.inl ⟨hslots, partialSign_of_slots_ne hslots⟩

/-- Signing partially succeeds if there are as many slots as required and every signer fills its slot. -/
theorem partialSign_eq_ok :
    partialSign signers blockhash t = .ok () left ↔
      t.signatures.length = t.required ∧
        signers.forM (fill (t.withBlockhash blockhash).messageBytes) (t.withBlockhash blockhash) =
          .ok () left := by
  rcases partialSign_cases signers blockhash t with ⟨hslots, h⟩ | ⟨hslots, ⟨first, hfirst, hslot⟩, h⟩ |
    ⟨hslots, -, h⟩
  · rw [h]
    exact iff_of_false nofun fun hall => hslots hall.1
  · rw [h]
    refine iff_of_false nofun ?_
    rintro ⟨-, hfills⟩
    obtain ⟨rest, rfl⟩ := List.head?_eq_some_iff.1 hfirst
    obtain ⟨middle, hfill, -⟩ := EStateM.forM_cons_eq_ok.1 hfills
    rw [fill_of_slot?_eq_none (slot?_withBlockhash.trans hslot)] at hfill
    cases hfill
  · rw [h, and_iff_right hslots]

/-- Under the block hash that a transaction has, asking for the slot of the first signer beforehand makes
no difference. -/
theorem partialSign_of_blockhash_eq (hslots : t.signatures.length = t.required)
    (hblockhash : t.message.recentBlockhash = blockhash) :
    partialSign signers blockhash t = signers.forM (fill t.messageBytes) t := by
  rcases partialSign_cases signers blockhash t with ⟨hne, -⟩ | ⟨-, ⟨first, hfirst, hslot⟩, h⟩ | ⟨-, -, h⟩
  · exact absurd hslots hne
  · obtain ⟨rest, rfl⟩ := List.head?_eq_some_iff.1 hfirst
    rw [h]
    exact (EStateM.bind_of_error (fill_of_slot?_eq_none hslot)).symm
  · rw [h, withBlockhash_of_eq hblockhash]

theorem requireFilled_eq_ok :
    requireFilled t = .ok () left ↔ (∀ signature ∈ t.signatures, signature ≠ Fixed.zero) ∧ t = left := by
  unfold requireFilled
  split_ifs with hopen
  · obtain ⟨signature, hsignature, hzero⟩ := List.any_eq_true.1 hopen
    exact iff_of_false nofun fun h => h.1 signature hsignature (beq_iff_eq.1 hzero)
  · rw [EStateM.Result.ok.injEq, eq_self, true_and, iff_and_self]
    rintro - signature hsignature hzero
    exact hopen (List.any_eq_true.2 ⟨signature, hsignature, beq_iff_eq.2 hzero⟩)

theorem keeps_requireFilled (property : Transaction → Prop) : requireFilled.Keeps property := by
  intro t ht
  unfold EStateM.leftBy requireFilled
  split_ifs <;> exact ht

theorem sign_eq_ok :
    sign signers blockhash t = .ok () left ↔
      partialSign signers blockhash t = .ok () left ∧
        ∀ signature ∈ left.signatures, signature ≠ Fixed.zero := by
  rw [sign, EStateM.bind_unit_eq_ok]
  refine ⟨?_, ?_⟩
  · rintro ⟨middle, hpartial, hrequired⟩
    obtain ⟨hfilled, rfl⟩ := requireFilled_eq_ok.1 hrequired
    exact ⟨hpartial, hfilled⟩
  · rintro ⟨hpartial, hfilled⟩
    exact ⟨left, hpartial, requireFilled_eq_ok.2 ⟨hfilled, rfl⟩⟩

end LedgerTx.Transaction
