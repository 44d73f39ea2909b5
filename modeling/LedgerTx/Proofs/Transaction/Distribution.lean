import LedgerTx.Proofs.SignatureScheme
import LedgerTx.Proofs.Transaction.Slots
import Mathlib.Data.List.Nodup

/-! How signers are distributed over calls. One call with all of them does what several calls do one after
the other, failures included: the later calls find the block hash set, so that they open no slot, and ask
in vain what the signers would ask anyhow. Signers with different keys fill different slots, so that their
order matters only for how far a call gets before it fails. -/

namespace LedgerTx.Transaction

variable {scheme : SignatureScheme} {t left middle : Transaction} {bs : Bytes} {blockhash : Hash}
  {a b : List (Signer scheme)} {groups regrouped : List (List (Signer scheme))}

/-- What signers leave under the block hash that was set for them stays ready for others under it. -/
theorem partialSign_after_fills (hslots : t.signatures.length = t.required)
    (h : a.forM (fill bs) (t.withBlockhash blockhash) = .ok () middle) :
    partialSign b blockhash middle = b.forM (fill (t.withBlockhash blockhash).messageBytes) middle := by
  obtain ⟨hmessage, hlength⟩ := sameSlots_of_fills h
  have hready : middle.signatures.length = middle.required := by
    rw [hlength, length_signatures_withBlockhash, hslots, required, required, hmessage,
      message_withBlockhash]
    rfl
  have hblockhash : middle.message.recentBlockhash = blockhash := by
    rw [hmessage, message_withBlockhash]
  rw [partialSign_of_blockhash_eq hready hblockhash, messageBytes, hmessage, messageBytes]

/-- If the first call has a signer, a call with all signers fails where one of two calls fails, in the same
way, and leaves behind what they leave. -/
theorem partialSign_append (ha : a ≠ []) :
    partialSign (a ++ b) blockhash t =
      (partialSign a blockhash >>= fun _ => partialSign b blockhash) t := by
  have hhead : (a ++ b).head? = a.head? := List.head?_append_of_ne_nil _ ha
  rcases partialSign_cases a blockhash t with ⟨hslots, h⟩ | ⟨hslots, ⟨first, hfirst, hslot⟩, h⟩ |
    ⟨hslots, hfirst, h⟩
  · rw [EStateM.bind_of_error h]
    exact partialSign_of_slots_ne hslots
  · rw [EStateM.bind_of_error h]
    exact partialSign_of_first_refused hslots (hhead.trans hfirst) hslot
  · rw [partialSign_of_first_admitted hslots (hhead ▸ hfirst), EStateM.forM_append]
    cases hfills : a.forM (fill (t.withBlockhash blockhash).messageBytes) (t.withBlockhash blockhash) with
    | ok _ middle =>
        rw [EStateM.bind_of_ok hfills, EStateM.bind_of_ok (h.trans hfills),
          partialSign_after_fills hslots hfills]
    | error e middle => rw [EStateM.bind_of_error hfills, EStateM.bind_of_error (h.trans hfills)]

/-- That a call with all signers succeeds, and what it leaves, is the same with two calls, of which the first
may have no signers. -/
theorem partialSign_append_eq_ok :
    partialSign (a ++ b) blockhash t = .ok () left ↔
      ∃ middle, partialSign a blockhash t = .ok () middle ∧ partialSign b blockhash middle = .ok () left := by
  rw [partialSign_eq_ok, EStateM.forM_append_eq_ok]
  refine ⟨?_, ?_⟩
  · rintro ⟨hslots, middle, hfirst, hnext⟩
    exact ⟨middle, partialSign_eq_ok.2 ⟨hslots, hfirst⟩,
      (partialSign_after_fills hslots hfirst).trans hnext⟩
  · rintro ⟨middle, hpartial, hnext⟩
    obtain ⟨hslots, hfirst⟩ := partialSign_eq_ok.1 hpartial
    exact ⟨hslots, middle, hfirst, (partialSign_after_fills hslots hfirst).symm.trans hnext⟩

/-- Calls under one block hash, each with the signers of one group. -/
def signInTurn (groups : List (List (Signer scheme))) (blockhash : Hash) : Action SignerError Unit :=
  groups.forM fun signers => partialSign signers blockhash

/-- Calls in turn succeed if one call with the signers of all groups does, and leave the same. There has to
be a call, as no call at all sets no block hash. -/
theorem signInTurn_eq_ok (hgroups : groups ≠ []) :
    signInTurn groups blockhash t = .ok () left ↔ partialSign groups.flatten blockhash t = .ok () left := by
  obtain ⟨first, rest, rfl⟩ := List.exists_cons_of_ne_nil hgroups
  clear hgroups
  induction rest generalizing first t with
  | nil =>
      rw [List.flatten_singleton, signInTurn, EStateM.forM_singleton_eq_ok]
  | cons second rest ih =>
      rw [List.flatten_cons, partialSign_append_eq_ok, signInTurn, EStateM.forM_cons_eq_ok]
      exact exists_congr fun middle => and_congr_right fun _ => ih second

/-- Signers with different keys may change places. -/
theorem fill_swap {first second : Signer scheme} (hkeys : first.pubkey ≠ second.pubkey)
    (hfirst : fill bs first t = .ok () middle) (hsecond : fill bs second middle = .ok () left) :
    ∃ other, fill bs second t = .ok () other ∧ fill bs first other = .ok () left := by
  obtain ⟨i, made, hi, hmade, rfl⟩ := fill_eq_ok.1 hfirst
  obtain ⟨j, other, hj, hother, rfl⟩ := fill_eq_ok.1 hsecond
  rw [((SameSlots.refl t).set i made).slot?_eq] at hj
  have hij : i ≠ j := by
    rintro rfl
    exact hkeys (slot?_injective hi hj)
  have hi' := ((SameSlots.refl t).set j other).slot?_eq.trans hi
  refine ⟨_, fill_eq_ok.2 ⟨j, other, hj, hother, rfl⟩, fill_eq_ok.2 ⟨i, made, hi', hmade, ?_⟩⟩
  rw [List.set_comm _ _ hij]

theorem forM_fill_of_perm (hperm : a.Perm b) (hnodup : (a.map Signer.pubkey).Nodup)
    (h : a.forM (fill bs) t = .ok () left) : b.forM (fill bs) t = .ok () left := by
  induction hperm generalizing t with
  | nil => exact h
  | cons signer _ ih =>
      obtain ⟨middle, hfill, hrest⟩ := EStateM.forM_cons_eq_ok.1 h
      rw [List.map_cons, List.nodup_cons] at hnodup
      exact EStateM.forM_cons_eq_ok.2 ⟨middle, hfill, ih hnodup.2 hrest⟩
  | swap first second rest =>
      obtain ⟨middle, hsecond, h⟩ := EStateM.forM_cons_eq_ok.1 h
      obtain ⟨next, hfirst, hrest⟩ := EStateM.forM_cons_eq_ok.1 h
      rw [List.map_cons, List.nodup_cons, List.map_cons, List.mem_cons] at hnodup
      have hkeys : second.pubkey ≠ first.pubkey := fun hsame => hnodup.1 (Or.inl hsame)
      obtain ⟨other, hfirst, hsecond⟩ := fill_swap hkeys hsecond hfirst
      exact EStateM.forM_cons_eq_ok.2
        ⟨other, hfirst, EStateM.forM_cons_eq_ok.2 ⟨next, hsecond, hrest⟩⟩
  | trans hfirst _ ih₁ ih₂ =>
      exact ih₂ ((hfirst.map Signer.pubkey).nodup_iff.1 hnodup) (ih₁ hnodup h)

theorem partialSign_of_perm (hperm : a.Perm b) (hnodup : (a.map Signer.pubkey).Nodup)
    (h : partialSign a blockhash t = .ok () left) : partialSign b blockhash t = .ok () left := by
  obtain ⟨hslots, hfills⟩ := partialSign_eq_ok.1 h
  exact partialSign_eq_ok.2 ⟨hslots, forM_fill_of_perm hperm hnodup hfills⟩

/-- Neither how signers are grouped into calls nor, if their keys differ, in which order they come makes a
difference to what is left of a transaction that they sign without failure; grouping makes none to what is
left of a failure either. -/
theorem partialSign_distribution (scheme : SignatureScheme) (t : Transaction) (blockhash : Hash) :
    (∀ a b : List (Signer scheme), a ≠ [] →
      partialSign (a ++ b) blockhash t =
        (partialSign a blockhash >>= fun _ => partialSign b blockhash) t) ∧
    (∀ (a b : List (Signer scheme)) (left : Transaction), (a.map Signer.pubkey).Nodup → a.Perm b →
      partialSign a blockhash t = .ok () left → partialSign b blockhash t = .ok () left) ∧
    ∀ (groups regrouped : List (List (Signer scheme))) (left : Transaction),
      groups ≠ [] → regrouped ≠ [] → (groups.flatten.map Signer.pubkey).Nodup →
      groups.flatten.Perm regrouped.flatten →
      signInTurn groups blockhash t = .ok () left → signInTurn regrouped blockhash t = .ok () left := by
  refine ⟨fun a b ha => partialSign_append ha,
    fun a b left hnodup hperm h => partialSign_of_perm hperm hnodup h, ?_⟩
  intro groups regrouped left hgroups hregrouped hnodup hperm h
  rw [signInTurn_eq_ok hgroups] at h
  rw [signInTurn_eq_ok hregrouped]
  exact partialSign_of_perm hperm hnodup h

/-- A call for both of two signers, a call for each of them, and calls in the other order, of which the first
has no signers. -/
theorem partialSign_distribution_recorded :
    partialSign [Recorded.first, Recorded.second] Recorded.blockhash (unsigned Recorded.message) =
        .ok () Recorded.signed ∧
      (partialSign [Recorded.first] Recorded.blockhash >>= fun _ =>
        partialSign [Recorded.second] Recorded.blockhash) (unsigned Recorded.message) =
        .ok () Recorded.signed ∧
      partialSign [Recorded.second, Recorded.first] Recorded.blockhash (unsigned Recorded.message) =
        .ok () Recorded.signed ∧
      signInTurn [[], [Recorded.second], [Recorded.first]] Recorded.blockhash (unsigned Recorded.message) =
        .ok () Recorded.signed := by
  obtain ⟨happend, hperm, hregroup⟩ :=
    partialSign_distribution Recorded.scheme (unsigned Recorded.message) Recorded.blockhash
  have hnodup : ([Recorded.first, Recorded.second].map Signer.pubkey).Nodup := by decide
  have hswap : [Recorded.first, Recorded.second].Perm [Recorded.second, Recorded.first] :=
    .swap _ _ []
  have hboth : partialSign [Recorded.first, Recorded.second] Recorded.blockhash
      (unsigned Recorded.message) = .ok () Recorded.signed := by
    with_unfolding_all rfl
  have hturn : signInTurn [[Recorded.first, Recorded.second]] Recorded.blockhash
      (unsigned Recorded.message) = .ok () Recorded.signed := by
    with_unfolding_all rfl
  refine ⟨hboth, ?_, hperm _ _ _ hnodup hswap hboth, ?_⟩
  · rw [← happend [Recorded.first] [Recorded.second] (List.cons_ne_nil _ _)]
    exact hboth
  · exact hregroup [[Recorded.first, Recorded.second]] [[], [Recorded.second], [Recorded.first]] _
      (List.cons_ne_nil _ _) (List.cons_ne_nil _ _) hnodup hswap hturn

end LedgerTx.Transaction
