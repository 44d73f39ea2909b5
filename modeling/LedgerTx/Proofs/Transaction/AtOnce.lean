import LedgerTx.Proofs.AccountTable.Index
import LedgerTx.Proofs.Transaction.Distribution
import LedgerTx.Transaction.Versioned
import Mathlib.Data.List.Perm.Subperm

/-! Signing everything at once. A legacy transaction is signed by going over the signers, each of whom finds
its slot; a transaction of either form is signed by going over the keys, for each of which a signer is found.
With as many signers as keys, and no key twice, both find the same pairs: signers that fill every slot are
the signers found for the keys, in another order. -/

namespace LedgerTx

namespace VersionedTransaction

variable {scheme : SignatureScheme} {keys : List Pubkey} {signers chosen : List (Signer scheme)}

theorem signerFor_eq_ok {key : Pubkey} {signer : Signer scheme} (h : signerFor signers key = .ok signer) :
    signer ∈ signers ∧ signer.pubkey = key := by
  unfold signerFor at h
  split at h
  · rename_i hfind
    cases h
    have hkey := List.find?_some hfind
    exact ⟨List.mem_of_find?_eq_some hfind, beq_iff_eq.1 hkey⟩
  · cases h

theorem exists_signerFor {key : Pubkey} (h : key ∈ signers.map Signer.pubkey) :
    ∃ signer, signerFor signers key = .ok signer := by
  obtain ⟨signer, hsigner, hkey⟩ := List.mem_map.1 h
  unfold signerFor
  split
  · exact ⟨_, rfl⟩
  · rename_i hnone
    exact absurd (beq_iff_eq.2 hkey) (List.find?_eq_none.1 hnone signer hsigner)

theorem map_pubkey_of_mapM_signerFor (h : keys.mapM (signerFor signers) = .ok chosen) :
    chosen.map Signer.pubkey = keys := by
  rw [← List.forall₂_eq_eq_eq, List.forall₂_map_left_iff]
  exact (List.forall₂_of_mapM_eq_ok h).imp fun _ _ hsigner => (signerFor_eq_ok hsigner).2

/-- Signers that are found for different keys, as many as there are signers, are all the signers. -/
theorem perm_of_mapM_signerFor (hnodup : keys.Nodup) (hcount : signers.length = keys.length)
    (h : keys.mapM (signerFor signers) = .ok chosen) : chosen.Perm signers := by
  have hkeys := map_pubkey_of_mapM_signerFor h
  have hchosen : chosen.Nodup := by
    rw [← hkeys] at hnodup
    exact hnodup.of_map
  have hsubset : chosen ⊆ signers := by
    intro signer hsigner
    obtain ⟨key, -, hfound⟩ := (List.forall₂_of_mapM_eq_ok h).exists_of_mem_left hsigner
    exact (signerFor_eq_ok hfound).1
  refine (List.subperm_of_subset hchosen hsubset).perm_of_length_le ?_
  exact Nat.le_of_eq (by rw [hcount, ← hkeys, List.length_map])

theorem signaturesFor_eq_ok {message : VersionedMessage} {made : List Signature} :
    signaturesFor message signers = .ok made ↔
      ∃ chosen, message.signerKeys.mapM (signerFor signers) =
          .ok chosen ∧
        chosen.mapM (fun signer => signer.sign message.serialize) = .ok made :=
  Except.bind_eq_ok

theorem signedBy_eq_ok {message : VersionedMessage} {v : VersionedTransaction} :
    signedBy message signers = .ok v ↔
      message.required ≤ message.keys.length ∧
        signers.length = message.required ∧
          ∃ made, signaturesFor message signers = .ok made ∧ v = ⟨made, message⟩ := by
  rw [signedBy]
  split_ifs with hkeys hmany hfew
  · exact iff_of_false nofun fun h => Nat.not_lt.2 h.1 hkeys
  · exact iff_of_false nofun fun h => Nat.ne_of_gt hmany h.2.1
  · exact iff_of_false nofun fun h => Nat.ne_of_lt hfew h.2.1
  · rw [and_iff_right (Nat.le_of_not_lt hkeys),
      and_iff_right (Nat.le_antisymm (Nat.le_of_not_lt hmany) (Nat.le_of_not_lt hfew))]
    cases signaturesFor message signers <;> simp [Except.map, eq_comm]

end VersionedTransaction

namespace Transaction

open VersionedTransaction (signerFor signedBy)

variable {scheme : SignatureScheme} {m : Message} {blockhash : Hash} {bs : Bytes} {left t : Transaction}
  {signer : Signer scheme} {signers chosen : List (Signer scheme)}

/-- A signer whose key is at the first place that is open puts a signature there. -/
theorem fill_next_eq_ok (hnodup : m.signerKeys.Nodup) {filled opened : List Signature} {old : Signature}
    (hkey : m.signerKeys[filled.length]? = some signer.pubkey) :
    fill bs signer ⟨filled ++ old :: opened, m⟩ = .ok () left ↔
      ∃ signature, signer.sign bs = .ok signature ∧ left = ⟨filled ++ [signature] ++ opened, m⟩ := by
  have hlt : filled.length < (filled ++ old :: opened).length := by
    rw [List.length_append]
    exact Nat.lt_add_of_pos_right (Nat.succ_pos _)
  have hset : ∀ signature, (filled ++ old :: opened).set filled.length signature =
      filled ++ [signature] ++ opened := by
    intro signature
    rw [List.set_append_right _ _ (Nat.le_refl _), Nat.sub_self, List.set_cons_zero, List.append_cons]
  rw [fill_eq_ok, slot?_eq_of_getElem? hnodup hkey hlt]
  refine ⟨?_, ?_⟩
  · rintro ⟨_, signature, ⟨⟩, hsign, rfl⟩
    exact ⟨signature, hsign, by rw [hset]⟩
  · rintro ⟨signature, hsign, rfl⟩
    exact ⟨_, signature, rfl, hsign, by rw [hset]⟩

/-- Signers in the order of the keys fill the places one after the other. -/
theorem fills_in_order_eq_ok (hnodup : m.signerKeys.Nodup) (filled : List Signature) {opened : List Signature}
    (hkeys : m.signerKeys.drop filled.length = chosen.map Signer.pubkey)
    (hopened : opened.length = chosen.length) :
    chosen.forM (fill bs) ⟨filled ++ opened, m⟩ = .ok () left ↔
      ∃ made, chosen.mapM (fun signer => signer.sign bs) = .ok made ∧ left = ⟨filled ++ made, m⟩ := by
  -- The signers that are left have the keys behind the signatures that stand in front already.
  induction chosen generalizing filled opened with
  | nil =>
      obtain rfl := List.length_eq_zero_iff.1 hopened
      refine ⟨?_, ?_⟩
      · rintro ⟨⟩
        exact ⟨[], rfl, rfl⟩
      · rintro ⟨made, ⟨⟩, rfl⟩
        rfl
  | cons signer chosen ih =>
      obtain ⟨old, opened, rfl⟩ := List.exists_cons_of_length_eq_add_one hopened
      have hkey : m.signerKeys[filled.length]? = some signer.pubkey := by
        rw [← List.head?_drop, hkeys]
        rfl
      have hrest : ∀ signature : Signature, m.signerKeys.drop (filled ++ [signature]).length =
          chosen.map Signer.pubkey := by
        intro signature
        rw [List.length_append, List.length_singleton, ← List.drop_drop, hkeys]
        rfl
      rw [EStateM.forM_cons_eq_ok]
      refine ⟨?_, ?_⟩
      · rintro ⟨_, hfill, hfills⟩
        obtain ⟨signature, hsign, rfl⟩ := (fill_next_eq_ok hnodup hkey).1 hfill
        obtain ⟨made, hmade, rfl⟩ := (ih _ (hrest signature) (Nat.succ.inj hopened)).1 hfills
        refine ⟨signature :: made, List.mapM_cons_eq_ok.2 ⟨_, _, hsign, hmade, rfl⟩, ?_⟩
        rw [← List.append_cons]
      · rintro ⟨_, hall, rfl⟩
        obtain ⟨signature, made, hsign, hmade, rfl⟩ := List.mapM_cons_eq_ok.1 hall
        refine ⟨_, (fill_next_eq_ok hnodup hkey).2 ⟨signature, hsign, rfl⟩, ?_⟩
        refine (ih _ (hrest signature) (Nat.succ.inj hopened)).2 ⟨made, hmade, ?_⟩
        rw [← List.append_cons]

/-- A slot that is filled was filled by a signer for its key. -/
theorem mem_map_pubkey_of_filled (h : signers.forM (fill bs) (unsigned m) = .ok () left)
    (hfilled : ∀ signature ∈ left.signatures, signature ≠ Fixed.zero) {key : Pubkey}
    (hkey : key ∈ m.signerKeys) : key ∈ signers.map Signer.pubkey := by
  by_contra hsigners
  obtain ⟨i, hi, rfl⟩ := List.getElem_of_mem hkey
  have hrequired : i < m.required := Nat.lt_of_lt_of_le hi (List.length_take_le _ _)
  have hplace : m.accountKeys[i]? = some m.signerKeys[i] := by
    rw [← List.getElem?_take_of_lt hrequired]
    exact List.getElem?_eq_getElem hi
  have hopen : left.signatures[i]? = some Fixed.zero := by
    rw [getElem?_signatures_of_not_mem hplace hsigners h]
    exact List.getElem?_replicate_of_lt hrequired
  exact hfilled _ (List.mem_of_getElem? hopen) rfl

theorem after_eq_ok {ε : Type} {action : Action ε Unit} :
    after action t = .ok left ↔ action t = .ok () left := by
  unfold after
  cases action t with
  | ok _ middle => simp
  | error e middle => simp

theorem signed_eq_ok : signed signers m blockhash = .ok t ↔
    signers.forM (fill (Message.serialize { m with recentBlockhash := blockhash }))
        (unsigned { m with recentBlockhash := blockhash }) = .ok () t ∧
      ∀ signature ∈ t.signatures, signature ≠ Fixed.zero := by
  have hslots : (unsigned m).signatures.length = (unsigned m).required := List.length_replicate
  rw [signed, after_eq_ok, sign_eq_ok, partialSign_eq_ok, and_iff_right hslots, withBlockhash_unsigned]
  rfl

/-- The order of the signers is of no account, as they have different keys. -/
theorem fills_eq_ok_of_mapM_signerFor (hkeys : m.required ≤ m.accountKeys.length)
    (hnodup : m.signerKeys.Nodup) (hcount : signers.length = m.required)
    (hchosen : m.signerKeys.mapM (signerFor signers) = .ok chosen) :
    signers.forM (fill bs) (unsigned m) = .ok () left ↔
      ∃ made, chosen.mapM (fun signer => signer.sign bs) = .ok made ∧ left = ⟨made, m⟩ := by
  have hlength : m.signerKeys.length = m.required := List.length_take_of_le hkeys
  have hmap := VersionedTransaction.map_pubkey_of_mapM_signerFor hchosen
  have hperm := VersionedTransaction.perm_of_mapM_signerFor hnodup (hcount.trans hlength.symm) hchosen
  have hdistinct : (chosen.map Signer.pubkey).Nodup := by
    rw [hmap]
    exact hnodup
  have hreplicate : (List.replicate m.required (Fixed.zero : Signature)).length = chosen.length := by
    rw [List.length_replicate, ← hlength, ← hmap, List.length_map]
  have horder : chosen.forM (fill bs) (unsigned m) = .ok () left ↔
      ∃ made, chosen.mapM (fun signer => signer.sign bs) = .ok made ∧ left = ⟨made, m⟩ :=
    fills_in_order_eq_ok hnodup [] hmap.symm hreplicate
  rw [← horder]
  exact ⟨forM_fill_of_perm hperm.symm ((hperm.map _).nodup_iff.1 hdistinct),
    forM_fill_of_perm hperm hdistinct⟩

/-- Signers fill all slots just if they are all found, and none of them gives the placeholder. -/
theorem fills_eq_ok_iff_signedBy (hkeys : m.required ≤ m.accountKeys.length)
    (hnodup : m.signerKeys.Nodup) (hcount : signers.length = m.required)
    (hfilled : ∀ signature ∈ t.signatures, signature ≠ Fixed.zero) :
    signers.forM (fill m.serialize) (unsigned m) = .ok () t ↔
      signedBy (.legacy m) signers = .ok t.toVersioned := by
  have hfills : ∀ {chosen}, m.signerKeys.mapM (signerFor signers) = .ok chosen →
      (signers.forM (fill m.serialize) (unsigned m) = .ok () t ↔
        ∃ made, chosen.mapM (fun signer => signer.sign m.serialize) = .ok made ∧
          t = ⟨made, m⟩) :=
    fills_eq_ok_of_mapM_signerFor hkeys hnodup hcount
  rw [VersionedTransaction.signedBy_eq_ok]
  refine ⟨?_, ?_⟩
  · intro h
    obtain ⟨chosen, hchosen⟩ : ∃ chosen, m.signerKeys.mapM (signerFor signers) = .ok chosen := by
      apply List.exists_mapM_eq_ok
      intro key hkey
      exact VersionedTransaction.exists_signerFor (mem_map_pubkey_of_filled h hfilled hkey)
    obtain ⟨made, hmade, rfl⟩ := (hfills hchosen).1 h
    exact ⟨hkeys, hcount, made, VersionedTransaction.signaturesFor_eq_ok.2 ⟨chosen, hchosen, hmade⟩, rfl⟩
  · rintro ⟨-, -, made, hmade, ht⟩
    obtain ⟨chosen, hchosen, hmade⟩ := VersionedTransaction.signaturesFor_eq_ok.1 hmade
    cases t
    cases ht
    exact (hfills hchosen).2 ⟨_, hmade, rfl⟩

theorem signed_eq_ok_iff_signedBy (hkeys : m.required ≤ m.accountKeys.length) (hnodup : m.signerKeys.Nodup)
    (hcount : signers.length = m.required) :
    signed signers m blockhash = .ok t ↔
      signedBy (.legacy { m with recentBlockhash := blockhash }) signers = .ok t.toVersioned ∧
        ∀ signature ∈ t.signatures, signature ≠ Fixed.zero := by
  rw [signed_eq_ok]
  refine and_congr_left fun hfilled => ?_
  exact fills_eq_ok_iff_signedBy hkeys hnodup hcount hfilled

/-- Where there are as many signers as keys that sign, and these are there and differ, a legacy transaction
is signed fully just if the transaction of either form is signed and has no open slot, and both are the
same. -/
theorem signed_agrees_signedBy (scheme : SignatureScheme) (m : Message) (blockhash : Hash)
    (signers : List (Signer scheme)) (hkeys : m.required ≤ m.accountKeys.length)
    (hnodup : m.signerKeys.Nodup) (hcount : signers.length = m.required) :
    let message : VersionedMessage := .legacy { m with recentBlockhash := blockhash }
    ((∃ t, signed signers m blockhash = .ok t) ↔
        ∃ v, signedBy message signers = .ok v ∧ ∀ signature ∈ v.signatures, signature ≠ Fixed.zero) ∧
      ∀ t v, signed signers m blockhash = .ok t → signedBy message signers = .ok v → v = t.toVersioned := by
  intro message
  have hsigned : ∀ t, signed signers m blockhash = .ok t ↔
      signedBy message signers = .ok t.toVersioned ∧ ∀ signature ∈ t.signatures, signature ≠ Fixed.zero :=
    fun t => signed_eq_ok_iff_signedBy hkeys hnodup hcount
  refine ⟨⟨?_, ?_⟩, ?_⟩
  · rintro ⟨t, ht⟩
    exact ⟨t.toVersioned, (hsigned t).1 ht⟩
  · rintro ⟨v, hv, hfilled⟩
    obtain ⟨-, -, made, -, rfl⟩ := VersionedTransaction.signedBy_eq_ok.1 hv
    exact ⟨⟨made, { m with recentBlockhash := blockhash }⟩, (hsigned _).2 ⟨hv, hfilled⟩⟩
  · intro t v ht hv
    have hversioned := ((hsigned t).1 ht).1
    rw [hv] at hversioned
    cases hversioned
    rfl

/-- Two signers who come in another order than their keys. -/
theorem signed_agrees_signedBy_recorded :
    let both : List (Signer Recorded.scheme) := [Recorded.second, Recorded.first]
    Recorded.message.required ≤ Recorded.message.accountKeys.length ∧ Recorded.message.signerKeys.Nodup ∧
      both.length = Recorded.message.required ∧
      signed both Recorded.message Recorded.blockhash = .ok Recorded.signed ∧
      signedBy (.legacy Recorded.message) both = .ok Recorded.signed.toVersioned := by
  intro both
  have hkeys : Recorded.message.required ≤ Recorded.message.accountKeys.length := by decide
  have hnodup : Recorded.message.signerKeys.Nodup := by decide
  have hsigned : signed both Recorded.message Recorded.blockhash = .ok Recorded.signed := by
    with_unfolding_all rfl
  obtain ⟨hiff, heq⟩ :=
    signed_agrees_signedBy Recorded.scheme Recorded.message Recorded.blockhash both hkeys hnodup rfl
  obtain ⟨v, hv, -⟩ := hiff.1 ⟨_, hsigned⟩
  obtain rfl := heq _ _ hsigned hv
  exact ⟨hkeys, hnodup, rfl, hsigned, hv⟩

end Transaction

end LedgerTx
