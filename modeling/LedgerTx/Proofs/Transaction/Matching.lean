import LedgerTx.Proofs.Transaction.AtOnce

/-! Signers matched with the keys that have to sign. There are as many of them as keys, and one is looked up for
each key. If no key has to sign twice, this pairs them off, and neither the outcome nor an error depends on
the order in which the signers come. If a key does, one signer may be taken for it twice, and then another is
not asked at all. -/

namespace LedgerTx.VersionedTransaction

variable {scheme : SignatureScheme} {signer : Signer scheme} {signers others : List (Signer scheme)}
  {keys : List Pubkey} {key : Pubkey} {message : VersionedMessage} {v : VersionedTransaction} {i : Nat}

theorem signerFor_of_not_mem (h : key ∉ signers.map Signer.pubkey) :
    signerFor signers key = .error .keypairPubkeyMismatch := by
  unfold signerFor
  split
  · rename_i signer hfind
    have hkey := List.find?_some hfind
    exact absurd (List.mem_map.2 ⟨signer, List.mem_of_find?_eq_some hfind, beq_iff_eq.1 hkey⟩) h
  · rfl

/-- If signers have different keys, there is at most one for a key. -/
theorem signerFor_eq_ok_iff (hnodup : (signers.map Signer.pubkey).Nodup) :
    signerFor signers key = .ok signer ↔ signer ∈ signers ∧ signer.pubkey = key := by
  refine ⟨signerFor_eq_ok, ?_⟩
  intro h
  obtain ⟨hmem, rfl⟩ := h
  obtain ⟨found, hfound⟩ := exists_signerFor (List.mem_map_of_mem hmem)
  obtain ⟨hfoundMem, hkey⟩ := signerFor_eq_ok hfound
  rw [hfound, List.inj_on_of_nodup_map hnodup hfoundMem hmem hkey]

theorem signerFor_eq_of_perm (hperm : signers.Perm others) (hnodup : (signers.map Signer.pubkey).Nodup) :
    signerFor signers = signerFor others := by
  have hothers : (others.map Signer.pubkey).Nodup := (hperm.map _).nodup_iff.1 hnodup
  funext key
  by_cases hkey : key ∈ signers.map Signer.pubkey
  · obtain ⟨signer, hsigner⟩ := exists_signerFor hkey
    obtain ⟨hmem, hpubkey⟩ := signerFor_eq_ok hsigner
    rw [hsigner, (signerFor_eq_ok_iff hothers).2 ⟨hperm.mem_iff.1 hmem, hpubkey⟩]
  · have hkey' : key ∉ others.map Signer.pubkey := fun h => hkey ((hperm.map _).mem_iff.2 h)
    rw [signerFor_of_not_mem hkey, signerFor_of_not_mem hkey']

/-- Whichever key is without a signer, the error is the same. -/
theorem mapM_signerFor_of_not_mem (hmem : key ∈ keys) (hkey : key ∉ signers.map Signer.pubkey) :
    keys.mapM (signerFor signers) = .error .keypairPubkeyMismatch := by
  induction keys with
  | nil => cases hmem
  | cons first keys ih =>
      rw [List.mapM_cons]
      by_cases hfirst : first ∈ signers.map Signer.pubkey
      · obtain ⟨signer, hsigner⟩ := exists_signerFor hfirst
        have hrest : key ∈ keys := by
          refine (List.mem_cons.1 hmem).resolve_left ?_
          rintro rfl
          exact hkey hfirst
        rw [hsigner, ih hrest]
        rfl
      · rw [signerFor_of_not_mem hfirst]
        rfl

/-- Different keys, as many as there are signers, of which none is without a signer, are the keys of the
signers. -/
theorem map_pubkey_perm_of_subset (hnodup : keys.Nodup) (hcount : signers.length = keys.length)
    (hfound : keys ⊆ signers.map Signer.pubkey) : (signers.map Signer.pubkey).Perm keys := by
  have hlength : (signers.map Signer.pubkey).length ≤ keys.length := by simp [hcount]
  exact ((List.subperm_of_subset hnodup hfound).perm_of_length_le hlength).symm

theorem signaturesFor_eq_of_perm (hnodup : message.signerKeys.Nodup)
    (hcount : signers.length = message.signerKeys.length) (hperm : signers.Perm others) :
    signaturesFor message signers = signaturesFor message others := by
  by_cases hfound : message.signerKeys ⊆ signers.map Signer.pubkey
  · have hkeys := map_pubkey_perm_of_subset hnodup hcount hfound
    unfold signaturesFor
    rw [signerFor_eq_of_perm hperm (hkeys.nodup_iff.2 hnodup)]
  · -- A key has no signer in either order.
    obtain ⟨key, hmem, hkey⟩ : ∃ key ∈ message.signerKeys, key ∉ signers.map Signer.pubkey := by
      simpa [List.subset_def] using hfound
    have hkey' : key ∉ others.map Signer.pubkey := fun h => hkey ((hperm.map _).mem_iff.2 h)
    have hsigners := mapM_signerFor_of_not_mem hmem hkey
    have hothers := mapM_signerFor_of_not_mem hmem hkey'
    show (message.signerKeys.mapM (signerFor signers) >>= _) =
      (message.signerKeys.mapM (signerFor others) >>= _)
    rw [hsigners, hothers]

theorem signedBy_eq_of_perm (hkeys : message.required ≤ message.keys.length)
    (hnodup : message.signerKeys.Nodup) (hperm : signers.Perm others) :
    signedBy message signers = signedBy message others := by
  have hlength : message.signerKeys.length = message.required := List.length_take_of_le hkeys
  rw [signedBy, signedBy, ← hperm.length_eq]
  split_ifs with hfewer hmany hfew
  · rfl
  · rfl
  · rfl
  · have hcount := Nat.le_antisymm (Nat.le_of_not_lt hmany) (Nat.le_of_not_lt hfew)
    rw [signaturesFor_eq_of_perm hnodup (hcount.trans hlength.symm) hperm]

theorem exists_signedBy_of_subset (hkeys : message.required ≤ message.keys.length)
    (hcount : signers.length = message.required)
    (hfound : message.signerKeys ⊆ signers.map Signer.pubkey)
    (hsign : ∀ signer ∈ signers, ∃ signature, signer.sign message.serialize = .ok signature) :
    ∃ v, signedBy message signers = .ok v := by
  obtain ⟨chosen, hchosen⟩ : ∃ chosen, message.signerKeys.mapM (signerFor signers) = .ok chosen :=
    List.exists_mapM_eq_ok fun key hkey => exists_signerFor (hfound hkey)
  obtain ⟨made, hmade⟩ :
      ∃ made, chosen.mapM (fun signer => signer.sign message.serialize) = .ok made := by
    apply List.exists_mapM_eq_ok
    intro signer hsigner
    obtain ⟨key, -, hfor⟩ := (List.forall₂_of_mapM_eq_ok hchosen).exists_of_mem_left hsigner
    exact hsign signer (signerFor_eq_ok hfor).1
  exact ⟨_, signedBy_eq_ok.2 ⟨hkeys, hcount, made, signaturesFor_eq_ok.2 ⟨chosen, hchosen, hmade⟩, rfl⟩⟩

/-- The signers who were found for the keys made the signatures. -/
theorem chosen_of_signedBy (h : signedBy message signers = .ok v) :
    ∃ chosen, message.signerKeys.mapM (signerFor signers) = .ok chosen ∧
      chosen.mapM (fun signer => signer.sign message.serialize) = .ok v.signatures := by
  obtain ⟨-, -, made, hmade, rfl⟩ := signedBy_eq_ok.1 h
  exact signaturesFor_eq_ok.1 hmade

/-- What is in a slot was made by the signer who was found for its key. -/
theorem exists_signerFor_of_signedBy (h : signedBy message signers = .ok v)
    (hkey : message.signerKeys[i]? = some key) :
    ∃ signer signature, signerFor signers key = .ok signer ∧
      signer.sign message.serialize = .ok signature ∧ v.signatures[i]? = some signature := by
  obtain ⟨chosen, hchosen, hmade⟩ := chosen_of_signedBy h
  obtain ⟨signer, hplace, hsigner⟩ := (List.forall₂_of_mapM_eq_ok hchosen).exists_getElem? hkey
  obtain ⟨signature, hslot, hsign⟩ := (List.forall₂_of_mapM_eq_ok hmade).exists_getElem? hplace
  exact ⟨signer, signature, hsigner, hsign, hslot⟩

theorem length_signatures_of_signedBy (h : signedBy message signers = .ok v) :
    v.signatures.length = message.signerKeys.length := by
  obtain ⟨chosen, hchosen, hmade⟩ := chosen_of_signedBy h
  exact (List.forall₂_of_mapM_eq_ok hmade).length_eq.trans (List.forall₂_of_mapM_eq_ok hchosen).length_eq

theorem subset_map_pubkey_of_signedBy (h : signedBy message signers = .ok v) :
    message.signerKeys ⊆ signers.map Signer.pubkey := by
  intro key hkey
  obtain ⟨i, hi⟩ := List.mem_iff_getElem?.1 hkey
  obtain ⟨signer, -, hsigner, -, -⟩ := exists_signerFor_of_signedBy h hi
  obtain ⟨hmem, hpubkey⟩ := signerFor_eq_ok hsigner
  exact List.mem_map.2 ⟨signer, hmem, hpubkey⟩

theorem count_of_signedBy (h : signedBy message signers = .ok v) :
    message.required ≤ message.keys.length ∧
      signers.length = message.signerKeys.length := by
  obtain ⟨hkeys, hcount, -⟩ := signedBy_eq_ok.1 h
  have hlength : message.signerKeys.length = message.required := List.length_take_of_le hkeys
  exact ⟨hkeys, hcount.trans hlength.symm⟩

theorem map_pubkey_perm_of_signedBy (hnodup : message.signerKeys.Nodup)
    (h : signedBy message signers = .ok v) : (signers.map Signer.pubkey).Perm message.signerKeys :=
  map_pubkey_perm_of_subset hnodup (count_of_signedBy h).2 (subset_map_pubkey_of_signedBy h)

/-- Each signer has signed in the slot of its key. -/
theorem exists_sign_of_signedBy (hnodup : message.signerKeys.Nodup) (h : signedBy message signers = .ok v)
    (hsigner : signer ∈ signers) (hkey : message.signerKeys[i]? = some signer.pubkey) :
    ∃ signature, signer.sign message.serialize = .ok signature ∧ v.signatures[i]? = some signature := by
  have hdistinct : (signers.map Signer.pubkey).Nodup :=
    (map_pubkey_perm_of_signedBy hnodup h).nodup_iff.2 hnodup
  obtain ⟨found, signature, hfound, hsign, hslot⟩ := exists_signerFor_of_signedBy h hkey
  rw [(signerFor_eq_ok_iff hdistinct).2 ⟨hsigner, rfl⟩] at hfound
  cases hfound
  exact ⟨signature, hsign, hslot⟩

/-- A slot that is left open is that of a placeholder. -/
theorem exists_null_of_open (hcomplete : scheme.Complete) (hrejects : scheme.RejectsZero)
    (h : signedBy message signers = .ok v) (hopen : v.signatures[i]? = some Fixed.zero) :
    ∃ key, .null key ∈ signers ∧ message.signerKeys[i]? = some key := by
  obtain ⟨hi, -⟩ := List.getElem?_eq_some_iff.1 hopen
  rw [length_signatures_of_signedBy h] at hi
  have hkey := List.getElem?_eq_getElem hi
  obtain ⟨signer, signature, hfound, hsign, hslot⟩ := exists_signerFor_of_signedBy h hkey
  obtain rfl : signature = Fixed.zero := Option.some.inj (hslot.symm.trans hopen)
  obtain ⟨key, rfl⟩ := (Signer.sign_eq_zero_iff hcomplete hrejects).1 hsign
  obtain ⟨hmem, hpubkey⟩ := signerFor_eq_ok hfound
  exact ⟨key, hmem, hkey.trans (congrArg some hpubkey.symm)⟩

/-- Signers with the keys that sign, each of them once, have all signed, and each signed in the slot of its key.
If signatures pass and the placeholder does not, the slots of the placeholders and no others are open. -/
structure SignedInOrder (message : VersionedMessage) (signers : List (Signer scheme)) (v : VersionedTransaction) :
    Prop where
  carried : v.message = message
  slots : v.signatures.length = message.required
  signed : ∀ signer ∈ signers, ∀ i : Nat, message.signerKeys[i]? = some signer.pubkey →
    ∃ signature, signer.sign message.serialize = .ok signature ∧ v.signatures[i]? = some signature
  placeholder : ∀ key, .null key ∈ signers → ∀ i : Nat, message.signerKeys[i]? = some key →
    v.signatures[i]? = some Fixed.zero
  open_iff : scheme.Complete → scheme.RejectsZero → ∀ i : Nat,
    v.signatures[i]? = some Fixed.zero ↔ ∃ key, .null key ∈ signers ∧ message.signerKeys[i]? = some key

theorem signedInOrder_of_signedBy (hnodup : message.signerKeys.Nodup)
    (h : signedBy message signers = .ok v) : SignedInOrder message signers v := by
  obtain ⟨hkeys, -, made, -, hv⟩ := signedBy_eq_ok.1 h
  have hslots : v.signatures.length = message.required :=
    (length_signatures_of_signedBy h).trans (List.length_take_of_le hkeys)
  have hsigned : ∀ signer ∈ signers, ∀ i : Nat, message.signerKeys[i]? = some signer.pubkey →
      ∃ signature, signer.sign message.serialize = .ok signature ∧
        v.signatures[i]? = some signature :=
    fun signer hsigner i hkey => exists_sign_of_signedBy hnodup h hsigner hkey
  have hplaceholder : ∀ key, .null key ∈ signers → ∀ i : Nat, message.signerKeys[i]? = some key →
      v.signatures[i]? = some Fixed.zero := by
    intro key hnull i hkey
    obtain ⟨signature, hsign, hslot⟩ := hsigned _ hnull i hkey
    cases hsign
    exact hslot
  refine ⟨by rw [hv], hslots, hsigned, hplaceholder, ?_⟩
  intro hcomplete hrejects i
  constructor
  · exact exists_null_of_open hcomplete hrejects h
  · intro hnull
    obtain ⟨key, hmem, hkey⟩ := hnull
    exact hplaceholder key hmem i hkey

/-- If the keys that sign are there and differ, the order of the signers is of no account. They are accepted if
their keys are those, each of them once, and all of them sign; then each signs in the slot of its key. -/
theorem signedBy_unordered (scheme : SignatureScheme) (message : VersionedMessage)
    (signers : List (Signer scheme)) (hkeys : message.required ≤ message.keys.length)
    (hnodup : message.signerKeys.Nodup) :
    (∀ others, signers.Perm others → signedBy message signers = signedBy message others) ∧
    ((∃ v, signedBy message signers = .ok v) ↔
      (signers.map Signer.pubkey).Perm message.signerKeys ∧
        ∀ signer ∈ signers, ∃ signature, signer.sign message.serialize = .ok signature) ∧
    ∀ v, signedBy message signers = .ok v → SignedInOrder message signers v := by
  refine ⟨fun others hperm => signedBy_eq_of_perm hkeys hnodup hperm, ⟨?_, ?_⟩, ?_⟩
  · intro haccepted
    obtain ⟨v, hv⟩ := haccepted
    have hperm := map_pubkey_perm_of_signedBy hnodup hv
    refine ⟨hperm, ?_⟩
    intro signer hsigner
    have hkey : signer.pubkey ∈ message.signerKeys := hperm.mem_iff.1 (List.mem_map_of_mem hsigner)
    obtain ⟨i, hi⟩ := List.mem_iff_getElem?.1 hkey
    obtain ⟨signature, hsign, -⟩ := exists_sign_of_signedBy hnodup hv hsigner hi
    exact ⟨signature, hsign⟩
  · intro hall
    obtain ⟨hperm, hsign⟩ := hall
    have hlength : message.signerKeys.length = message.required := List.length_take_of_le hkeys
    have hcount : signers.length = message.required := by
      rw [← hlength, ← hperm.length_eq, List.length_map]
    exact exists_signedBy_of_subset hkeys hcount hperm.symm.subset hsign
  · intro v hv
    exact signedInOrder_of_signedBy hnodup hv

/-- The slot of the placeholder is the only open one, whoever comes first; two placeholders of which one is for no
key that signs are not accepted. -/
theorem signedBy_unordered_recorded :
    let message : VersionedMessage := .legacy Recorded.message
    let second : Signer Recorded.constant := .presigner Recorded.secondKey Recorded.secondSignature
    let v : VersionedTransaction := ⟨[Fixed.zero, Recorded.secondSignature], message⟩
    message.required ≤ message.keys.length ∧ message.signerKeys.Nodup ∧
      signedBy message [second, .null Recorded.firstKey] = .ok v ∧
      signedBy message [.null Recorded.firstKey, second] = .ok v ∧
      (∀ i : Nat, v.signatures[i]? = some Fixed.zero ↔
        ∃ key, .null key ∈ [second, .null Recorded.firstKey] ∧ message.signerKeys[i]? = some key) ∧
      ¬∃ v, signedBy message [second, .null Fixed.zero] = .ok v := by
  intro message second v
  have hkeys : message.required ≤ message.keys.length := by decide
  have hnodup : message.signerKeys.Nodup := by decide
  have hsigned : signedBy message [second, .null Recorded.firstKey] = .ok v := by with_unfolding_all rfl
  obtain ⟨horder, -, hslots⟩ :=
    signedBy_unordered Recorded.constant message [second, .null Recorded.firstKey] hkeys hnodup
  have hturned := horder [.null Recorded.firstKey, second] (List.Perm.swap _ _ _)
  obtain ⟨-, haccepted, -⟩ :=
    signedBy_unordered Recorded.constant message [second, .null Fixed.zero] hkeys hnodup
  refine ⟨hkeys, hnodup, hsigned, hturned ▸ hsigned, ?_, ?_⟩
  · exact (hslots v hsigned).open_iff Recorded.complete_constant Recorded.rejectsZero_constant
  · intro h
    exact absurd (haccepted.1 h).1 (by decide)

/-! ### Keys that have to sign twice -/

/-- Whoever signs a message has the keys that sign, each as often as it has to. -/
def ExactSigners (scheme : SignatureScheme) (message : VersionedMessage) : Prop :=
  ∀ (signers : List (Signer scheme)) (v : VersionedTransaction), signedBy message signers = .ok v →
    (signers.map Signer.pubkey).Perm message.signerKeys

theorem subset_erase_of_two_le_count (h : 2 ≤ keys.count key) : keys ⊆ keys.erase key := by
  intro found hfound
  by_cases hkey : found = key
  · subst hkey
    rw [← List.count_pos_iff, List.count_erase_self]
    omega
  · exact (List.mem_erase_of_ne hkey).2 hfound

theorem map_pubkey_map_null (keys : List Pubkey) : (keys.map (@Signer.null scheme)).map Signer.pubkey = keys := by
  rw [List.map_map]
  exact List.map_id keys

/-- Placeholders are accepted for any keys, as many as have to sign, among which are those that do. -/
theorem exists_signedBy_null (hkeys : message.required ≤ message.keys.length)
    (hcount : keys.length = message.required) (hfound : message.signerKeys ⊆ keys) :
    ∃ v, signedBy message (keys.map (@Signer.null scheme)) = .ok v := by
  apply exists_signedBy_of_subset hkeys
  · rw [List.length_map, hcount]
  · rw [map_pubkey_map_null]
    exact hfound
  · intro signer hsigner
    obtain ⟨key, -, rfl⟩ := List.mem_map.1 hsigner
    exact ⟨_, rfl⟩

/-- One of the placeholders for a key that has to sign twice can be replaced by one for some other key. -/
theorem not_exactSigners_of_two_le_count (hkeys : message.required ≤ message.keys.length)
    (htwice : 2 ≤ message.signerKeys.count key) : ¬ExactSigners scheme message := by
  intro hexact
  obtain ⟨other, hother⟩ : ∃ other : Pubkey, other ≠ key := by
    by_cases hzero : key = Fixed.zero
    · exact ⟨SystemProgram.rent, by rw [hzero]; decide⟩
    · exact ⟨Fixed.zero, Ne.symm hzero⟩
  have hlength : message.signerKeys.length = message.required := List.length_take_of_le hkeys
  have hmem : key ∈ message.signerKeys := List.count_pos_iff.1 (by omega)
  have hcount : (other :: message.signerKeys.erase key).length = message.required := by
    have hpositive := List.length_pos_of_mem hmem
    rw [List.length_cons, List.length_erase_of_mem hmem]
    omega
  have hfound := List.subset_cons_of_subset other (subset_erase_of_two_le_count htwice)
  obtain ⟨v, hv⟩ := @exists_signedBy_null scheme _ _ hkeys hcount hfound
  -- The key is there once less than it has to sign.
  have hperm := hexact _ v hv
  rw [map_pubkey_map_null] at hperm
  have hless := hperm.count_eq key
  rw [List.count_cons_of_ne hother, List.count_erase_self] at hless
  omega

/-- Whoever signs is as many as the keys that sign, and each slot has the signature of one of them for its key. That
nobody is left out and nobody is taken twice is not tested; it follows just if no key has to sign twice. -/
theorem exactSigners_iff_nodup (scheme : SignatureScheme) (message : VersionedMessage) :
    (∀ (signers : List (Signer scheme)) (v : VersionedTransaction), signedBy message signers = .ok v →
      signers.length = message.signerKeys.length ∧
        ∀ (i : Nat) (key : Pubkey), message.signerKeys[i]? = some key →
          ∃ signer ∈ signers, signer.pubkey = key ∧ ∃ signature,
            signer.sign message.serialize = .ok signature ∧ v.signatures[i]? = some signature) ∧
    (ExactSigners scheme message ↔
      message.keys.length < message.required ∨ message.signerKeys.Nodup) := by
  refine ⟨?_, ?_, ?_⟩
  · intro signers v hv
    refine ⟨(count_of_signedBy hv).2, ?_⟩
    intro i key hkey
    obtain ⟨signer, signature, hsigner, hsign, hslot⟩ := exists_signerFor_of_signedBy hv hkey
    obtain ⟨hmem, hpubkey⟩ := signerFor_eq_ok hsigner
    exact ⟨signer, hmem, hpubkey, signature, hsign, hslot⟩
  · intro hexact
    by_cases hkeys : message.required ≤ message.keys.length
    · right
      rw [List.nodup_iff_count_le_one]
      intro key
      by_contra htwice
      exact not_exactSigners_of_two_le_count hkeys (Nat.lt_of_not_le htwice) hexact
    · exact Or.inl (Nat.lt_of_not_le hkeys)
  · intro hcases signers v hv
    rcases hcases with hfewer | hnodup
    · exact absurd (count_of_signedBy hv).1 (Nat.not_le.2 hfewer)
    · exact map_pubkey_perm_of_signedBy hnodup hv

/-- A message that lists the same key twice among those that sign is accepted with the placeholder for it and another
for a key that is not in the message. -/
theorem exists_accepted_leftover_signer :
    let key : Pubkey := ⟨List.replicate 32 1, rfl⟩
    let other : Pubkey := ⟨List.replicate 32 2, rfl⟩
    let message : VersionedMessage := .legacy ⟨⟨2, 0, 0⟩, [key, key], Fixed.zero, []⟩
    let signers : List (Signer ed25519) := [.null key, .null other]
    signedBy message signers = .ok ⟨[Fixed.zero, Fixed.zero], message⟩ ∧
      ¬(signers.map Signer.pubkey).Perm message.signerKeys := by
  intro key other message signers
  refine ⟨?_, ?_⟩
  · with_unfolding_all rfl
  · decide

end LedgerTx.VersionedTransaction
