import LedgerTx.Proofs.SignatureScheme
import LedgerTx.Proofs.Transaction.Slots

/-! What one call that signs partially does to a transaction. Where it succeeds, the last signer for a place
decides what stands there, and a place without a signer is as the block hash left it. Where it fails, either
a check beforehand failed and nothing has changed, or a signer stopped the row, and what is left is what a
call with the signers before that one leaves. Both are about one signer in the middle of a row, whose slot
does not depend on what was filled before. -/

namespace LedgerTx.Transaction

variable {scheme : SignatureScheme} {t left : Transaction} {key : Pubkey} {i : Nat} {bs : Bytes}
  {blockhash : Hash} {signer : Signer scheme} {signers before after : List (Signer scheme)} {e : SignerError}

/-- The last of the signers whose key is found at a place among the keys that sign. A key that is there twice
is found at its first place. -/
def lastAt? (m : Message) (signers : List (Signer scheme)) (i : Nat) : Option (Signer scheme) :=
  signers.findRev? fun signer => m.signerKeys.idxOf? signer.pubkey == some i

theorem lastAt?_eq_some {m : Message} (h : lastAt? m signers i = some signer) :
    ∃ before after, signers = before ++ signer :: after ∧ m.signerKeys.idxOf? signer.pubkey = some i ∧
      ∀ later ∈ after, m.signerKeys.idxOf? later.pubkey ≠ some i := by
  rw [lastAt?, List.findRev?_eq_find?_reverse, List.find?_eq_some_iff_append] at h
  obtain ⟨hplace, after, before, hsplit, hafter⟩ := h
  refine ⟨before.reverse, after.reverse, ?_, beq_iff_eq.1 hplace, ?_⟩
  · rw [← List.reverse_reverse signers, hsplit]
    simp
  · intro later hlater hsame
    have hmiss := hafter later (List.mem_reverse.1 hlater)
    simp [hsame] at hmiss

theorem lastAt?_eq_none {m : Message} (h : lastAt? m signers i = none) :
    ∀ signer ∈ signers, m.signerKeys.idxOf? signer.pubkey ≠ some i := by
  rw [lastAt?, List.findRev?_eq_find?_reverse, List.find?_eq_none] at h
  intro signer hsigner hplace
  exact h signer (List.mem_reverse.2 hsigner) (beq_iff_eq.2 hplace)

/-- A signer in a row that succeeds fills the slot that it had at the start. -/
theorem exists_fill_of_fills (h : (before ++ signer :: after).forM (fill bs) t = .ok () left) :
    ∃ middle i signature, before.forM (fill bs) t = .ok () middle ∧ t.SameSlots middle ∧
      t.slot? signer.pubkey = some i ∧ signer.sign bs = .ok signature ∧
      (before ++ [signer]).forM (fill bs) t =
        .ok () ⟨middle.signatures.set i signature, middle.message⟩ ∧
      after.forM (fill bs) ⟨middle.signatures.set i signature, middle.message⟩ = .ok () left := by
  obtain ⟨middle, hbefore, h⟩ := EStateM.forM_append_eq_ok.1 h
  obtain ⟨next, hfill, hafter⟩ := EStateM.forM_cons_eq_ok.1 h
  have hsame : t.SameSlots middle := sameSlots_of_fills hbefore
  have hupto : (before ++ [signer]).forM (fill bs) t = .ok () next :=
    EStateM.forM_append_eq_ok.2 ⟨middle, hbefore, EStateM.forM_singleton_eq_ok.2 hfill⟩
  obtain ⟨i, signature, hslot, hsign, rfl⟩ := fill_eq_ok.1 hfill
  exact ⟨middle, i, signature, hbefore, hsame, hsame.slot?_eq.symm.trans hslot, hsign, hupto, hafter⟩

theorem signs_of_fills (h : signers.forM (fill bs) t = .ok () left) (hsigner : signer ∈ signers) :
    t.slot? signer.pubkey ≠ none ∧ ∃ signature, signer.sign bs = .ok signature := by
  obtain ⟨before, after, rfl⟩ := List.append_of_mem hsigner
  obtain ⟨_, i, signature, -, -, hslot, hsign, -⟩ := exists_fill_of_fills h
  rw [hslot]
  exact ⟨Option.some_ne_none i, signature, hsign⟩

/-- The last signer for a slot decides what stands in it. -/
theorem getElem?_signatures_of_last (h : (before ++ signer :: after).forM (fill bs) t = .ok () left)
    (hslot : t.slot? signer.pubkey = some i) (hafter : ∀ later ∈ after, t.slot? later.pubkey ≠ some i) :
    ∃ signature, signer.sign bs = .ok signature ∧ left.signatures[i]? = some signature := by
  obtain ⟨middle, j, signature, -, hsame, hj, hsign, -, hrest⟩ := exists_fill_of_fills h
  obtain rfl : i = j := Option.some.inj (hslot.symm.trans hj)
  have hlt : i < middle.signatures.length := by
    rw [hsame.2]
    exact (slot?_eq_some hslot).1
  refine ⟨signature, hsign, ?_⟩
  rw [getElem?_signatures_of_slot?_ne _ hrest]
  · exact List.getElem?_set_self hlt
  · intro later hlater
    rw [(hsame.set i signature).slot?_eq]
    exact hafter later hlater

/-- What signers have written when a call that signs partially succeeds. -/
structure Written (signers : List (Signer scheme)) (blockhash : Hash) (t left : Transaction) :
    Prop where
  message : left.message = { t.message with recentBlockhash := blockhash }
  slots : left.signatures.length = t.signatures.length
  signed : ∀ i signer, lastAt? t.message signers i = some signer →
    ∃ signature, signer.sign (Message.serialize { t.message with recentBlockhash := blockhash }) =
      .ok signature ∧ left.signatures[i]? = some signature
  kept : ∀ i, lastAt? t.message signers i = none → t.message.recentBlockhash = blockhash →
    left.signatures[i]? = t.signatures[i]?
  opened : ∀ i < t.signatures.length, lastAt? t.message signers i = none →
    t.message.recentBlockhash ≠ blockhash → left.signatures[i]? = some Fixed.zero

/-- The positions that are reported for the keys of the signers are those of the slots that the signers fill,
each after the signers before it. -/
def FillsReported (signers : List (Signer scheme)) (blockhash : Hash) (t : Transaction) : Prop :=
  ∃ places, t.signingPositions (signers.map Signer.pubkey) = .ok places ∧
    ∀ before signer after, signers = before ++ signer :: after →
      ∃ middle i signature, places[before.length]? = some (some i) ∧
        signer.sign (Message.serialize { t.message with recentBlockhash := blockhash }) = .ok signature ∧
        partialSign before blockhash t = .ok () middle ∧
        partialSign (before ++ [signer]) blockhash t =
          .ok () ⟨middle.signatures.set i signature, middle.message⟩

theorem written_of_partialSign_eq_ok (h : partialSign signers blockhash t = .ok () left) :
    Written signers blockhash t left := by
  obtain ⟨hslots, hfills⟩ := partialSign_eq_ok.1 h
  have hsame := sameSlots_of_fills hfills
  have hplace : ∀ key, (t.withBlockhash blockhash).slot? key = t.message.signerKeys.idxOf? key :=
    fun key => slot?_withBlockhash.trans (slot?_eq_idxOf? hslots)
  have huntouched : ∀ i, lastAt? t.message signers i = none →
      left.signatures[i]? = (t.withBlockhash blockhash).signatures[i]? := by
    intro i hnone
    apply getElem?_signatures_of_slot?_ne _ hfills
    intro signer hsigner
    rw [hplace]
    exact lastAt?_eq_none hnone signer hsigner
  refine ⟨hsame.1.trans message_withBlockhash, hsame.2.trans length_signatures_withBlockhash, ?_, ?_, ?_⟩
  · intro i signer hlast
    obtain ⟨before, after, rfl, hsigner, hafter⟩ := lastAt?_eq_some hlast
    rw [← messageBytes_withBlockhash]
    apply getElem?_signatures_of_last hfills ((hplace _).trans hsigner)
    intro later hlater
    rw [hplace]
    exact hafter later hlater
  · intro i hnone hblockhash
    rw [huntouched i hnone, withBlockhash_of_eq hblockhash]
  · intro i hi hnone hblockhash
    rw [huntouched i hnone, withBlockhash_of_ne hblockhash, List.getElem?_map, List.getElem?_eq_getElem hi,
      Option.map_some]

theorem fillsReported_of_partialSign_eq_ok (h : partialSign signers blockhash t = .ok () left)
    (hkeys : t.required ≤ t.message.accountKeys.length) : FillsReported signers blockhash t := by
  obtain ⟨hslots, hfills⟩ := partialSign_eq_ok.1 h
  refine ⟨_, if_neg (Nat.not_lt.2 hkeys), ?_⟩
  rintro before signer after rfl
  obtain ⟨middle, i, signature, hbefore, -, hslot, hsign, hupto, -⟩ := exists_fill_of_fills hfills
  rw [slot?_withBlockhash, slot?_eq_idxOf? hslots] at hslot
  rw [messageBytes_withBlockhash] at hsign
  refine ⟨middle, i, signature, ?_, hsign, partialSign_eq_ok.2 ⟨hslots, hbefore⟩,
    partialSign_eq_ok.2 ⟨hslots, hupto⟩⟩
  simp [hslot]

/-- A call that signs partially without failing sets the block hash, puts the signature of the last signer for
a slot there, and opens the other slots if the block hash is another one; the slots are those reported. -/
theorem written_of_partialSign (h : partialSign signers blockhash t = .ok () left) :
    Written signers blockhash t left ∧
      (t.required ≤ t.message.accountKeys.length → FillsReported signers blockhash t) :=
  ⟨written_of_partialSign_eq_ok h, fillsReported_of_partialSign_eq_ok h⟩

/-- A signature from under another block hash is cleared, and the first slot is filled twice: by a placeholder for
its key, and then by the signer of the key. -/
theorem written_of_partialSign_recorded :
    let signers := [Signer.null Recorded.firstKey, Recorded.second, Recorded.first]
    let t : Transaction :=
      ⟨[Recorded.secondSignature, Fixed.zero], { Recorded.message with recentBlockhash := Fixed.zero }⟩
    partialSign signers Recorded.blockhash t = .ok () Recorded.signed ∧
      t.required ≤ t.message.accountKeys.length ∧
      Written signers Recorded.blockhash t Recorded.signed ∧
      FillsReported signers Recorded.blockhash t := by
  intro signers t
  have hcall : partialSign signers Recorded.blockhash t = .ok () Recorded.signed := by
    with_unfolding_all rfl
  have hkeys : t.required ≤ t.message.accountKeys.length := by decide
  obtain ⟨hwritten, hreported⟩ := written_of_partialSign hcall
  exact ⟨hcall, hkeys, hwritten, hreported hkeys⟩

/-- A signer has no slot or does not sign, after signers that are left as a call with them alone leaves them. -/
structure StoppedAt (blockhash : Hash) (t left : Transaction) (e : SignerError)
    (before : List (Signer scheme)) (signer : Signer scheme) : Prop where
  before_ok : partialSign before blockhash t = .ok () left
  before_sign : ∀ earlier ∈ before, earlier.pubkey ∈ t.message.signerKeys ∧ ∃ signature,
    earlier.sign (Message.serialize { t.message with recentBlockhash := blockhash }) = .ok signature
  reason : signer.pubkey ∉ t.message.signerKeys ∧ e = .keypairPubkeyMismatch ∨
    signer.pubkey ∈ t.message.signerKeys ∧
      signer.sign (Message.serialize { t.message with recentBlockhash := blockhash }) = .error e

theorem stoppedAt_of_fills (hslots : t.signatures.length = t.required)
    (h : signers.forM (fill (t.withBlockhash blockhash).messageBytes) (t.withBlockhash blockhash) =
      .error e left) :
    ∃ before signer after, signers = before ++ signer :: after ∧
      StoppedAt blockhash t left e before signer := by
  obtain ⟨before, signer, after, middle, rfl, hbefore, hfails⟩ := EStateM.forM_eq_error.1 h
  obtain ⟨rfl, hreason⟩ := fill_eq_error.1 hfails
  have hsame := sameSlots_of_fills hbefore
  have hplace : ∀ key, (t.withBlockhash blockhash).slot? key = none ↔ key ∉ t.message.signerKeys := by
    intro key
    rw [slot?_withBlockhash, slot?_eq_none_iff hslots]
  refine ⟨before, signer, after, rfl, partialSign_eq_ok.2 ⟨hslots, hbefore⟩, ?_, ?_⟩
  · intro earlier hearlier
    obtain ⟨hslot, hsign⟩ := signs_of_fills hbefore hearlier
    rw [Ne, hplace, not_not] at hslot
    rw [messageBytes_withBlockhash] at hsign
    exact ⟨hslot, hsign⟩
  · rw [hsame.slot?_eq, Ne, hplace, not_not, messageBytes_withBlockhash] at hreason
    exact hreason

/-- Where the checks beforehand pass, it is a signer of the row that fails. -/
theorem stoppedAt_of_partialSign (h : partialSign signers blockhash t = .error e left)
    (hslots : t.signatures.length = t.required)
    (hfirst : ∀ first, signers.head? = some first → first.pubkey ∈ t.message.signerKeys) :
    ∃ before signer after, signers = before ++ signer :: after ∧
      StoppedAt blockhash t left e before signer := by
  apply stoppedAt_of_fills hslots
  rw [← partialSign_of_first_admitted hslots, h]
  intro first hhead hslot
  exact (slot?_eq_none_iff hslots).1 hslot (hfirst first hhead)

theorem partialSign_of_stranger {first : Signer scheme} (hslots : t.signatures.length = t.required)
    (hfirst : signers.head? = some first) (hkey : first.pubkey ∉ t.message.signerKeys) :
    partialSign signers blockhash t = .error .keypairPubkeyMismatch t :=
  partialSign_of_first_refused hslots hfirst ((slot?_eq_none_iff hslots).2 hkey)

/-- A call that fails to sign partially changes nothing if the slots are not as many as required or the first
signer has none, and otherwise leaves what a call with the signers before some signer leaves, which has no
slot or does not sign. Strangers alone change nothing. -/
theorem left_of_partialSign (signers : List (Signer scheme)) (blockhash : Hash) (t : Transaction) :
    (∀ e left, partialSign signers blockhash t = .error e left →
      (t.signatures.length ≠ t.required →
        e = .invalidInput (.slotCount t.signatures.length t.required) ∧ left = t) ∧
      (t.signatures.length = t.required →
        ∀ first, signers.head? = some first → first.pubkey ∉ t.message.signerKeys →
          e = .keypairPubkeyMismatch ∧ left = t) ∧
      (t.signatures.length = t.required →
        (∀ first, signers.head? = some first → first.pubkey ∈ t.message.signerKeys) →
          ∃ before signer after, signers = before ++ signer :: after ∧
            StoppedAt blockhash t left e before signer)) ∧
    (signers ≠ [] → (∀ signer ∈ signers, signer.pubkey ∉ t.message.signerKeys) →
      ∃ e, partialSign signers blockhash t = .error e t) := by
  constructor
  · intro e left h
    refine ⟨?_, ?_, fun hslots hfirst => stoppedAt_of_partialSign h hslots hfirst⟩
    · intro hslots
      rw [partialSign_of_slots_ne hslots] at h
      cases h
      exact ⟨rfl, rfl⟩
    · intro hslots first hfirst hkey
      rw [partialSign_of_stranger hslots hfirst hkey] at h
      cases h
      exact ⟨rfl, rfl⟩
  · intro hsigners hstrangers
    obtain ⟨first, rest, rfl⟩ := List.exists_cons_of_ne_nil hsigners
    by_cases hslots : t.signatures.length = t.required
    · exact ⟨_, partialSign_of_stranger hslots rfl (hstrangers first List.mem_cons_self)⟩
    · exact ⟨_, partialSign_of_slots_ne hslots⟩

/-- A stranger stops the row after the first signer, under another block hash than before; alone it changes
nothing. -/
theorem left_of_partialSign_recorded :
    let stranger : Signer Recorded.scheme := .null Fixed.zero
    let signers := [Recorded.first, stranger, Recorded.second]
    let t : Transaction :=
      ⟨[Fixed.zero, Recorded.secondSignature], { Recorded.message with recentBlockhash := Fixed.zero }⟩
    let half : Transaction := ⟨[Recorded.firstSignature, Fixed.zero], Recorded.message⟩
    partialSign signers Recorded.blockhash t = .error .keypairPubkeyMismatch half ∧
      (∃ before signer after, signers = before ++ signer :: after ∧
        StoppedAt Recorded.blockhash t half .keypairPubkeyMismatch before signer) ∧
      ∃ e, partialSign [stranger] Recorded.blockhash t = .error e t := by
  intro stranger signers t half
  have hcall : partialSign signers Recorded.blockhash t = .error .keypairPubkeyMismatch half := by
    with_unfolding_all rfl
  obtain ⟨-, -, hstopped⟩ := (left_of_partialSign signers Recorded.blockhash t).1 _ _ hcall
  have hfirst : ∀ first, signers.head? = some first → first.pubkey ∈ t.message.signerKeys := by
    intro first hhead
    cases hhead
    decide
  have hstranger : ∀ signer ∈ [stranger], signer.pubkey ∉ t.message.signerKeys := by
    intro signer hsigner
    cases List.mem_singleton.1 hsigner
    decide
  exact ⟨hcall, hstopped rfl hfirst,
    (left_of_partialSign [stranger] Recorded.blockhash t).2 (List.cons_ne_nil _ _) hstranger⟩

end LedgerTx.Transaction
