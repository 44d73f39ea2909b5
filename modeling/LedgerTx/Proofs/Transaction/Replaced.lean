import LedgerTx.Proofs.Transaction.Verdicts
import LedgerTx.Transaction.Signing

/-! What is left of a transaction whose keys and signatures were replaced. They are put in all at once, which
comes to the same as putting them in one after the other; the keys are part of what is signed, so that no
signature can be tested before the last key is in its place. Replacing either changes nothing, because the
counts do not fit, or it changes everything that it is meant to change, even if the outcome does not pass. -/

/-- Writing right behind a front that has taken the place of as many members moves the border by one. -/
theorem List.set_map_append_drop {α β : Type} (f : β → α) {front : List β} {old : List α}
    (h : front.length < old.length) (b : β) :
    (front.map f ++ old.drop front.length).set front.length (f b) =
      (front ++ [b]).map f ++ old.drop (front ++ [b]).length := by
  have hborder : (front.map f).length ≤ front.length := Nat.le_of_eq (List.length_map f)
  rw [List.set_append_right _ _ hborder, List.length_map, Nat.sub_self, List.drop_eq_getElem_cons h,
    List.set_cons_zero, List.map_append, List.length_append, List.append_assoc]
  rfl

namespace LedgerTx.Transaction

variable {scheme : SignatureScheme} {entries more : List (Pubkey × Signature)} {entry : Pubkey × Signature}
  {t left : Transaction} {i : Nat}

/-- The transaction in which the given keys and signatures stand in the place of the first ones. -/
def withEntries (t : Transaction) (entries : List (Pubkey × Signature)) : Transaction :=
  ⟨entries.map Prod.snd ++ t.signatures.drop entries.length,
    { t.message with accountKeys := entries.map Prod.fst ++ t.message.accountKeys.drop entries.length }⟩

/-- Puts a key and a signature at a place. -/
def put (t : Transaction) (i : Nat) (entry : Pubkey × Signature) : Transaction :=
  ⟨t.signatures.set i entry.2, { t.message with accountKeys := t.message.accountKeys.set i entry.1 }⟩

/-- Puts keys and signatures at the places from a given one on. -/
def putFrom : Nat → List (Pubkey × Signature) → Transaction → Transaction
  | _, [], t => t
  | i, entry :: entries, t => putFrom (i + 1) entries (t.put i entry)

/-- One more entry is put in at the place behind those that are in already. -/
theorem put_withEntries (hslots : entries.length < t.signatures.length)
    (hkeys : entries.length < t.message.accountKeys.length) :
    (t.withEntries entries).put entries.length entry = t.withEntries (entries ++ [entry]) :=
  congrArg₂
    (fun signatures keys => (⟨signatures, { t.message with accountKeys := keys }⟩ : Transaction))
    (List.set_map_append_drop Prod.snd hslots entry) (List.set_map_append_drop Prod.fst hkeys entry)

theorem putFrom_withEntries (hslots : entries.length + more.length ≤ t.signatures.length)
    (hkeys : entries.length + more.length ≤ t.message.accountKeys.length) :
    putFrom entries.length more (t.withEntries entries) = t.withEntries (entries ++ more) := by
  induction more generalizing entries with
  | nil => rw [putFrom, List.append_nil]
  | cons entry more ih =>
      rw [List.length_cons] at hslots hkeys
      have hnext : entries.length + 1 = (entries ++ [entry]).length := by
        rw [List.length_append, List.length_singleton]
      rw [putFrom, put_withEntries (by omega) (by omega), hnext, ih, ← List.append_cons]
      · rw [← hnext]
        omega
      · rw [← hnext]
        omega

/-- There are as many entries and slots as signatures required, and no fewer keys. -/
structure Admits (t : Transaction) (entries : List (Pubkey × Signature)) : Prop where
  entries : entries.length = t.required
  slots : t.signatures.length = t.required
  keys : t.required ≤ t.message.accountKeys.length

theorem replaceSignatures_of_not_admits (h : ¬t.Admits entries) :
    replaceSignatures scheme entries t = .error (.sanitize .indexOutOfBounds) t := by
  apply if_pos
  by_contra hfits
  rw [not_or, not_or, not_not, not_not, Nat.not_lt] at hfits
  exact h ⟨hfits.1, hfits.2.1, hfits.2.2⟩

namespace Admits

variable (h : t.Admits entries)

include h

theorem putFrom_zero : putFrom 0 entries t = t.withEntries entries := by
  have hslots : entries.length ≤ t.signatures.length := Nat.le_of_eq (h.entries.trans h.slots.symm)
  have hkeys : entries.length ≤ t.message.accountKeys.length := Nat.le_trans (Nat.le_of_eq h.entries) h.keys
  rw [← Nat.zero_add entries.length] at hslots hkeys
  exact @putFrom_withEntries [] entries t hslots hkeys

theorem signatures_withEntries : (t.withEntries entries).signatures = entries.map Prod.snd := by
  have hrest : t.signatures.drop entries.length = [] :=
    List.drop_eq_nil_of_le (Nat.le_of_eq (h.slots.trans h.entries.symm))
  rw [withEntries, hrest, List.append_nil]

theorem not_refused : ¬(entries.length ≠ t.required ∨ t.signatures.length ≠ t.required ∨
    t.message.accountKeys.length < t.required) := by
  rw [not_or, not_or, not_not, not_not, Nat.not_lt]
  exact ⟨h.entries, h.slots, h.keys⟩

/-- What is put in fits, and takes the place of what there was. -/
theorem putIn_eq : (⟨entries.map Prod.snd,
    { t.message with accountKeys := entries.map Prod.fst ++ t.message.accountKeys.drop t.required }⟩ :
      Transaction) = t.withEntries entries := by
  rw [← h.signatures_withEntries, ← h.entries]
  rfl

theorem replaceSignatures_of_verified (hverified : (t.withEntries entries).sealing.Verified scheme) :
    replaceSignatures scheme entries t = .ok () (t.withEntries entries) := by
  have hverify : (t.withEntries entries).verify scheme = .ok () := by
    rw [verify, (decides_verifyAndHash scheme _).ok hverified]
    rfl
  rw [replaceSignatures, if_neg h.not_refused]
  simp only [h.putIn_eq, hverify]

theorem replaceSignatures_of_not_verified (hverified : ¬(t.withEntries entries).sealing.Verified scheme) :
    replaceSignatures scheme entries t = .error .signatureFailure (t.withEntries entries) := by
  have hverify : (t.withEntries entries).verify scheme = .error .signatureFailure := by
    rw [verify, (decides_verifyAndHash scheme _).error hverified]
    rfl
  rw [replaceSignatures, if_neg h.not_refused]
  simp only [h.putIn_eq, hverify]

theorem getElem?_of_entry (hentry : entries[i]? = some entry) :
    (t.withEntries entries).signatures[i]? = some entry.2 ∧
      (t.withEntries entries).message.accountKeys[i]? = some entry.1 := by
  obtain ⟨hi, -⟩ := List.getElem?_eq_some_iff.1 hentry
  rw [h.signatures_withEntries, withEntries, List.getElem?_append_left (by rwa [List.length_map]),
    List.getElem?_map, List.getElem?_map, hentry]
  exact ⟨rfl, rfl⟩

/-- Each entry is tested by itself, under its key and for the message that has all the keys. -/
theorem verified_iff : (t.withEntries entries).sealing.Verified scheme ↔
    ∀ entry ∈ entries, scheme.verify entry.1 (t.withEntries entries).messageBytes entry.2 = true := by
  constructor
  · intro hverified entry hentry
    obtain ⟨i, hi⟩ := List.mem_iff_getElem?.1 hentry
    obtain ⟨hsignature, hkey⟩ := h.getElem?_of_entry hi
    exact hverified.each i _ _ hsignature hkey
  · intro hall
    constructor
    · show (t.withEntries entries).signatures.length = (t.withEntries entries).required
      rw [h.signatures_withEntries, List.length_map]
      exact h.entries
    · intro i signature key hsignature hkey
      change (t.withEntries entries).signatures[i]? = some signature at hsignature
      rw [h.signatures_withEntries, List.getElem?_map] at hsignature
      obtain ⟨entry, hi, rfl⟩ := Option.map_eq_some_iff.1 hsignature
      have hkey' := (h.getElem?_of_entry hi).2
      obtain rfl : entry.1 = key := Option.some.inj (hkey'.symm.trans hkey)
      exact hall entry (List.mem_of_getElem? hi)

theorem isSigned_of_verified (hrejects : scheme.RejectsZero)
    (hverified : (t.withEntries entries).sealing.Verified scheme) :
    (t.withEntries entries).isSigned scheme = true := by
  refine isSigned_iff.2 ⟨hverified, ?_⟩
  show ∀ signature ∈ (t.withEntries entries).signatures, signature ≠ Fixed.zero
  rw [h.signatures_withEntries]
  intro signature hsignature
  obtain ⟨entry, hentry, rfl⟩ := List.mem_map.1 hsignature
  exact hrejects.ne_zero (h.verified_iff.1 hverified entry hentry)

end Admits

/-- What is left once the keys and signatures of a transaction were replaced, whether or not they pass. -/
structure Replaced (entries : List (Pubkey × Signature)) (t left : Transaction) : Prop where
  inTurn : left = putFrom 0 entries t
  entries : ∀ (i : Nat) (entry : Pubkey × Signature), entries[i]? = some entry →
    left.signatures[i]? = some entry.2 ∧ left.message.accountKeys[i]? = some entry.1
  slots : left.signatures.length = t.signatures.length
  otherKeys : ∀ i : Nat, t.required ≤ i → left.message.accountKeys[i]? = t.message.accountKeys[i]?
  header : left.message.header = t.message.header
  recentBlockhash : left.message.recentBlockhash = t.message.recentBlockhash
  instructions : left.message.instructions = t.message.instructions

theorem Admits.replaced (h : t.Admits entries) : Replaced entries t (t.withEntries entries) where
  inTurn := h.putFrom_zero.symm
  entries _ _ := h.getElem?_of_entry
  slots := by rw [h.signatures_withEntries, List.length_map, h.entries, h.slots]
  otherKeys i hi := by
    have hbehind : entries.length ≤ i := Nat.le_trans (Nat.le_of_eq h.entries) hi
    rw [withEntries, List.getElem?_append_right (by rwa [List.length_map]), List.length_map,
      List.getElem?_drop, Nat.add_sub_of_le hbehind]
  header := rfl
  recentBlockhash := rfl
  instructions := rfl

/-- Keys and signatures that do not fit the transaction change nothing. Others are all put in, and nothing else
changes, whether or not they pass; they pass if every signature does under the key that it comes with, for the
message with all the keys, and then the transaction is signed. -/
theorem replaced_of_replaceSignatures (scheme : SignatureScheme) (entries : List (Pubkey × Signature))
    (t : Transaction) :
    (¬t.Admits entries → replaceSignatures scheme entries t = .error (.sanitize .indexOutOfBounds) t) ∧
    (t.Admits entries → ∃ left, Replaced entries t left ∧
      ((∀ entry ∈ entries, scheme.verify entry.1 left.message.serialize entry.2 = true) →
        replaceSignatures scheme entries t = .ok () left) ∧
      (¬(∀ entry ∈ entries, scheme.verify entry.1 left.message.serialize entry.2 = true) →
        replaceSignatures scheme entries t = .error .signatureFailure left)) ∧
    (scheme.RejectsZero → ∀ left, replaceSignatures scheme entries t = .ok () left →
      left.isSigned scheme = true) := by
  refine ⟨replaceSignatures_of_not_admits, ?_, ?_⟩
  · intro h
    refine ⟨t.withEntries entries, h.replaced, ?_, ?_⟩
    · intro hall
      exact h.replaceSignatures_of_verified (h.verified_iff.2 hall)
    · intro hfails
      exact h.replaceSignatures_of_not_verified (h.verified_iff.not.2 hfails)
  · intro hrejects left hleft
    by_cases h : t.Admits entries
    · by_cases hverified : (t.withEntries entries).sealing.Verified scheme
      · rw [h.replaceSignatures_of_verified hverified] at hleft
        cases hleft
        exact h.isSigned_of_verified hrejects hverified
      · rw [h.replaceSignatures_of_not_verified hverified] at hleft
        cases hleft
    · rw [replaceSignatures_of_not_admits h] at hleft
      cases hleft

/-- The signatures pass for the message with both new keys, and for no other. In the other order they are put in
as well, and do not pass; one of them alone is not put in. -/
theorem replaced_of_replaceSignatures_recorded :
    let first := (Recorded.firstKey, Recorded.firstSignature)
    let second := (Recorded.secondKey, Recorded.secondSignature)
    let t : Transaction := unsigned { Recorded.message with accountKeys := [Fixed.zero, Recorded.firstKey] }
    let turned : Transaction :=
      ⟨[Recorded.secondSignature, Recorded.firstSignature],
        { Recorded.message with accountKeys := [Recorded.secondKey, Recorded.firstKey] }⟩
    let scheme := Recorded.scheme.strict
    (t.Admits [first, second] ∧ replaceSignatures scheme [first, second] t = .ok () Recorded.signed ∧
      Replaced [first, second] t Recorded.signed) ∧
    (scheme.RejectsZero ∧ Recorded.signed.isSigned scheme = true) ∧
    (t.Admits [second, first] ∧
      replaceSignatures scheme [second, first] t = .error .signatureFailure turned) ∧
    ¬t.Admits [first] ∧ replaceSignatures scheme [first] t = .error (.sanitize .indexOutOfBounds) t := by
  intro first second t turned scheme
  have hrejects : scheme.RejectsZero :=
    (SignatureScheme.rejectsSmallOrder_strict Recorded.scheme).rejectsZero
  have hboth : t.Admits [first, second] := ⟨rfl, rfl, by decide⟩
  have hturned : t.Admits [second, first] := ⟨rfl, rfl, by decide⟩
  have hone : ¬t.Admits [first] := fun h => absurd h.entries (by decide)
  have hpasses : ∀ entry ∈ [first, second],
      scheme.verify entry.1 Recorded.message.serialize entry.2 = true := by
    decide +kernel
  have hfails : ¬∀ entry ∈ [second, first],
      scheme.verify entry.1 turned.message.serialize entry.2 = true := by
    decide +kernel
  obtain ⟨-, hreplaces, hsigned⟩ := replaced_of_replaceSignatures scheme [first, second] t
  obtain ⟨left, hreplaced, hok, -⟩ := hreplaces hboth
  obtain rfl : left = Recorded.signed := hreplaced.inTurn
  have hcall := hok hpasses
  obtain ⟨-, hreplaces, -⟩ := replaced_of_replaceSignatures scheme [second, first] t
  obtain ⟨left, hleft, -, herror⟩ := hreplaces hturned
  obtain rfl : left = turned := hleft.inTurn
  obtain ⟨hrefused, -, -⟩ := replaced_of_replaceSignatures scheme [first] t
  exact ⟨⟨hboth, hcall, hreplaced⟩, ⟨hrejects, hsigned hrejects _ hcall⟩, ⟨hturned, herror hfails⟩, hone, hrefused hone⟩

end LedgerTx.Transaction
