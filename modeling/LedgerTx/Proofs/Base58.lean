import LedgerTx.Fixed
import Mathlib.Data.List.TakeWhile
import Mathlib.Data.Nat.Digits.Lemmas
import Mathlib.Data.String.Basic

/-! Base 58 as a relation. A text spells a byte string if its digits are those of the same number, to another
base, and as many of them are leading zeros; nothing in this says which of the two is computed from the
other. Digits without leading zeros are told by their number, so that each side is told by the other one,
and writing and reading are the two ways to follow the relation. -/

namespace LedgerTx.Base58

theorem digits_eq_digits {base : Nat} (hbase : 1 < base) (n : Nat) : digits base n = Nat.digits base n := by
  induction n using Nat.strong_induction_on with
  | h n ih =>
      rw [digits]
      split
      · next h =>
          obtain rfl : n = 0 := by omega
          exact (Nat.digits_zero base).symm
      · next h =>
          have hn : 0 < n := by omega
          rw [Nat.digits_def' hbase hn, ih _ (Nat.div_lt_self hn hbase)]

theorem ofDigits_eq_ofDigits (base : Nat) (ds : List Nat) :
    ofDigits base ds = Nat.ofDigits base ds.reverse := by
  rw [Nat.ofDigits_eq_foldr, List.foldr_reverse]
  simp only [ofDigits, Nat.cast_id, Nat.add_comm]

/-- The zeros that digits, most significant first, start with. -/
def leading (ds : List Nat) : List Nat := ds.takeWhile (· = 0)

/-- The digits from the first one on that is not zero. -/
def significant (ds : List Nat) : List Nat := ds.dropWhile (· = 0)

theorem leading_append_significant (ds : List Nat) : leading ds ++ significant ds = ds :=
  List.takeWhile_append_dropWhile

theorem eq_zero_of_mem_leading {ds : List Nat} {d : Nat} (hd : d ∈ leading ds) : d = 0 := by
  simpa using List.mem_takeWhile_imp hd

theorem leading_append (ds es : List Nat) : leading (leading ds ++ es) = leading ds ++ leading es :=
  List.takeWhile_append_of_pos fun _ hd => decide_eq_true (eq_zero_of_mem_leading hd)

theorem significant_append (ds es : List Nat) : significant (leading ds ++ es) = significant es :=
  List.dropWhile_append_of_pos fun _ hd => decide_eq_true (eq_zero_of_mem_leading hd)

theorem ofDigits_significant (base : Nat) (ds : List Nat) :
    ofDigits base (significant ds) = ofDigits base ds := by
  induction ds with
  | nil => rfl
  | cons d ds ih =>
      by_cases hd : d = 0
      · subst hd
        exact ih
      · rw [significant, List.dropWhile_cons_of_neg (by simpa using hd)]

/-- Digits that do not start with a zero are the digits of their number. -/
theorem digits_ofDigits_significant {base : Nat} (hbase : 1 < base) {ds : List Nat}
    (hds : ∀ d ∈ ds, d < base) :
    (digits base (ofDigits base ds)).reverse = significant ds := by
  have hlt : ∀ d ∈ (significant ds).reverse, d < base := fun d hd =>
    hds d ((List.dropWhile_sublist _).mem (List.mem_reverse.1 hd))
  have hlast : ∀ h : (significant ds).reverse ≠ [], (significant ds).reverse.getLast h ≠ 0 := by
    intro h
    rw [List.getLast_reverse]
    exact of_decide_eq_false
      (List.head_dropWhile_not (fun d => decide (d = 0)) (mt List.reverse_eq_nil_iff.2 h))
  rw [← ofDigits_significant, digits_eq_digits hbase, ofDigits_eq_ofDigits,
    Nat.digits_ofDigits base hbase _ hlt hlast, List.reverse_reverse]

theorem ofDigits_digits {base : Nat} (hbase : 1 < base) (n : Nat) :
    ofDigits base (digits base n).reverse = n := by
  rw [ofDigits_eq_ofDigits, List.reverse_reverse, digits_eq_digits hbase, Nat.ofDigits_digits]

theorem lt_of_mem_digits {base n d : Nat} (hbase : 1 < base) (hd : d ∈ digits base n) : d < base := by
  rw [digits_eq_digits hbase] at hd
  exact Nat.digits_lt_base hbase hd

/-- The digits of a number do not start with a zero. -/
theorem significant_digits {base : Nat} (hbase : 1 < base) (n : Nat) :
    significant (digits base n).reverse = (digits base n).reverse := by
  have hlt : ∀ d ∈ (digits base n).reverse, d < base := fun d hd =>
    lt_of_mem_digits hbase (List.mem_reverse.1 hd)
  rw [← digits_ofDigits_significant hbase hlt, ofDigits_digits hbase]

theorem leading_digits {base : Nat} (hbase : 1 < base) (n : Nat) : leading (digits base n).reverse = [] := by
  have h := leading_append_significant (digits base n).reverse
  rwa [significant_digits hbase, List.append_left_eq_self] at h

/-- Digits to two bases are those of the same number, and start with as many zeros. -/
structure Rewrites (source target : Nat) (ds es : List Nat) : Prop where
  source_lt : ∀ d ∈ ds, d < source
  target_lt : ∀ e ∈ es, e < target
  leading_eq : leading ds = leading es
  number_eq : ofDigits source ds = ofDigits target es

variable {source target : Nat} {ds es : List Nat}

theorem Rewrites.symm (h : Rewrites source target ds es) : Rewrites target source es ds :=
  ⟨h.target_lt, h.source_lt, h.leading_eq.symm, h.number_eq.symm⟩

theorem Rewrites.rebase_eq (htarget : 1 < target) (h : Rewrites source target ds es) :
    rebase source target ds = es := by
  rw [rebase, h.number_eq, digits_ofDigits_significant htarget h.target_lt]
  calc leading ds ++ significant es = leading es ++ significant es := by rw [h.leading_eq]
    _ = es := leading_append_significant es

theorem rewrites_rebase (htarget : 1 < target) (hds : ∀ d ∈ ds, d < source) :
    Rewrites source target ds (rebase source target ds) where
  source_lt := hds
  target_lt := by
    intro e he
    rcases List.mem_append.1 he with he | he
    · rw [eq_zero_of_mem_leading he]
      exact Nat.lt_of_succ_lt htarget
    · exact lt_of_mem_digits htarget (List.mem_reverse.1 he)
  leading_eq := by
    change leading ds = leading (leading ds ++ _)
    rw [leading_append, leading_digits htarget, List.append_nil]
  number_eq := by
    change _ = ofDigits target (leading ds ++ _)
    rw [← ofDigits_significant target, significant_append, significant_digits htarget,
      ofDigits_digits htarget]

/-! ### Texts -/

/-- A text spells a byte string: its characters are those of the digits of the bytes to base 58. -/
def Spells (text : String) (bs : Bytes) : Prop :=
  ∃ ds, text.toList = ds.map charOf ∧ Rewrites 58 256 ds (bs.map UInt8.toNat)

variable {text : String} {bs : Bytes} {c : Char} {cs : List Char} {d : Nat}

theorem charOf_of_getElem? (h : alphabet[d]? = some c) : charOf d = c := by
  rw [charOf, List.getD_eq_getElem?_getD, h, Option.getD_some]

/-- The alphabet names each digit once. -/
theorem digitOf?_eq_some : digitOf? c = some d ↔ d < 58 ∧ charOf d = c := by
  refine ⟨?_, ?_⟩
  · intro h
    obtain ⟨hd, hc, -⟩ := List.idxOf?_eq_some_iff.1 h
    exact ⟨hd, charOf_of_getElem? (List.getElem?_eq_some_iff.2 ⟨hd, hc⟩)⟩
  · rintro ⟨hd, rfl⟩
    have hall : ∀ d < 58, digitOf? (charOf d) = some d := by decide
    exact hall d hd

theorem exists_digitOf? : (∃ d, digitOf? c = some d) ↔ c ∈ alphabet := by
  rw [← Option.isSome_iff_exists, digitOf?, List.isSome_idxOf?]

theorem mapM_digitOf?_cons_eq_some :
    (c :: cs).mapM digitOf? = some ds ↔
      ∃ d es, digitOf? c = some d ∧ cs.mapM digitOf? = some es ∧ d :: es = ds := by
  simp only [List.mapM_cons, Option.bind_eq_bind, Option.bind_eq_some_iff, Option.pure_def, Option.some.injEq,
    exists_and_left]

theorem mapM_digitOf?_eq_some :
    cs.mapM digitOf? = some ds ↔ (∀ d ∈ ds, d < 58) ∧ cs = ds.map charOf := by
  induction cs generalizing ds with
  | nil =>
      rw [List.mapM_nil, Option.pure_def, Option.some.injEq, eq_comm, List.nil_eq, List.map_eq_nil_iff]
      refine ⟨?_, And.right⟩
      rintro rfl
      exact ⟨List.forall_mem_nil _, rfl⟩
  | cons c cs ih =>
      rw [mapM_digitOf?_cons_eq_some]
      refine ⟨?_, ?_⟩
      · rintro ⟨d, es, hc, hcs, rfl⟩
        obtain ⟨hd, rfl⟩ := digitOf?_eq_some.1 hc
        obtain ⟨hes, rfl⟩ := ih.1 hcs
        exact ⟨List.forall_mem_cons.2 ⟨hd, hes⟩, rfl⟩
      · rintro ⟨hds, hcs⟩
        obtain ⟨d, es, rfl, rfl, hes⟩ := List.map_eq_cons_iff.1 hcs.symm
        obtain ⟨hd, hlt⟩ := List.forall_mem_cons.1 hds
        exact ⟨d, es, digitOf?_eq_some.2 ⟨hd, rfl⟩, ih.2 ⟨hlt, hes.symm⟩, rfl⟩

theorem exists_mapM_digitOf? : (∃ ds, cs.mapM digitOf? = some ds) ↔ ∀ c ∈ cs, c ∈ alphabet := by
  induction cs with
  | nil => exact iff_of_true ⟨[], rfl⟩ (List.forall_mem_nil _)
  | cons c cs ih =>
      rw [List.forall_mem_cons, ← exists_digitOf?, ← ih]
      refine ⟨?_, ?_⟩
      · rintro ⟨ds, h⟩
        obtain ⟨d, es, hc, hcs, -⟩ := mapM_digitOf?_cons_eq_some.1 h
        exact ⟨⟨d, hc⟩, es, hcs⟩
      · rintro ⟨⟨d, hc⟩, es, hcs⟩
        exact ⟨d :: es, mapM_digitOf?_cons_eq_some.2 ⟨d, es, hc, hcs, rfl⟩⟩

theorem lt_of_mem_map_toNat (hd : d ∈ bs.map UInt8.toNat) : d < 256 := by
  obtain ⟨b, -, rfl⟩ := List.mem_map.1 hd
  exact UInt8.toNat_lt b

theorem map_ofNat_map_toNat (bs : Bytes) : (bs.map UInt8.toNat).map UInt8.ofNat = bs := by
  rw [List.map_map]
  exact List.map_id'' (fun _ => UInt8.ofNat_toNat) bs

theorem map_toNat_map_ofNat (hds : ∀ d ∈ ds, d < 256) : (ds.map UInt8.ofNat).map UInt8.toNat = ds := by
  rw [List.map_map]
  exact (List.map_congr_left fun d hd => UInt8.toNat_ofNat_of_lt (hds d hd)).trans (List.map_id ds)

theorem decode?_eq_some_iff_mapM : decode? text = some bs ↔
    ∃ ds, text.toList.mapM digitOf? = some ds ∧ (rebase 58 256 ds).map UInt8.ofNat = bs := by
  simp only [decode?, Option.bind_eq_bind, Option.bind_eq_some_iff, Option.pure_def, Option.some.injEq]

theorem decode?_eq_some : decode? text = some bs ↔ Spells text bs := by
  rw [decode?_eq_some_iff_mapM, Spells]
  apply exists_congr
  intro ds
  rw [mapM_digitOf?_eq_some]
  refine ⟨?_, ?_⟩
  · rintro ⟨⟨hds, htext⟩, rfl⟩
    have hrewrites : Rewrites 58 256 ds (rebase 58 256 ds) := rewrites_rebase (by decide) hds
    rw [map_toNat_map_ofNat hrewrites.target_lt]
    exact ⟨htext, hrewrites⟩
  · rintro ⟨htext, hrewrites⟩
    rw [hrewrites.rebase_eq (by decide), map_ofNat_map_toNat]
    exact ⟨⟨hrewrites.source_lt, htext⟩, rfl⟩

theorem spells_iff : Spells text bs ↔ text = encode bs := by
  refine ⟨?_, ?_⟩
  · rintro ⟨ds, htext, hrewrites⟩
    rw [encode, hrewrites.symm.rebase_eq (by decide), ← htext, String.ofList_toList]
  · rintro rfl
    exact ⟨_, String.toList_ofList, (rewrites_rebase (by decide) fun _ => lt_of_mem_map_toNat).symm⟩

/-- A text spells some byte string just if all its characters are digits. -/
theorem exists_spells : (∃ bs, Spells text bs) ↔ ∀ c ∈ text.toList, c ∈ alphabet := by
  rw [← exists_mapM_digitOf?]
  simp only [← decode?_eq_some, decode?_eq_some_iff_mapM]
  refine ⟨?_, ?_⟩
  · rintro ⟨bs, ds, hds, -⟩
    exact ⟨ds, hds⟩
  · rintro ⟨ds, hds⟩
    exact ⟨_, ds, hds, rfl⟩

/-- For 41 bytes 56 digits to base 58 are enough, and so 1366 of them for 1000 bytes. -/
theorem pow_256_le_pow_58 (n : Nat) : 256 ^ n ≤ 58 ^ ((n * 1366 + 999) / 1000) := by
  have hratio : 56 * n ≤ (n * 1366 + 999) / 1000 * 41 := by omega
  have hpow : (256 ^ n) ^ 41 ≤ (58 ^ ((n * 1366 + 999) / 1000)) ^ 41 :=
    calc (256 ^ n) ^ 41 = (256 ^ 41) ^ n := Nat.pow_right_comm ..
      _ ≤ (58 ^ 56) ^ n := Nat.pow_le_pow_left (by decide) n
      _ = 58 ^ (56 * n) := (Nat.pow_mul ..).symm
      _ ≤ 58 ^ ((n * 1366 + 999) / 1000 * 41) := Nat.pow_le_pow_right (by decide) hratio
      _ = (58 ^ ((n * 1366 + 999) / 1000)) ^ 41 := Nat.pow_mul ..
  exact (Nat.pow_le_pow_iff_left (by decide)).1 hpow

theorem ofDigits_lt {base : Nat} (hbase : 1 < base) (hds : ∀ d ∈ ds, d < base) :
    ofDigits base ds < base ^ ds.length := by
  rw [ofDigits_eq_ofDigits, ← List.length_reverse]
  exact Nat.ofDigits_lt_base_pow_length hbase fun d hd => hds d (List.mem_reverse.1 hd)

/-- Zeros that bytes start with take one digit each, less than the bound allows for them. -/
theorem Rewrites.length_le {ds es : List Nat} (h : Rewrites 58 256 ds es) :
    ds.length ≤ (es.length * 1366 + 999) / 1000 := by
  have hsignificant : (significant ds).length ≤ ((significant es).length * 1366 + 999) / 1000 := by
    rw [← digits_ofDigits_significant (by decide) h.source_lt, List.length_reverse,
      digits_eq_digits (by decide), Nat.digits_length_le_iff (by decide), h.number_eq,
      ← ofDigits_significant]
    refine Nat.lt_of_lt_of_le (ofDigits_lt (by decide) ?_) (pow_256_le_pow_58 _)
    exact fun e he => h.target_lt e ((List.dropWhile_sublist _).mem he)
  have hds := congrArg List.length (leading_append_significant ds)
  have hes := congrArg List.length (leading_append_significant es)
  rw [List.length_append] at hds hes
  rw [h.leading_eq] at hds
  omega

/-- Digits take one byte each. -/
theorem utf8Len_eq_length (hcs : ∀ c ∈ cs, c ∈ alphabet) : String.utf8Len cs = cs.length := by
  have hall : alphabet.all (fun c => c.utf8Size == 1) = true := by decide
  induction cs with
  | nil => rfl
  | cons c cs ih =>
      rw [List.forall_mem_cons] at hcs
      have hsize : c.utf8Size = 1 := eq_of_beq (List.all_eq_true.1 hall c hcs.1)
      rw [String.utf8Len_cons, ih hcs.2, hsize, List.length_cons]

theorem Spells.utf8ByteSize_le (h : Spells text bs) :
    text.utf8ByteSize ≤ (bs.length * 1366 + 999) / 1000 := by
  rw [← String.ofList_toList (s := text), String.utf8ByteSize_ofList,
    utf8Len_eq_length (exists_spells.1 ⟨bs, h⟩)]
  obtain ⟨ds, htext, hrewrites⟩ := h
  rw [htext, List.length_map, ← List.length_map UInt8.toNat]
  exact hrewrites.length_le

end LedgerTx.Base58
