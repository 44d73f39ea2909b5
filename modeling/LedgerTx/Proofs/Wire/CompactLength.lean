import LedgerTx.Wire
import Mathlib.Tactic.IntervalCases
import Mathlib.Tactic.SplitIfs

/-! Compact lengths are read exactly: a length up to the limit has one written form, which is the only
one that is read, and a length above the limit is refused as such wherever it is written. Both facts are
inductions along the groups of seven bits, in which the place of a group bounds what may still come. What
is refused is told by its first three bytes: it is the beginning of a written form, or it has a superfluous
group, or its third group is too large. -/

namespace LedgerTx.CompactLength

/-- A group before the last one holds seven bits of all that may still come. -/
theorem limit_shiftRight_of_lt {place : Nat} (hplace : place < 2) :
    limit >>> (7 * place) = 128 * (limit >>> (7 * (place + 1))) + 127 := by
  interval_cases place <;> rfl

/-- Two bits are left for the last group. -/
theorem limit_shiftRight_two : limit >>> (7 * 2) = 3 := rfl

theorem encode_of_lt {n : Nat} (h : n < 128) : encode n = [UInt8.ofNat n] := by
  rw [encode, if_pos h]

theorem encode_of_not_lt {n : Nat} (h : ¬n < 128) :
    encode n = UInt8.ofNat (n % 128 + 128) :: encode (n / 128) := by
  rw [encode, if_neg h]

@[simp] theorem decodeFrom_nil (place : Nat) : decodeFrom place [] = .error .unexpectedEnd := by
  rw [decodeFrom]

theorem ne_zero_of_lt {a b : UInt8} (h : a < b) : b ≠ 0 := by
  rintro rfl
  exact UInt8.not_lt.2 UInt8.zero_le h

/-- A group that is not the last one leaves the outcome to those behind it. -/
theorem decodeFrom_cons_of_continues {place : Nat} {b : UInt8} (hplace : place < 2) (hb : 128 ≤ b)
    (rest : Bytes) :
    decodeFrom place (b :: rest) =
      (decodeFrom (place + 1) rest).map fun read => (b.toNat - 128 + 128 * read.1, read.2 + 1) := by
  have hlow : 3 < b := UInt8.lt_of_lt_of_le (by decide) hb
  have hzero : b ≠ 0 := ne_zero_of_lt hlow
  rw [decodeFrom, if_neg fun h => hzero h.2, if_neg (by omega), if_neg (UInt8.not_lt.2 hb)]
  cases decodeFrom (place + 1) rest with
  | error e => rfl
  | ok read => rfl

/-- A group is refused for itself, or for those behind it if it is not the last one. -/
theorem decodeFrom_cons_eq_error {place : Nat} {b : UInt8} {rest : Bytes} {e : DecodeError} :
    decodeFrom place (b :: rest) = .error e ↔
      (0 < place ∧ b = 0 ∧ e = .aliasedLength) ∨ (2 ≤ place ∧ 3 < b ∧ e = .lengthOverflow) ∨
        (place < 2 ∧ 128 ≤ b ∧ decodeFrom (place + 1) rest = .error e) := by
  by_cases halias : 0 < place ∧ b = 0
  · rw [decodeFrom, if_pos halias]
    obtain ⟨hplace, rfl⟩ := halias
    have hlow : ¬(3 : UInt8) < 0 := by decide
    have hlast : ¬(128 : UInt8) ≤ 0 := by decide
    simp only [Except.error.injEq, hplace, hlow, hlast, false_and, and_false, true_and, or_false]
    exact eq_comm
  by_cases hover : 2 ≤ place ∧ 3 < b
  · rw [decodeFrom, if_neg halias, if_pos hover]
    have hplace : ¬place < 2 := Nat.not_lt.2 hover.1
    simp only [Except.error.injEq, ne_zero_of_lt hover.2, hover.1, hover.2, hplace, false_and, and_false,
      true_and, false_or, or_false]
    exact eq_comm
  by_cases hlast : b < 128
  · rw [decodeFrom, if_neg halias, if_neg hover, if_pos hlast]
    constructor
    · intro h
      cases h
    · rintro (⟨hplace, hzero, -⟩ | ⟨hplace, hlow, -⟩ | ⟨-, hb, -⟩)
      · exact absurd ⟨hplace, hzero⟩ halias
      · exact absurd ⟨hplace, hlow⟩ hover
      · exact absurd hlast (UInt8.not_lt.2 hb)
  · have hb : 128 ≤ b := UInt8.not_lt.1 hlast
    have hlow : 3 < b := UInt8.lt_of_lt_of_le (by decide) hb
    have hplace : place < 2 := Nat.lt_of_not_le fun hplace => hover ⟨hplace, hlow⟩
    have hplaces : ¬2 ≤ place := Nat.not_le.2 hplace
    rw [decodeFrom_cons_of_continues hplace hb]
    simp only [ne_zero_of_lt hlow, hplaces, hplace, hb, false_and, and_false, true_and, false_or]
    cases decodeFrom (place + 1) rest with
    | error f => rfl
    | ok read => simp only [Except.map, reduceCtorEq]

/-- What is read from a group on was written from that group on, and is neither too large nor written
with superfluous groups. -/
theorem encode_prefix_of_decodeFrom {place : Nat} {bs : Bytes} {n used : Nat} (hplace : place ≤ 2)
    (h : decodeFrom place bs = .ok (n, used)) :
    n ≤ limit >>> (7 * place) ∧ (0 < place → 0 < n) ∧ encode n <+: bs ∧ used = (encode n).length := by
  induction bs generalizing place n used with
  | nil => simp [decodeFrom] at h
  | cons b bs ih =>
      have hb := b.toNat_lt
      rw [decodeFrom] at h
      split_ifs at h with halias hover hlast
      · obtain ⟨rfl, rfl⟩ : b.toNat = n ∧ 1 = used := by simpa using h
        simp only [← UInt8.toNat_inj, UInt8.toNat_zero] at halias
        simp only [UInt8.lt_iff_toNat_lt] at hover hlast
        change ¬(2 ≤ place ∧ 3 < b.toNat) at hover
        change b.toNat < 128 at hlast
        have hencode : encode b.toNat = [b] := by rw [encode_of_lt hlast, UInt8.ofNat_toNat]
        rw [hencode]
        refine ⟨?_, by omega, List.prefix_append [b] bs, rfl⟩
        rcases Nat.lt_or_eq_of_le hplace with hlt | rfl
        · have hlimit := limit_shiftRight_of_lt hlt
          omega
        · rw [limit_shiftRight_two]
          omega
      · simp only [UInt8.lt_iff_toNat_lt] at hover hlast
        change ¬(2 ≤ place ∧ 3 < b.toNat) at hover
        change ¬b.toNat < 128 at hlast
        cases hhigh : decodeFrom (place + 1) bs with
        | error e => simp [hhigh, bind, Except.bind] at h
        | ok read =>
            obtain ⟨high, more⟩ := read
            have hlt : place < 2 := by omega
            have hlimit := limit_shiftRight_of_lt hlt
            obtain ⟨hbound, hpos, hleads, rfl⟩ := @ih (place + 1) high more hlt hhigh
            obtain ⟨rfl, rfl⟩ : b.toNat - 128 + 128 * high = n ∧ (encode high).length + 1 = used := by
              simpa [hhigh, bind, Except.bind, pure, Except.pure] using h
            have hhighpos := hpos (Nat.succ_pos place)
            have hmod : (b.toNat - 128 + 128 * high) % 128 + 128 = b.toNat := by omega
            have hdiv : (b.toNat - 128 + 128 * high) / 128 = high := by omega
            have hencode : encode (b.toNat - 128 + 128 * high) = b :: encode high := by
              rw [encode_of_not_lt (n := b.toNat - 128 + 128 * high) (by omega), hmod, hdiv, UInt8.ofNat_toNat]
            rw [hencode]
            exact ⟨by omega, by omega, List.cons_prefix_cons.2 ⟨rfl, hleads⟩, rfl⟩

/-- A length is read exactly where its written form stands in front, and takes as many bytes. -/
theorem decode_eq_ok {bs : Bytes} {n used : Nat} :
    decode bs = .ok (n, used) ↔ n ≤ limit ∧ encode n <+: bs ∧ used = (encode n).length := by
  constructor
  · intro h
    obtain ⟨hlimit, -, hleads, hused⟩ := encode_prefix_of_decodeFrom (Nat.zero_le 2) h
    exact ⟨hlimit, hleads, hused⟩
  · rintro ⟨hlimit, ⟨rest, rfl⟩, rfl⟩
    exact decode_encode hlimit rest

/-- What exceeds the limit from a group on is refused as too large: its last group that is looked at is
above the third one's greatest value, and no group before it is zero. -/
theorem decodeFrom_encode_of_limit_lt {place n : Nat} (rest : Bytes) (hplace : place ≤ 2)
    (h : limit >>> (7 * place) < n) :
    decodeFrom place (encode n ++ rest) = .error .lengthOverflow := by
  fun_induction encode n generalizing place with
  | case1 n hn =>
      have hbyte : (UInt8.ofNat n).toNat = n := Nat.mod_eq_of_lt (by omega)
      have htwo : place = 2 := by
        by_contra hne
        have hlt : place < 2 := by omega
        have hlimit := limit_shiftRight_of_lt hlt
        omega
      subst htwo
      have hlow : 3 < UInt8.ofNat n := by
        rw [UInt8.lt_iff_toNat_lt, hbyte]
        exact h
      exact decodeFrom_cons_eq_error.2 (Or.inr (Or.inl ⟨Nat.le_refl 2, hlow, rfl⟩))
  | case2 n hn ih =>
      have hbyte : (UInt8.ofNat (n % 128 + 128)).toNat = n % 128 + 128 := Nat.mod_eq_of_lt (by omega)
      have hhigh : 128 ≤ UInt8.ofNat (n % 128 + 128) := by
        rw [UInt8.le_iff_toNat_le, hbyte]
        exact Nat.le_add_left 128 _
      rw [List.cons_append, decodeFrom_cons_eq_error]
      rcases Nat.lt_or_eq_of_le hplace with hlt | rfl
      · have hnext : limit >>> (7 * (place + 1)) < n / 128 := by
          have hlimit := limit_shiftRight_of_lt hlt
          omega
        exact Or.inr (Or.inr ⟨hlt, hhigh, ih hlt hnext⟩)
      · have hlow : 3 < UInt8.ofNat (n % 128 + 128) := UInt8.lt_of_lt_of_le (by decide) hhigh
        exact Or.inr (Or.inl ⟨Nat.le_refl 2, hlow, rfl⟩)

/-- A length above the limit is refused as too large, whatever comes after it. -/
theorem decode_encode_of_limit_lt {n : Nat} (h : limit < n) (rest : Bytes) :
    decode (encode n ++ rest) = .error .lengthOverflow :=
  decodeFrom_encode_of_limit_lt rest (Nat.zero_le 2) (by simpa using h)

/-- The groups of a length are read one by one, up to the last, and no further. -/
theorem decodeFrom_append (place : Nat) (bs more : Bytes) :
    decodeFrom place bs = .error .unexpectedEnd ∨ decodeFrom place (bs ++ more) = decodeFrom place bs := by
  induction bs generalizing place with
  | nil => exact Or.inl rfl
  | cons b bs ih =>
      rw [List.cons_append, decodeFrom, decodeFrom]
      split_ifs with halias hover hlast
      · exact Or.inr rfl
      · exact Or.inr rfl
      · exact Or.inr rfl
      · rcases ih (place + 1) with hend | hmore
        · rw [hend]
          exact Or.inl rfl
        · rw [hmore]
          exact Or.inr rfl

/-- Where the bytes run out, one group more completes a length. -/
theorem decodeFrom_append_one {place : Nat} {bs : Bytes}
    (h : decodeFrom place bs = .error .unexpectedEnd) :
    ∃ n, decodeFrom place (bs ++ [1]) = .ok (n, bs.length + 1) := by
  induction bs generalizing place with
  | nil =>
      refine ⟨1, ?_⟩
      rw [List.nil_append, decodeFrom, if_neg (by simp), if_neg (by simp), if_pos (by decide)]
      rfl
  | cons b bs ih =>
      obtain ⟨-, -, hcontra⟩ | ⟨-, -, hcontra⟩ | ⟨hplace, hb, hrest⟩ := decodeFrom_cons_eq_error.1 h
      · cases hcontra
      · cases hcontra
      · obtain ⟨high, hhigh⟩ := ih hrest
        rw [List.cons_append, decodeFrom_cons_of_continues hplace hb, hhigh]
        exact ⟨_, rfl⟩

/-- The bytes run out just if they are a written form without its end. -/
theorem decode_eq_unexpectedEnd {bs : Bytes} :
    decode bs = .error .unexpectedEnd ↔ ∃ n, n ≤ limit ∧ bs <+: encode n ∧ bs ≠ encode n := by
  constructor
  · intro h
    obtain ⟨n, hn⟩ := decodeFrom_append_one h
    obtain ⟨hlimit, hleads, hlength⟩ := decode_eq_ok.1 hn
    have hbytes : encode n = bs ++ [1] :=
      hleads.eq_of_length (by rw [← hlength, List.length_append, List.length_singleton])
    refine ⟨n, hlimit, ⟨[1], hbytes.symm⟩, ?_⟩
    intro heq
    rw [← heq] at hlength
    omega
  · rintro ⟨n, hlimit, ⟨more, hmore⟩, hne⟩
    rcases decodeFrom_append 0 bs more with hend | hsame
    · exact hend
    · -- Read already from the front, the length would not need what was cut off.
      have hread := decode_encode hlimit []
      rw [List.append_nil, ← hmore, decode, hsame] at hread
      obtain ⟨-, hleads, -⟩ := decode_eq_ok.1 hread
      have hfront : bs <+: encode n := ⟨more, hmore⟩
      exact absurd (hfront.eq_of_length (Nat.le_antisymm hfront.length_le hleads.length_le)) hne

/-- A group is superfluous if it is zero and the groups before it say that it follows. -/
theorem decode_eq_aliasedLength {bs : Bytes} :
    decode bs = .error .aliasedLength ↔
      (∃ b rest, 128 ≤ b ∧ bs = b :: 0 :: rest) ∨
        ∃ b c rest, 128 ≤ b ∧ 128 ≤ c ∧ bs = b :: c :: 0 :: rest := by
  rcases bs with _ | ⟨b, _ | ⟨c, _ | ⟨d, rest⟩⟩⟩
  · simp [decode]
  · simp [decode, decodeFrom_cons_eq_error]
  · simp [decode, decodeFrom_cons_eq_error]
  · simp [decode, decodeFrom_cons_eq_error, and_or_left]

/-- A length is too large if its third group is, be it for a fourth one that is to follow. -/
theorem decode_eq_lengthOverflow {bs : Bytes} :
    decode bs = .error .lengthOverflow ↔
      ∃ b c d rest, 128 ≤ b ∧ 128 ≤ c ∧ 3 < d ∧ bs = b :: c :: d :: rest := by
  rcases bs with _ | ⟨b, _ | ⟨c, _ | ⟨d, rest⟩⟩⟩
  · simp [decode]
  · simp [decode, decodeFrom_cons_eq_error]
  · simp [decode, decodeFrom_cons_eq_error]
  · simp [decode, decodeFrom_cons_eq_error]

/-- All that can come of reading a length. What is written for one is read back with its width up to the
limit, and is too large beyond. A length is read from exactly the bytes that are written for it; these run
out exactly if they are written for some length up to the limit, but for their end. A group is superfluous
that is zero behind groups which say that it follows, and a third one above three is too large. -/
theorem decode_exactly (bs : Bytes) :
    (∀ n, decode (encode n ++ bs) =
      if n ≤ limit then .ok (n, (encode n).length) else .error .lengthOverflow) ∧
    (∀ n width, decode bs = .ok (n, width) ↔
      n ≤ limit ∧ bs.take width = encode n ∧ width = (encode n).length) ∧
    (decode bs = .error .unexpectedEnd ↔
      ∃ n, n ≤ limit ∧ bs <+: encode n ∧ bs ≠ encode n) ∧
    (decode bs = .error .aliasedLength ↔
      (∃ b rest, 128 ≤ b ∧ bs = b :: 0 :: rest) ∨
        ∃ b c rest, 128 ≤ b ∧ 128 ≤ c ∧ bs = b :: c :: 0 :: rest) ∧
    (decode bs = .error .lengthOverflow ↔
      ∃ b c d rest, 128 ≤ b ∧ 128 ≤ c ∧ 3 < d ∧ bs = b :: c :: d :: rest) := by
  refine ⟨?_, ?_, decode_eq_unexpectedEnd, decode_eq_aliasedLength, decode_eq_lengthOverflow⟩
  · intro n
    by_cases hlimit : n ≤ limit
    · rw [if_pos hlimit, decode_encode hlimit]
    · rw [if_neg hlimit]
      exact decode_encode_of_limit_lt (Nat.lt_of_not_le hlimit) bs
  · intro n width
    rw [decode_eq_ok]
    constructor
    · rintro ⟨hlimit, hleads, rfl⟩
      exact ⟨hlimit, (List.prefix_iff_eq_take.1 hleads).symm, rfl⟩
    · rintro ⟨hlimit, htake, rfl⟩
      exact ⟨hlimit, List.prefix_iff_eq_take.2 htake.symm, rfl⟩

end LedgerTx.CompactLength
