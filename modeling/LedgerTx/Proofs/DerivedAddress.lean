import LedgerTx.DerivedAddress
import Mathlib.Data.Set.Function
import Mathlib.Order.Bounds.Defs

/-! Addresses that are hashes, for every hash and every curve. A program address is accepted if its seeds are within
the limits and its hash is off the curve. The limits are tested twice when a bump seed is searched for: of the
seeds that are given, and of these followed by the bump seed. `withinLimits_bump_iff` says that the two tests agree,
so that bump seeds are refused for nothing but the curve, and the search, which gives up at any other refusal, sees
all of them. That seeded addresses are none of these addresses rests on the marker: what is hashed for a program
address ends with it, and what is hashed for a seeded one ends with the owner, which is longer. -/

namespace LedgerTx

theorem Bytes.length_toList_loop (bs : ByteArray) (i : Nat) (read : Bytes) :
    (ByteArray.toList.loop bs i read).length = read.length + (bs.size - i) := by
  fun_induction ByteArray.toList.loop bs i read with
  | case1 i read h ih =>
    rw [ih, List.length_cons]
    omega
  | case2 i read h =>
    rw [List.length_reverse]
    omega

/-- The bytes that count for the limit of a text are the bytes that are hashed. -/
theorem Bytes.length_ofText (text : String) : (ofText text).length = text.utf8ByteSize :=
  (length_toList_loop _ 0 []).trans (Nat.zero_add _)

namespace DerivedAddress

variable {scheme : AddressScheme} {seeds : List Bytes} {program address : Pubkey} {bump : UInt8}

structure WithinLimits (seeds : List Bytes) : Prop where
  count : seeds.length ≤ 16
  lengths : ∀ seed ∈ seeds, seed.length ≤ 32

/-- There is no place for a bump seed, or a seed is too long. -/
def Exceeding (seeds : List Bytes) : Prop :=
  16 ≤ seeds.length ∨ ∃ seed ∈ seeds, 32 < seed.length

instance (seeds : List Bytes) : Decidable (Exceeding seeds) :=
  inferInstanceAs (Decidable (_ ∨ ∃ seed ∈ seeds, 32 < seed.length))

theorem hasLongSeed_iff : hasLongSeed seeds ↔ ∃ seed ∈ seeds, 32 < seed.length := by
  rw [hasLongSeed, List.any_eq_true]
  exact exists_congr fun seed => and_congr_right fun _ => decide_eq_true_iff

theorem withinLimits_iff : WithinLimits seeds ↔ ¬(maxSeeds < seeds.length ∨ hasLongSeed seeds) := by
  rw [hasLongSeed_iff, maxSeeds]
  constructor
  · intro h hlimits
    obtain hcount | ⟨seed, hseed, hlong⟩ := hlimits
    · exact Nat.not_lt_of_le h.count hcount
    · exact Nat.not_lt_of_le (h.lengths seed hseed) hlong
  · intro h
    refine ⟨Nat.le_of_not_lt fun hcount => h (Or.inl hcount), ?_⟩
    intro seed hseed
    exact Nat.le_of_not_lt fun hlong => h (Or.inr ⟨seed, hseed, hlong⟩)

theorem exceeding_iff : Exceeding seeds ↔ maxSeeds ≤ seeds.length ∨ hasLongSeed seeds := by
  rw [hasLongSeed_iff, maxSeeds, Exceeding]

/-- A bump seed is one more seed, and is not a long one. -/
theorem withinLimits_bump_iff (bump : UInt8) : WithinLimits (seeds ++ [[bump]]) ↔ ¬Exceeding seeds := by
  have hlong : hasLongSeed (seeds ++ [[bump]]) = hasLongSeed seeds := by
    rw [hasLongSeed, List.any_append]
    exact Bool.or_false _
  rw [withinLimits_iff, exceeding_iff, hlong, List.length_append, List.length_singleton, Nat.lt_succ_iff]

theorem ofProgram_of_withinLimits (scheme : AddressScheme) (program : Pubkey) (h : WithinLimits seeds) :
    ofProgram scheme seeds program =
      if scheme.onCurve (scheme.hash (programPreimage seeds program)) then .error .invalidSeeds
      else .ok (scheme.hash (programPreimage seeds program)) :=
  if_neg (withinLimits_iff.1 h)

theorem ofProgram_eq_ok :
    ofProgram scheme seeds program = .ok address ↔
      WithinLimits seeds ∧ scheme.hash (programPreimage seeds program) = address ∧
        scheme.onCurve address = false := by
  by_cases hlimits : WithinLimits seeds
  · rw [ofProgram_of_withinLimits scheme program hlimits, and_iff_right hlimits]
    split
    · rename_i hcurve
      refine iff_of_false nofun ?_
      rintro ⟨rfl, hoff⟩
      exact Bool.false_ne_true (hoff.symm.trans hcurve)
    · rename_i hcurve
      rw [Except.ok.injEq, iff_self_and]
      rintro rfl
      exact Bool.eq_false_of_not_eq_true hcurve
  · rw [ofProgram, if_pos (not_not.1 (mt withinLimits_iff.2 hlimits))]
    exact iff_of_false nofun fun h => hlimits h.1

/-! ### The search for a bump seed -/

/-- The program address of the seeds followed by a bump seed. -/
def ofBump (scheme : AddressScheme) (seeds : List Bytes) (program : Pubkey) (bump : UInt8) :
    Except AddressError Pubkey :=
  ofProgram scheme (seeds ++ [[bump]]) program

theorem ofBump_eq_ok :
    ofBump scheme seeds program bump = .ok address ↔
      ¬Exceeding seeds ∧ scheme.hash (programPreimage (seeds ++ [[bump]]) program) = address ∧
        scheme.onCurve address = false := by
  rw [ofBump, ofProgram_eq_ok, withinLimits_bump_iff]

theorem ofBump_of_not_exceeding (scheme : AddressScheme) (program : Pubkey) (bump : UInt8) (h : ¬Exceeding seeds) :
    (∃ address, ofBump scheme seeds program bump = .ok address) ∨
      ofBump scheme seeds program bump = .error .invalidSeeds := by
  rw [ofBump, ofProgram_of_withinLimits scheme program ((withinLimits_bump_iff bump).2 h)]
  split
  · exact Or.inr rfl
  · exact Or.inl ⟨_, rfl⟩

theorem eq_ofNat_or_toNat_lt {n : Nat} (h : bump.toNat < n + 1) : bump = UInt8.ofNat n ∨ bump.toNat < n := by
  obtain hlt | rfl := Nat.lt_succ_iff_lt_or_eq.1 h
  · exact Or.inr hlt
  · exact Or.inl UInt8.ofNat_toNat.symm

/-- The bump seed that is found succeeds, and those that were tried before are refused for the curve. -/
theorem ofBump_of_searchBelow_eq_some {bumps : Nat} (hbumps : bumps ≤ 256)
    (h : searchBelow scheme seeds program bumps = some (address, bump)) :
    ofBump scheme seeds program bump = .ok address ∧
      ∀ other, bump < other → other.toNat < bumps → ofBump scheme seeds program other = .error .invalidSeeds := by
  induction bumps with
  | zero => cases h
  | succ bumps ih =>
    rw [searchBelow] at h
    split at h
    · rename_i hok
      cases h
      refine ⟨hok, ?_⟩
      intro other hgreater hother
      rw [UInt8.lt_iff_toNat_lt, UInt8.toNat_ofNat_of_lt' hbumps] at hgreater
      exact absurd hother (Nat.not_lt_of_le hgreater)
    · rename_i hcurve
      obtain ⟨hfound, hgreater⟩ := ih (Nat.le_of_succ_le hbumps) h
      refine ⟨hfound, ?_⟩
      intro other hother hbelow
      obtain rfl | hlt := eq_ofNat_or_toNat_lt hbelow
      · exact hcurve
      · exact hgreater other hother hlt
    · cases h

/-- If none is found, then all were tried, as no other refusal ends the search. -/
theorem ofBump_of_searchBelow_eq_none {bumps : Nat} (hlimits : ¬Exceeding seeds)
    (h : searchBelow scheme seeds program bumps = none) (hbump : bump.toNat < bumps) :
    ofBump scheme seeds program bump = .error .invalidSeeds := by
  induction bumps with
  | zero => cases hbump
  | succ bumps ih =>
    rw [searchBelow] at h
    split at h
    · cases h
    · rename_i hcurve
      obtain rfl | hlt := eq_ofNat_or_toNat_lt hbump
      · exact hcurve
      · exact ih h hlt
    · rename_i hother hrefused
      -- No bump seed is refused for the limits, as they have been tested without it.
      obtain ⟨found, hok⟩ | hcurve := ofBump_of_not_exceeding scheme program (UInt8.ofNat bumps) hlimits
      · cases hok.symm.trans hrefused
      · cases hcurve.symm.trans hrefused
        exact absurd rfl hother

theorem find?_eq_some_iff :
    find? scheme seeds program = some (address, bump) ↔
      IsGreatest {bump | ∃ address, ofBump scheme seeds program bump = .ok address} bump ∧
        ofBump scheme seeds program bump = .ok address := by
  constructor
  · intro h
    obtain ⟨hfound, hgreater⟩ := ofBump_of_searchBelow_eq_some (Nat.le_refl 256) h
    refine ⟨⟨⟨address, hfound⟩, ?_⟩, hfound⟩
    rintro other ⟨found, hok⟩
    apply UInt8.not_lt.1
    intro hother
    cases hok.symm.trans (hgreater other hother other.toNat_lt)
  · rintro ⟨hgreatest, hfound⟩
    cases h : find? scheme seeds program with
    | none =>
      have hlimits : ¬Exceeding seeds := (ofBump_eq_ok.1 hfound).1
      cases hfound.symm.trans (ofBump_of_searchBelow_eq_none hlimits h bump.toNat_lt)
    | some found =>
      obtain ⟨other, top⟩ := found
      obtain ⟨hother, hgreater⟩ := ofBump_of_searchBelow_eq_some (Nat.le_refl 256) h
      -- Had the search gone past the greatest bump seed, that one would be refused.
      have hbelow : ¬top < bump := by
        intro hlt
        cases hfound.symm.trans (hgreater bump hlt bump.toNat_lt)
      obtain rfl : top = bump := UInt8.le_antisymm (hgreatest.2 ⟨other, hother⟩) (UInt8.not_lt.1 hbelow)
      cases hother.symm.trans hfound
      rfl

theorem find?_eq_none_iff :
    find? scheme seeds program = none ↔ ∀ bump, ∃ e, ofBump scheme seeds program bump = .error e := by
  constructor
  · intro h bump
    cases hbump : ofBump scheme seeds program bump with
    | error e => exact ⟨e, rfl⟩
    | ok address =>
      have hlimits : ¬Exceeding seeds := (ofBump_eq_ok.1 hbump).1
      cases hbump.symm.trans (ofBump_of_searchBelow_eq_none hlimits h bump.toNat_lt)
  · intro h
    cases hfound : find? scheme seeds program with
    | none => rfl
    | some found =>
      obtain ⟨e, hrefused⟩ := h found.2
      cases hrefused.symm.trans (find?_eq_some_iff.1 hfound).2

theorem find?_of_exceeding (h : Exceeding seeds) : find? scheme seeds program = none := by
  rw [find?_eq_none_iff]
  intro bump
  cases hbump : ofBump scheme seeds program bump with
  | error e => exact ⟨e, rfl⟩
  | ok address => exact absurd h (ofBump_eq_ok.1 hbump).1

theorem find_of_exceeding (h : Exceeding seeds) : find scheme seeds program = .error .maxSeedLengthExceeded :=
  if_pos (exceeding_iff.1 h)

theorem find_of_not_exceeding (h : ¬Exceeding seeds) :
    find scheme seeds program =
      match find? scheme seeds program with
      | some found => .ok found
      | none => .error .noViableBumpSeed :=
  if_neg (mt exceeding_iff.2 h)

theorem toOption_find : (find scheme seeds program).toOption = find? scheme seeds program := by
  by_cases hlimits : Exceeding seeds
  · rw [find_of_exceeding hlimits, find?_of_exceeding hlimits]
    rfl
  · rw [find_of_not_exceeding hlimits]
    cases find? scheme seeds program with
    | some found => rfl
    | none => rfl

theorem find_eq_ok_iff {found : Pubkey × UInt8} :
    find scheme seeds program = .ok found ↔ find? scheme seeds program = some found := by
  rw [← toOption_find]
  cases find scheme seeds program with
  | ok other => exact ⟨congrArg Except.toOption, fun h => congrArg Except.ok (Option.some.inj h)⟩
  | error e => exact iff_of_false nofun nofun

/-- The bump seed that is found is the greatest byte that makes the seeds an address off the curve. None is found
exactly if the seeds exceed the limits or no byte does, and the two are told apart. -/
theorem find_greatest (scheme : AddressScheme) (seeds : List Bytes) (program : Pubkey) :
    (Exceeding seeds →
      find scheme seeds program = .error .maxSeedLengthExceeded ∧ find? scheme seeds program = none) ∧
    (¬Exceeding seeds →
      (∀ address bump, find scheme seeds program = .ok (address, bump) ↔
        IsGreatest {bump | ∃ address, ofBump scheme seeds program bump = .ok address} bump ∧
          ofBump scheme seeds program bump = .ok address) ∧
      (∀ address bump, find scheme seeds program = .ok (address, bump) →
        scheme.onCurve address = false ∧
          ∀ other, bump < other → ofBump scheme seeds program other = .error .invalidSeeds) ∧
      (find scheme seeds program = .error .noViableBumpSeed ↔
        ∀ bump, ∃ e, ofBump scheme seeds program bump = .error e)) ∧
    find? scheme seeds program = (find scheme seeds program).toOption := by
  refine ⟨?_, ?_, ?_⟩
  · intro hexceeding
    exact ⟨find_of_exceeding hexceeding, find?_of_exceeding hexceeding⟩
  · intro hlimits
    refine ⟨?_, ?_, ?_⟩
    · intro address bump
      rw [find_eq_ok_iff, find?_eq_some_iff]
    · intro address bump h
      obtain ⟨hfound, hgreater⟩ := ofBump_of_searchBelow_eq_some (Nat.le_refl 256) (find_eq_ok_iff.1 h)
      exact ⟨(ofBump_eq_ok.1 hfound).2.2, fun other hother => hgreater other hother other.toNat_lt⟩
    · rw [find_of_not_exceeding hlimits, ← find?_eq_none_iff]
      cases find? scheme seeds program with
      | some found => exact iff_of_false nofun nofun
      | none => exact iff_of_true rfl rfl
  · exact toOption_find.symm

/-- A hash that keeps the first bytes, and a curve that leaves out the hashes that start with a byte. -/
def startScheme (start : UInt8) : AddressScheme where
  hash preimage := ⟨(preimage ++ List.replicate 32 0).take 32, by simp [Kind.width]⟩
  onCurve key := key.bytes.head? != some start

/-- Without seeds the hash starts with the bump seed, and only one is off the curve; with a seed of one byte it starts
with that, and is on the curve for all bump seeds. Sixteen seeds are too many, even if they are empty. -/
theorem find_greatest_start :
    let scheme := startScheme 3
    let program : Pubkey := ⟨List.replicate 32 7, rfl⟩
    let address : Pubkey := ⟨3 :: List.replicate 31 7, rfl⟩
    (find scheme [] program = .ok (address, 3) ∧
      IsGreatest {bump | ∃ address, ofBump scheme [] program bump = .ok address} 3 ∧
      ∀ other, 3 < other → ofBump scheme [] program other = .error .invalidSeeds) ∧
    (find scheme [[5]] program = .error .noViableBumpSeed ∧
      ∀ bump, ∃ e, ofBump scheme [[5]] program bump = .error e) ∧
    (find scheme (List.replicate 16 []) program = .error .maxSeedLengthExceeded ∧
      find? scheme (List.replicate 16 []) program = none) := by
  intro scheme program address
  obtain ⟨-, hsearch, -⟩ := find_greatest scheme [] program
  obtain ⟨hgreatest, hrefused, -⟩ := hsearch (by decide)
  have hfound : find scheme [] program = .ok (address, 3) := by decide +kernel
  obtain ⟨-, hsearch, -⟩ := find_greatest scheme [[5]] program
  obtain ⟨-, -, hnone⟩ := hsearch (by decide)
  have hfails : find scheme [[5]] program = .error .noViableBumpSeed := by decide +kernel
  obtain ⟨hexceeding, -⟩ := find_greatest scheme (List.replicate 16 []) program
  exact ⟨⟨hfound, ((hgreatest address 3).1 hfound).1, (hrefused address 3 hfound).2⟩,
    ⟨hfails, hnone.1 hfails⟩, hexceeding (by decide)⟩

/-! ### What is hashed -/

theorem marker_suffix_programPreimage (seeds : List Bytes) (program : Pubkey) :
    marker <:+ programPreimage seeds program :=
  (List.suffix_append program.bytes marker).trans (List.suffix_append _ _)

/-- The marker is shorter than an owner, so only the owner can end with it. -/
theorem marker_suffix_seededPreimage_iff {base : Pubkey} {seed : String} {owner : Pubkey} :
    marker <:+ seededPreimage base seed owner ↔ marker <:+ owner.bytes := by
  have howner : owner.bytes <:+ seededPreimage base seed owner :=
    (List.suffix_append _ owner.bytes).trans (List.suffix_append _ _)
  constructor
  · intro h
    have hlength : marker.length ≤ owner.bytes.length := by
      rw [owner.length_bytes]
      decide
    exact List.suffix_of_suffix_length_le h howner hlength
  · intro h
    exact h.trans howner

theorem ofSeed_eq_ok {base : Pubkey} {seed : String} {owner : Pubkey} :
    ofSeed scheme base seed owner = .ok address ↔
      seed.utf8ByteSize ≤ 32 ∧ ¬marker <:+ owner.bytes ∧ scheme.hash (seededPreimage base seed owner) = address := by
  rw [ofSeed, ← List.isSuffixOf_iff_suffix, ← Nat.not_lt, maxSeedLength]
  split
  · rename_i hlong
    exact iff_of_false nofun fun h => h.1 hlong
  · rename_i hshort
    rw [and_iff_right hshort]
    split
    · rename_i hmarker
      exact iff_of_false nofun fun h => h.1 hmarker
    · rename_i hmarker
      rw [and_iff_right hmarker, Except.ok.injEq]

/-- What is in front of the marker is read as a program behind at most two seeds. -/
theorem exists_programPreimage_eq (bs : Bytes) (hprogram : 32 ≤ bs.length) (hseeds : bs.length ≤ 96) :
    ∃ seeds program, WithinLimits seeds ∧ programPreimage seeds program = bs ++ marker := by
  have hgiven : (bs.take (bs.length - 32)).length ≤ 64 := by
    rw [List.length_take]
    omega
  refine ⟨[(bs.take (bs.length - 32)).take 32, (bs.take (bs.length - 32)).drop 32],
    ⟨bs.drop (bs.length - 32), ?_⟩, ⟨?_, ?_⟩, ?_⟩
  · rw [List.length_drop]
    exact Nat.sub_sub_self hprogram
  · exact Nat.le_add_left 2 14
  · intro seed hseed
    rw [List.mem_cons, List.mem_singleton] at hseed
    obtain rfl | rfl := hseed
    · exact List.length_take_le _ _
    · rw [List.length_drop]
      exact Nat.sub_le_of_le_add hgiven
  · rw [programPreimage, List.flatten_cons, List.flatten_cons, List.flatten_nil, List.append_nil,
      List.take_append_drop, ← List.append_assoc, List.take_append_drop]

/-- The test of the owner is as strict as it has to be: what is hashed for an owner that ends with the marker could
be hashed for a program address as well. -/
theorem exists_programPreimage_eq_iff {base : Pubkey} {seed : String} {owner : Pubkey}
    (hseed : seed.utf8ByteSize ≤ 32) :
    (∃ seeds program, WithinLimits seeds ∧ programPreimage seeds program = seededPreimage base seed owner) ↔
      marker <:+ owner.bytes := by
  constructor
  · intro h
    obtain ⟨seeds, program, -, heq⟩ := h
    rw [← marker_suffix_seededPreimage_iff, ← heq]
    exact marker_suffix_programPreimage seeds program
  · intro h
    obtain ⟨front, hfront⟩ := h
    have hlength : (base.bytes ++ (Bytes.ofText seed ++ front)).length =
        32 + (seed.utf8ByteSize + front.length) := by
      rw [List.length_append, List.length_append, base.length_bytes, Bytes.length_ofText]
      rfl
    have hshort : front.length ≤ 32 := by
      have howner : (front ++ marker).length = 32 := hfront ▸ owner.length_bytes
      rw [List.length_append] at howner
      omega
    obtain ⟨seeds, program, hlimits, heq⟩ :=
      exists_programPreimage_eq (base.bytes ++ (Bytes.ofText seed ++ front)) (by omega) (by omega)
    refine ⟨seeds, program, hlimits, ?_⟩
    rw [heq, seededPreimage, ← hfront, List.append_assoc, List.append_assoc]

/-- No seeded address is hashed from the bytes of a program address. If the hash does not map two of the inputs that
are in question to one output, the addresses differ; on all inputs it cannot be so, as there are more of them
than outputs. -/
theorem ofSeed_ne_ofProgram {base : Pubkey} {seed : String} {owner seeded derived : Pubkey}
    (hseeded : ofSeed scheme base seed owner = .ok seeded)
    (hderived : ofProgram scheme seeds program = .ok derived) :
    scheme.hash (seededPreimage base seed owner) = seeded ∧
      scheme.hash (programPreimage seeds program) = derived ∧
      seededPreimage base seed owner ≠ programPreimage seeds program ∧
      ∀ inputs : Set Bytes, inputs.InjOn scheme.hash → seededPreimage base seed owner ∈ inputs →
        programPreimage seeds program ∈ inputs → seeded ≠ derived := by
  obtain ⟨hseed, howner, rfl⟩ := ofSeed_eq_ok.1 hseeded
  obtain ⟨hlimits, rfl, -⟩ := ofProgram_eq_ok.1 hderived
  have hne : seededPreimage base seed owner ≠ programPreimage seeds program := by
    intro heq
    exact howner ((exists_programPreimage_eq_iff hseed).1 ⟨seeds, program, hlimits, heq.symm⟩)
  refine ⟨rfl, rfl, hne, ?_⟩
  intro inputs hinjective hleft hright
  exact hinjective.ne hleft hright hne

/-- The text of the seeded address is counted by its bytes, and the program address has an empty seed. -/
theorem ofSeed_ne_ofProgram_standard :
    let program : Pubkey :=
      ⟨[2, 168, 246, 145, 78, 136, 161, 107, 189, 35, 149, 133, 95, 100, 4, 217,
        180, 244, 86, 183, 130, 27, 176, 20, 87, 73, 66, 140, 0, 0, 0, 0], rfl⟩
    let seeded : Pubkey :=
      ⟨[129, 29, 15, 2, 28, 125, 43, 246, 213, 159, 194, 41, 195, 125, 102, 175,
        104, 119, 110, 175, 252, 155, 59, 237, 181, 207, 170, 217, 219, 112, 29, 216], rfl⟩
    let derived : Pubkey :=
      ⟨[39, 196, 225, 132, 22, 79, 101, 216, 23, 122, 164, 111, 1, 178, 85, 38,
        225, 109, 55, 17, 114, 107, 249, 213, 149, 212, 140, 124, 198, 94, 176, 224], rfl⟩
    ofSeed .standard Fixed.zero "limber chicken: 4/45" Fixed.zero = .ok seeded ∧
      ofProgram .standard [[], [1]] program = .ok derived ∧
      seededPreimage Fixed.zero "limber chicken: 4/45" Fixed.zero ≠ programPreimage [[], [1]] program ∧
      seeded ≠ derived := by
  intro program seeded derived
  have hseeded : ofSeed .standard Fixed.zero "limber chicken: 4/45" Fixed.zero = .ok seeded := by decide +kernel
  have hderived : ofProgram .standard [[], [1]] program = .ok derived := by decide +kernel
  have houtputs : seeded ≠ derived := by decide
  obtain ⟨hleft, hright, hinputs, hne⟩ := ofSeed_ne_ofProgram hseeded hderived
  refine ⟨hseeded, hderived, hinputs, ?_⟩
  apply hne {seededPreimage Fixed.zero "limber chicken: 4/45" Fixed.zero, programPreimage [[], [1]] program}
  · rw [Set.injOn_pair, hleft, hright]
    intro h
    exact absurd h houtputs
  · exact Or.inl rfl
  · exact Or.inr rfl

end DerivedAddress

end LedgerTx
