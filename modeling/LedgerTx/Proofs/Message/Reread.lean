import LedgerTx.Proofs.Message.Canonical
import LedgerTx.Proofs.Wire.RoundTrip
import Mathlib.Data.Set.Card

/-! Compiled messages on the wire. No list in a compiled message is too long to be read back: the lengths
of instructions are checked, and there are at most 256 keys. What tells the legacy form, though, is the
high bit of the first count, which is the number of keys that have to sign, and compiling lets this be any
byte. -/

namespace LedgerTx

namespace Instruction

variable {keys : List Pubkey}

theorem fits_of_compileWithin {instruction : Instruction} {compiled : CompiledInstruction}
    (h : instruction.compileWithin keys = .ok compiled) : Fits compiled := by
  obtain ⟨⟨haccounts, hdata⟩, -, hplaces, hsame⟩ := compileWithin_eq_ok.1 h
  have hlength : compiled.accounts.length = instruction.accounts.length :=
    (List.forall₂_of_mapM_eq_ok hplaces).length_eq
  rw [CompiledInstruction.fits_iff, hlength, hsame]
  exact ⟨haccounts, hdata⟩

theorem fits_of_compileAll {instructions : List Instruction} {compiled : List CompiledInstruction}
    (h : compileAll keys instructions = .ok compiled) :
    compiled.length ≤ CompactLength.limit ∧ ∀ one ∈ compiled, Fits one := by
  obtain ⟨-, hlength, h⟩ := compileAll_eq_ok.1 h
  have hpairs := List.forall₂_of_mapM_eq_ok h
  refine ⟨hpairs.length_eq.trans_le hlength, ?_⟩
  intro one hone
  obtain ⟨_, -, hcompiled⟩ := hpairs.exists_of_mem_left hone
  exact fits_of_compileWithin hcompiled

end Instruction

namespace Message

variable {instructions : List Instruction} {payer : Option Pubkey} {blockhash : Hash} {m : Message}
  {key : Pubkey}

theorem fits_of_compile (h : compile instructions payer blockhash = .ok m) : Fits m := by
  obtain ⟨header, hheader, h⟩ := Except.bind_eq_ok.1 h
  obtain ⟨compiled, hcompiled, h⟩ := Except.bind_eq_ok.1 h
  cases h
  refine fits_iff.2 ⟨?_, Instruction.fits_of_compileAll hcompiled⟩
  calc _ ≤ 256 := (Layout.header_eq_ok hheader).1
    _ ≤ CompactLength.limit := by decide

theorem length_signerKeys_of_compile (h : compile instructions payer blockhash = .ok m) :
    m.signerKeys.length = m.required :=
  List.length_take_of_le (compile_eq_ok h).1.required_le

theorem nodup_signerKeys_of_compile (h : compile instructions payer blockhash = .ok m) :
    m.signerKeys.Nodup :=
  (nodup_accountKeys_of_compile h).sublist (List.take_sublist _ _)

theorem mem_signerKeys_of_compile (h : compile instructions payer blockhash = .ok m) :
    key ∈ m.signerKeys ↔ Demand.Signs instructions payer key := by
  have hsorts := Layout.sorts_ofRequests (Requests.faithful_merged instructions payer)
  have hsigner : ∀ i, m.accountKeys[i]? = some key →
      (i < m.required ↔ Demand.Signs instructions payer key) := by
    intro i hkey
    rw [← (compile_eq_ok h).1.isSigner_iff hsorts hkey, isSigner_iff]
  refine ⟨?_, ?_⟩
  · intro hmem
    obtain ⟨i, hi, hkey⟩ := List.mem_take_iff_getElem.1 hmem
    have hplace : i < m.required ∧ i < m.accountKeys.length := lt_min_iff.1 hi
    exact (hsigner i (List.getElem?_eq_some_iff.2 ⟨hplace.2, hkey⟩)).1 hplace.1
  · intro hsigns
    have hmem : key ∈ m.accountKeys :=
      (accountKeys_perm h).mem_iff.2 (Requests.mem_keys_merged.2 hsigns.names)
    obtain ⟨i, hkey⟩ := List.mem_iff_getElem?.1 hmem
    obtain ⟨hi, hget⟩ := List.getElem?_eq_some_iff.1 hkey
    exact List.mem_take_iff_getElem.2 ⟨i, lt_min ((hsigner i hkey).2 hsigns) hi, hget⟩

/-- A compiled message, written as a message of either form, is read back exactly if fewer than 128 keys
have to sign. -/
theorem decodeAll_legacy_iff_of_compile (h : compile instructions payer blockhash = .ok m) :
    Wire.decodeAll VersionedMessage (Wire.encode (VersionedMessage.legacy m)) = .ok (.legacy m) ↔
      {key | Demand.Signs instructions payer key}.ncard < 128 := by
  have hkeys : {key | Demand.Signs instructions payer key} = (m.signerKeys.toFinset : Set Pubkey) := by
    ext key
    rw [Finset.mem_coe, List.mem_toFinset]
    exact (mem_signerKeys_of_compile h).symm
  have hcount : {key | Demand.Signs instructions payer key}.ncard = m.required := by
    rw [hkeys, Set.ncard_coe_finset, List.toFinset_card_of_nodup (nodup_signerKeys_of_compile h),
      length_signerKeys_of_compile h]
  rw [hcount]
  calc _ ↔ Fits m ∧ m.header.required < 128 := Wire.decodeAll_encode_eq_ok _
    _ ↔ m.header.required < 128 := and_iff_right (fits_of_compile h)
    _ ↔ m.required < 128 := UInt8.lt_iff_toNat_lt

def numberedKey (n : Nat) : Pubkey := ⟨UInt8.ofNat n :: List.replicate 31 0, rfl⟩

/-- One instruction for which the keys from a number down to one have to sign. -/
def signedDownFrom (count : Nat) : List Instruction :=
  [⟨numberedKey 200, (List.range count).map fun n => ⟨numberedKey (count - n), true, false⟩, []⟩]

theorem decodeAll_legacy_iff_of_compile_two :
    ∃ m, compile (signedDownFrom 2) none Fixed.zero = .ok m ∧
      Wire.decodeAll VersionedMessage (Wire.encode (VersionedMessage.legacy m)) = .ok (.legacy m) ∧
      {key | Demand.Signs (signedDownFrom 2) none key}.ncard < 128 := by
  obtain ⟨m, hcompile, hreread⟩ : ∃ m, compile (signedDownFrom 2) none Fixed.zero = .ok m ∧
      Wire.decodeAll VersionedMessage (Wire.encode (VersionedMessage.legacy m)) = .ok (.legacy m) :=
    ⟨_, rfl, by decide +kernel⟩
  exact ⟨m, hcompile, hreread, (decodeAll_legacy_iff_of_compile hcompile).1 hreread⟩

/-- A message for which 128 keys have to sign is compiled, but its first byte says that it has a version. -/
theorem exists_compiled_not_reread :
    ∃ m, compile (signedDownFrom 128) none Fixed.zero = .ok m ∧
      Wire.decodeAll VersionedMessage (Wire.encode (VersionedMessage.legacy m)) ≠ .ok (.legacy m) := by
  have hheader : (Layout.ofRequests none (Requests.merged (signedDownFrom 128) none)).header =
      .ok ⟨128, 128, 1⟩ := by
    decide +kernel
  have hlengths : ∀ ix ∈ signedDownFrom 128,
      ix.accounts.length ≤ CompactLength.limit ∧ ix.data.length ≤ CompactLength.limit := by
    decide +kernel
  obtain ⟨m, hcompile, hm⟩ := exists_compile hheader (by decide) hlengths Fixed.zero
  refine ⟨m, hcompile, ?_⟩
  rw [Ne, Wire.decodeAll_encode_eq_ok]
  intro hreadable
  have htells : m.header.required < 128 := hreadable.2
  rw [hm] at htells
  exact absurd htells (by decide)

end Message

end LedgerTx
