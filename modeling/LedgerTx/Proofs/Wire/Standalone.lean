import LedgerTx.Instruction
import LedgerTx.Proofs.Wire.Exact

/-! The wire forms of instructions and of accounts that stand alone. Instead of behind compact lengths, sequences
are written behind their lengths in eight bytes, and what is asked of an account is written in whole bytes, of
which only two are read. Both forms are lawful, so that a value is decoded from exactly the bytes that are written
for it; all that is required of an instruction is that eight bytes can say the lengths of its lists. -/

namespace LedgerTx

open Cursor

namespace Reader

variable {c d : Cursor}

/-- A flag is read exactly, as all bytes that are no flags are refused. -/
theorem bool_eq_ok {value : Bool} : bool c = .ok value d ↔ Passes c [AccountMeta.flagByte value] d := by
  rw [bool, EStateM.bind_eq_ok]
  constructor
  · rintro ⟨b, middle, hbyte, hvalue⟩
    have hpasses := byte_eq_ok.1 hbyte
    split at hvalue
    · obtain ⟨rfl, rfl⟩ := pure_eq_ok.1 hvalue
      exact hpasses
    · obtain ⟨rfl, rfl⟩ := pure_eq_ok.1 hvalue
      exact hpasses
    · cases hvalue
  · intro h
    refine ⟨AccountMeta.flagByte value, d, byte_eq_ok.2 h, ?_⟩
    cases value with
    | false => rfl
    | true => rfl

/-- A number is read exactly from as many bytes as it is given, and fits them. -/
theorem littleEndian_eq_ok {width n : Nat} :
    littleEndian width c = .ok n d ↔ n < 1 <<< (8 * width) ∧ Passes c (Bytes.littleEndian width n) d := by
  rw [littleEndian, map_eq_ok]
  constructor
  · rintro ⟨read, hread, rfl⟩
    obtain ⟨rfl, hpasses⟩ := bytes_eq_ok.1 hread
    rw [Bytes.littleEndian_ofLittleEndian]
    exact ⟨Bytes.ofLittleEndian_lt read, hpasses⟩
  · rintro ⟨hfits, hpasses⟩
    refine ⟨_, bytes_eq_ok.2 ⟨Bytes.length_littleEndian width n, hpasses⟩, ?_⟩
    rw [Bytes.ofLittleEndian_littleEndian, Nat.mod_eq_of_lt hfits]

/-- The length of a list is read exactly if it is a 64-bit word. -/
theorem length_eq_ok {n : Nat} :
    littleEndian 8 c = .ok n d ↔ n < UInt64.size ∧ Passes c (Bytes.littleEndian 8 n) d :=
  littleEndian_eq_ok

end Reader

instance : LawfulWire AccountMeta where
  Readable _ := True
  decode_eq_ok := by
    intro c d account
    change (Reader.fixed .pubkey >>= fun key => Reader.bool >>= fun signer => Reader.bool >>= fun writable =>
      pure ⟨key, signer, writable⟩ : Reader AccountMeta) c = _ ↔
      True ∧ Passes c (account.key.bytes ++
        ([AccountMeta.flagByte account.signer] ++ [AccountMeta.flagByte account.writable])) d
    simp only [EStateM.bind_eq_ok, Reader.fixed_eq_ok, Reader.bool_eq_ok, Reader.pure_eq_ok, true_and,
      passes_append]
    constructor
    · rintro ⟨_, c₁, h₁, _, c₂, h₂, _, _, h₃, rfl, rfl⟩
      exact ⟨c₁, h₁, c₂, h₂, h₃⟩
    · rintro ⟨c₁, h₁, c₂, h₂, h₃⟩
      exact ⟨_, c₁, h₁, _, c₂, h₂, _, d, h₃, rfl, rfl⟩

/-- The lengths of the lists of an instruction are 64-bit words. -/
structure Instruction.Countable (instruction : Instruction) : Prop where
  accounts : instruction.accounts.length < UInt64.size
  data : instruction.data.length < UInt64.size

instance (instruction : Instruction) : Decidable instruction.Countable :=
  decidable_of_iff (instruction.accounts.length < UInt64.size ∧ instruction.data.length < UInt64.size)
    ⟨fun h => ⟨h.1, h.2⟩, fun h => ⟨h.accounts, h.data⟩⟩

/-- The accounts are as many as the length in front of them says, so that it is known where the next one is. -/
instance : LawfulWire Instruction where
  Readable := Instruction.Countable
  decode_eq_ok := by
    intro c d instruction
    change (Reader.fixed .pubkey >>= fun program => Reader.littleEndian 8 >>= fun count =>
      Reader.items count Wire.decode >>= fun accounts => Reader.littleEndian 8 >>= fun length =>
        Reader.bytes length >>= fun data => pure ⟨program, accounts, data⟩ : Reader Instruction) c = _ ↔
      _ ∧ Passes c (instruction.program.bytes ++ (Bytes.littleEndian 8 instruction.accounts.length ++
        (instruction.accounts.flatMap Wire.encode ++
          (Bytes.littleEndian 8 instruction.data.length ++ instruction.data)))) d
    simp only [EStateM.bind_eq_ok, Reader.fixed_eq_ok, Reader.length_eq_ok, Reader.items_eq_ok,
      Reader.bytes_eq_ok, Reader.pure_eq_ok, passes_append]
    constructor
    · rintro ⟨_, c₁, h₁, _, c₂, ⟨haccounts, h₂⟩, _, c₃, ⟨rfl, -, h₃⟩, _, c₄, ⟨hdata, h₄⟩, _, _, ⟨rfl, h₅⟩,
        rfl, rfl⟩
      exact ⟨⟨haccounts, hdata⟩, c₁, h₁, c₂, h₂, c₃, h₃, c₄, h₄, h₅⟩
    · rintro ⟨hcountable, c₁, h₁, c₂, h₂, c₃, h₃, c₄, h₄, h₅⟩
      exact ⟨_, c₁, h₁, _, c₂, ⟨hcountable.accounts, h₂⟩, _, c₃, ⟨rfl, fun _ _ => trivial, h₃⟩,
        _, c₄, ⟨hcountable.data, h₄⟩, _, d, ⟨rfl, h₅⟩, rfl, rfl⟩

/-- An instruction is decoded from exactly the bytes that are written for it, if its lists have lengths that can be
written, and an account is decoded from exactly the bytes that are written for it. -/
theorem decodeAll_standalone :
    (∀ instruction : Instruction, instruction.Countable →
      Wire.decodeAll Instruction (Wire.encode instruction) = .ok instruction) ∧
    (∀ account : AccountMeta, Wire.decodeAll AccountMeta (Wire.encode account) = .ok account) ∧
    (∀ (bs : Bytes) (instruction : Instruction), Wire.decodeAll Instruction bs = .ok instruction →
      instruction.Countable ∧ Wire.encode instruction = bs) ∧
    ∀ (bs : Bytes) (account : AccountMeta), Wire.decodeAll AccountMeta bs = .ok account →
      Wire.encode account = bs := by
  refine ⟨?_, ?_, ?_, ?_⟩
  · intro instruction hcountable
    exact Wire.decodeAll_eq_ok.2 ⟨hcountable, rfl⟩
  · intro account
    exact Wire.decodeAll_eq_ok.2 ⟨trivial, rfl⟩
  · intro bs instruction h
    obtain ⟨hcountable, hbytes⟩ := Wire.decodeAll_eq_ok.1 h
    exact ⟨hcountable, hbytes.symm⟩
  · intro bs account h
    exact (Wire.decodeAll_eq_ok.1 h).2.symm

/-- An instruction with three bytes of data and two accounts, of which the first signs and is written to. -/
theorem decodeAll_standalone_two :
    let signer : AccountMeta := ⟨⟨List.replicate 32 1, rfl⟩, true, true⟩
    let reader : AccountMeta := ⟨⟨List.replicate 32 2, rfl⟩, false, false⟩
    let instruction : Instruction := ⟨⟨List.replicate 32 9, rfl⟩, [signer, reader], [1, 2, 3]⟩
    let bs : Bytes :=
      List.replicate 32 9 ++ [2, 0, 0, 0, 0, 0, 0, 0] ++ List.replicate 32 1 ++ [1, 1] ++
        List.replicate 32 2 ++ [0, 0] ++ [3, 0, 0, 0, 0, 0, 0, 0] ++ [1, 2, 3]
    Wire.decodeAll Instruction (Wire.encode instruction) = .ok instruction ∧
      (Wire.decodeAll Instruction bs = .ok instruction ∧ Wire.encode instruction = bs) ∧
      Wire.decodeAll AccountMeta (List.replicate 32 1 ++ [1, 1]) = .ok signer ∧
      Wire.encode signer = List.replicate 32 1 ++ [1, 1] := by
  intro signer reader instruction bs
  have hcountable : instruction.Countable := ⟨by decide, by decide⟩
  have hread : Wire.decodeAll Instruction bs = .ok instruction := by decide +kernel
  have haccount : Wire.decodeAll AccountMeta (List.replicate 32 1 ++ [1, 1]) = .ok signer := by decide +kernel
  exact ⟨decodeAll_standalone.1 instruction hcountable,
    ⟨hread, (decodeAll_standalone.2.2.1 bs instruction hread).2⟩,
    haccount, decodeAll_standalone.2.2.2 _ signer haccount⟩

end LedgerTx
