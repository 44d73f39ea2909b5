import LedgerTx.Json.Form
import LedgerTx.Proofs.Json.Records

/-! The forms of accounts, instructions, messages and transactions are lawful because their records are put
together from members of different names, so that what is written for any of them is read back. Where a key,
a hash or a signature is expected, a string is taken just if it is the text of one, however it is escaped. -/

namespace LedgerTx.Json

open Record

instance : LawfulForm AccountMeta :=
  (Lawful.cons (by decide) (.cons (by decide) (.member (by decide)))).lawfulForm fun _ => rfl

instance : LawfulForm Instruction :=
  (Lawful.cons (by decide) (.cons (by decide) (.member (by decide)))).lawfulForm fun _ => rfl

instance : LawfulForm CompiledInstruction :=
  (Lawful.cons (by decide) (.cons (by decide) (.member (by decide)))).lawfulForm fun _ => rfl

instance : LawfulForm Header :=
  (Lawful.cons (by decide) (.cons (by decide) (.member (by decide)))).lawfulForm fun _ => rfl

instance : LawfulForm TableLookup :=
  (Lawful.cons (by decide) (.cons (by decide) (.member (by decide)))).lawfulForm fun _ => rfl

instance : LawfulForm Message :=
  (Lawful.cons (by decide) (.cons (by decide)
    (.cons (by decide) (.member (by decide))))).lawfulForm fun _ => rfl

instance : LawfulForm V0Message :=
  (Lawful.cons (by decide) (.cons (by decide)
    (.cons (by decide) (.cons (by decide) (.member (by decide)))))).lawfulForm fun _ => rfl

instance : LawfulForm Transaction :=
  (Lawful.cons (by decide) (.member (by decide))).lawfulForm fun _ => rfl

/-- Every value is read back from what is written for it. Where a value of fixed width is expected, a string
is accepted just if it holds the text of one, and what is read is that value. -/
theorem decode_encode_model :
    (∀ x : Pubkey, decode Pubkey (encode x) = .ok x) ∧
      (∀ x : Hash, decode Hash (encode x) = .ok x) ∧
      (∀ x : Signature, decode Signature (encode x) = .ok x) ∧
      (∀ x : AccountMeta, decode AccountMeta (encode x) = .ok x) ∧
      (∀ x : Instruction, decode Instruction (encode x) = .ok x) ∧
      (∀ x : CompiledInstruction, decode CompiledInstruction (encode x) = .ok x) ∧
      (∀ x : Header, decode Header (encode x) = .ok x) ∧
      (∀ x : TableLookup, decode TableLookup (encode x) = .ok x) ∧
      (∀ x : Message, decode Message (encode x) = .ok x) ∧
      (∀ x : V0Message, decode V0Message (encode x) = .ok x) ∧
      (∀ x : Transaction, decode Transaction (encode x) = .ok x) ∧
      ∀ (kind : Kind) (cs : List Char) (content : String) (rest : List Char), StringAt cs content rest →
        ((∃ (value : Fixed kind) (left : List Char), Form.read cs = .ok value left) ↔
          ∃ value : Fixed kind, value.text = content) ∧
        ∀ (value : Fixed kind) (left : List Char),
          Form.read cs = .ok value left ↔ value.text = content ∧ left = rest := by
  refine ⟨decode_encode, decode_encode, decode_encode, decode_encode, decode_encode, decode_encode,
    decode_encode, decode_encode, decode_encode, decode_encode, decode_encode, ?_⟩
  intro kind cs content rest h
  have hread : ∀ (value : Fixed kind) (left : List Char),
      Form.read cs = .ok value left ↔ value.text = content ∧ left = rest := by
    intro value left
    rw [read_fixed_eq_ok]
    refine ⟨fun hstring => hstring.unique h, ?_⟩
    rintro ⟨rfl, rfl⟩
    exact h
  refine ⟨⟨?_, ?_⟩, hread⟩
  · rintro ⟨value, left, hvalue⟩
    exact ⟨value, ((hread value left).1 hvalue).1⟩
  · rintro ⟨value, hvalue⟩
    exact ⟨value, rest, (hread value rest).2 ⟨hvalue, rfl⟩⟩

/-- The text of the key of zeros, after a space, with its first digit escaped and a comma after it. -/
theorem decode_encode_model_escaped :
    let cs := [' ', '"', '\\', 'u', '0', '0', '3', '1'] ++ (List.replicate 31 '1' ++ ['"', ','])
    StringAt cs (String.ofList (List.replicate 32 '1')) [','] ∧
      (Form.read : TextReader Pubkey) cs = .ok Fixed.zero [','] := by
  intro cs
  have hstring : StringAt cs (String.ofList (List.replicate 32 '1')) [','] := by
    refine ⟨[' '], ['\\', 'u', '0', '0', '3', '1'] ++ List.replicate 31 '1', ?_, ?_, rfl⟩
    · exact List.forall_mem_singleton.2 rfl
    · rw [String.toList_ofList]
      exact .cons (.unit rfl rfl rfl) (Plain.spellings (by decide))
  have htext : (Fixed.zero : Pubkey).text = String.ofList (List.replicate 32 '1') := by
    refine (Base58.spells_iff.1 ⟨List.replicate 32 0, String.toList_ofList, ?_⟩).symm
    exact ⟨by decide, by decide, by decide, by decide⟩
  obtain ⟨-, -, -, -, -, -, -, -, -, -, -, hstrings⟩ := decode_encode_model
  exact ⟨hstring, ((hstrings .pubkey _ _ _ hstring).2 _ _).2 ⟨htext, rfl⟩⟩

end LedgerTx.Json
