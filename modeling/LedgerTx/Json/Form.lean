import LedgerTx.Json.Reader
import LedgerTx.Transaction

/-! The JSON form of a type: how its values are written, and how they are read. A record is written as
an object; it is read from an object with its members in any order and others among them, or from an
array of exactly the members' values. Records are put together from single members, and so are those of accounts,
instructions, messages and transactions. In these keys, hashes and signatures are base 58 strings, and bytes are
arrays of numbers. -/

namespace LedgerTx.Json

class Form (α : Type) where
  read : TextReader α
  write : α → List Char

/-- The value that a text stands for, with nothing but white space after it. -/
def decode (α : Type) [Form α] (text : String) : Except Error α :=
  match (Form.read : TextReader α) text.toList with
  | .error e _ => .error e
  | .ok value rest => if (afterSpace rest).isEmpty then .ok value else .error .malformed

def encode {α : Type} [Form α] (value : α) : String := String.ofList (Form.write value)

/-- A string in which nothing has to be escaped. -/
def quote (cs : List Char) : List Char := '"' :: (cs ++ ['"'])

def commaSeparated (texts : List (List Char)) : List Char := (texts.intersperse [',']).flatten

instance : Form Bool where
  read := bool
  write
    | true => ['t', 'r', 'u', 'e']
    | false => ['f', 'a', 'l', 's', 'e']

instance : Form UInt8 where
  read := byte
  write b := Nat.toDigits 10 b.toNat

instance {α : Type} [Form α] : Form (List α) where
  read := list Form.read
  write values := '[' :: (commaSeparated (values.map Form.write) ++ [']'])

instance {kind : Kind} : Form (Fixed kind) where
  read := do
    match Fixed.parse (← string) with
    | .ok value => return value
    | .error e => throw (.text e)
  write value := quote value.text.toList

/-! ### Records -/

/-- The members of a record. `Known` holds what has been read of an object so far. -/
structure Record (α : Type) where
  Known : Type
  nothing : Known
  /-- Reads the value of the member with a name; there is none to read if no member has it. -/
  member? : String → Known → Option (TextReader Known)
  all? : Known → Option α
  /-- Reads the values in order, and a comma before the first one unless nothing comes before. -/
  values : (first : Bool) → TextReader α
  write : α → List (List Char)

namespace Record

/-- The record of one member. It may not be given twice. -/
def member {α : Type} [Form α] (name : String) : Record α where
  Known := Option α
  nothing := none
  member? found known :=
    if found = name then some (if known.isSome then throw .malformed else some <$> Form.read) else none
  all? known := known
  values first := if first then Form.read else expect ',' *> Form.read
  write value := [quote name.toList ++ ':' :: Form.write value]

def and {α β : Type} (a : Record α) (b : Record β) : Record (α × β) where
  Known := a.Known × b.Known
  nothing := (a.nothing, b.nothing)
  member? name known :=
    match a.member? name known.1 with
    | some read => some do return (← read, known.2)
    | none => (b.member? name known.2).map fun read => do return (known.1, ← read)
  all? known := do return (← a.all? known.1, ← b.all? known.2)
  values first := do
    let x ← a.values first
    let y ← b.values false
    return (x, y)
  write value := a.write value.1 ++ b.write value.2

variable {α : Type} (record : Record α)

/-- The members of an object that are still to come, at most as many as the number says. -/
def membersFrom : (most : Nat) → record.Known → TextReader record.Known
  | 0, _ => throw .malformed
  | most + 1, known => do
    let name ← string
    expect ':'
    let known ← match record.member? name known with
      | some read => read
      | none => do
        skipValue
        pure known
    if ← continues '\x7d' then membersFrom most known else return known

def members : TextReader record.Known := do
  expect '\x7b'
  if (← peek) = '\x7d' then
    expect '\x7d'
    return record.nothing
  else record.membersFrom (← get).length record.nothing

/-- A record, from an object or from an array. -/
def read : TextReader α := do
  if (← peek) = '[' then
    expect '['
    let value ← record.values true
    expect ']'
    return value
  else
    match record.all? (← record.members) with
    | some value => return value
    | none => throw .malformed

@[reducible] def form {β : Type} (make : α → β) (parts : β → α) : Form β where
  read := make <$> record.read
  write value := '\x7b' :: (commaSeparated (record.write (parts value)) ++ ['\x7d'])

end Record

open Record

instance : Form AccountMeta :=
  form ((member "pubkey").and ((member "isSigner").and (member "isWritable")))
    (fun (key, signer, writable) => ⟨key, signer, writable⟩)
    (fun account => (account.key, account.signer, account.writable))

instance : Form Instruction :=
  form ((member "programId").and ((member "accounts").and (member "data")))
    (fun (program, accounts, data) => ⟨program, accounts, data⟩)
    (fun instruction => (instruction.program, instruction.accounts, instruction.data))

instance : Form CompiledInstruction :=
  form ((member "programIdIndex").and ((member "accounts").and (member "data")))
    (fun (program, accounts, data) => ⟨program, accounts, data⟩)
    (fun instruction => (instruction.program, instruction.accounts, instruction.data))

instance : Form Header :=
  form
    ((member "numRequiredSignatures").and
      ((member "numReadonlySignedAccounts").and (member "numReadonlyUnsignedAccounts")))
    (fun (required, readonlySigned, readonlyUnsigned) => ⟨required, readonlySigned, readonlyUnsigned⟩)
    (fun header => (header.required, header.readonlySigned, header.readonlyUnsigned))

instance : Form TableLookup :=
  form ((member "accountKey").and ((member "writableIndexes").and (member "readonlyIndexes")))
    (fun (key, writable, readonly) => ⟨key, writable, readonly⟩)
    (fun lookup => (lookup.key, lookup.writable, lookup.readonly))

instance : Form Message :=
  form
    ((member "header").and
      ((member "accountKeys").and ((member "recentBlockhash").and (member "instructions"))))
    (fun (header, accountKeys, recentBlockhash, instructions) =>
      ⟨header, accountKeys, recentBlockhash, instructions⟩)
    (fun m => (m.header, m.accountKeys, m.recentBlockhash, m.instructions))

instance : Form V0Message :=
  form
    ((member "header").and
      ((member "accountKeys").and
        ((member "recentBlockhash").and
          ((member "instructions").and (member "addressTableLookups")))))
    (fun (header, accountKeys, recentBlockhash, instructions, lookups) =>
      ⟨⟨header, accountKeys, recentBlockhash, instructions⟩, lookups⟩)
    (fun m => (m.header, m.accountKeys, m.recentBlockhash, m.instructions, m.lookups))

instance : Form Transaction :=
  form ((member "signatures").and (member "message"))
    (fun (signatures, message) => ⟨signatures, message⟩)
    (fun t => (t.signatures, t.message))

end LedgerTx.Json
