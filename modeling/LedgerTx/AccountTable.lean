import LedgerTx.Message.Versioned

/-! Messages compiled from instructions. What the instructions ask of each account is merged: an account signs, or is
written, as soon as one of them asks for it. The merged requests are a list that ascends by key and holds every key
once, and are laid out as a table of keys: four categories, by whether an account signs and whether it is written,
each ascending by key, except that the payer comes before all others. A key that neither signs nor is called can be
left to a lookup table; it is taken from the first table that lists it, at the first place where it does, and then
no longer needs a place in the table of the message. In the table each instruction names its program and its
accounts by the first places that have their keys; everything that is written behind a compact length must be short
enough to be read back. -/

namespace LedgerTx

inductive CompileError where
  /-- There are more keys than a byte can name, or a category is too large for its count. -/
  | tooManyAccountKeys (count : Nat)
  | programIdNotFound (key : Pubkey)
  | unknownInstructionKey (key : Pubkey)
  /-- A lookup table lists a key at a place that a byte cannot name. -/
  | lookupIndexOverflow
  /-- A sequence is longer than its written length can say. -/
  | lengthOverflow (length : Nat)
  deriving DecidableEq

def CompileError.message : CompileError → String
  | .tooManyAccountKeys count =>
    s!"too many account keys: {count} exceeds the 256-entry account table"
  | .programIdNotFound key => s!"program id `{key.text}` not found in the account table"
  | .unknownInstructionKey key =>
    s!"encountered unknown account key `{key.text}` during instruction compilation"
  | .lookupIndexOverflow => "address lookup table index overflowed during compilation"
  | .lengthOverflow length => s!"length {length} does not fit a compact-u16 prefix"

structure Access where
  signer : Bool
  writable : Bool
  invoked : Bool
  deriving DecidableEq

/-- What is asked by either of two requests. -/
def Access.merge (a b : Access) : Access :=
  ⟨a.signer || b.signer, a.writable || b.writable, a.invoked || b.invoked⟩

/-- What is asked of each key, ascending by key. -/
abbrev Requests := List (Pubkey × Access)

namespace Requests

def add (key : Pubkey) (access : Access) : Requests → Requests
  | [] => [(key, access)]
  | (k, a) :: rest =>
    match compare key k with
    | .lt => (key, access) :: (k, a) :: rest
    | .eq => (k, a.merge access) :: rest
    | .gt => (k, a) :: add key access rest

def ofInstruction (instruction : Instruction) : Requests :=
  (instruction.program, ⟨false, false, true⟩) ::
    instruction.accounts.map fun account => (account.key, ⟨account.signer, account.writable, false⟩)

def ofPayer (payer : Option Pubkey) : Requests :=
  payer.toList.map fun key => (key, ⟨true, true, false⟩)

/-- Every request of the instructions and the payer by itself, in no order that matters. -/
def all (instructions : List Instruction) (payer : Option Pubkey) : Requests :=
  instructions.flatMap ofInstruction ++ ofPayer payer

def merged (instructions : List Instruction) (payer : Option Pubkey) : Requests :=
  (all instructions payer).foldl (fun requests (key, access) => requests.add key access) []

def keysWith (wanted : Access → Bool) (requests : Requests) : List Pubkey :=
  (requests.filter fun request => wanted request.2).map Prod.fst

end Requests

/-- The keys of a table by category, in the order of the table. -/
structure Layout where
  writableSigners : List Pubkey
  readonlySigners : List Pubkey
  writableOthers : List Pubkey
  readonlyOthers : List Pubkey

namespace Layout

/-- The layout of merged requests. The payer is put in front and not counted among the requests. -/
def ofRequests (payer : Option Pubkey) (requests : Requests) : Layout :=
  let others : Requests := requests.filter fun request => payer != some request.1
  { writableSigners := payer.toList ++ others.keysWith fun a => a.signer && a.writable
    readonlySigners := others.keysWith fun a => a.signer && !a.writable
    writableOthers := others.keysWith fun a => !a.signer && a.writable
    readonlyOthers := others.keysWith fun a => !a.signer && !a.writable }

variable (layout : Layout)

def keys : List Pubkey :=
  layout.writableSigners ++
    (layout.readonlySigners ++ (layout.writableOthers ++ layout.readonlyOthers))

def signerCount : Nat := layout.writableSigners.length + layout.readonlySigners.length

/-- The header that describes the layout. A table has at most 256 keys, and each count is a byte. -/
def header : Except CompileError Header :=
  let count := layout.keys.length
  if 256 < count ∨ 255 < layout.signerCount ∨ 255 < layout.readonlySigners.length ∨
      255 < layout.readonlyOthers.length then
    .error (.tooManyAccountKeys count)
  else
    .ok ⟨UInt8.ofNat layout.signerCount, UInt8.ofNat layout.readonlySigners.length,
      UInt8.ofNat layout.readonlyOthers.length⟩

end Layout

/-- Whether an account may be left to a lookup table, to be written or not. -/
def Access.isLoadable (writable : Bool) (access : Access) : Bool :=
  !access.signer && !access.invoked && access.writable == writable

namespace LookupTable

variable (table : LookupTable)

/-- The loadable keys that the table lists, with their first places in it. -/
def listed (writable : Bool) (requests : Requests) : List (Pubkey × Nat) :=
  (requests.keysWith (Access.isLoadable writable)).filterMap fun key =>
    (table.addresses.idxOf? key).map fun i => (key, i)

/-- The lookup that takes from the table whatever it lists of the requests, and the keys that the lookup
stands for; none if the table lists nothing of them. -/
def take? (requests : Requests) : Except CompileError (Option (TableLookup × LoadedAddresses)) :=
  let writable := table.listed true requests
  let readonly := table.listed false requests
  if (writable ++ readonly).any fun entry => 255 < entry.2 then .error .lookupIndexOverflow
  else if (writable ++ readonly).isEmpty then .ok none
  else
    let places (entries : List (Pubkey × Nat)) : Bytes := entries.map fun entry => UInt8.ofNat entry.2
    .ok (some (⟨table.key, places writable, places readonly⟩,
      ⟨writable.map Prod.fst, readonly.map Prod.fst⟩))

end LookupTable

def Requests.without (requests : Requests) (loaded : LoadedAddresses) : Requests :=
  requests.filter fun request => !loaded.keys.contains request.1

/-- What the tables take from the requests one after the other, and the requests that are left. -/
def Requests.takeLookups : List LookupTable → Requests →
    Except CompileError (List (TableLookup × LoadedAddresses) × Requests)
  | [], requests => .ok ([], requests)
  | table :: tables, requests => do
    match ← table.take? requests with
    | none => takeLookups tables requests
    | some (lookup, loaded) =>
      let (more, left) ← takeLookups tables (requests.without loaded)
      return ((lookup, loaded) :: more, left)

/-- The place of a key in a table of at most 256. -/
def tableIndex? (keys : List Pubkey) (key : Pubkey) : Option UInt8 :=
  (keys.idxOf? key).map UInt8.ofNat

def checkLength (length : Nat) : Except CompileError Unit :=
  if CompactLength.limit < length then .error (.lengthOverflow length) else .ok ()

def checkTable (keys : List Pubkey) : Except CompileError Unit :=
  if 256 < keys.length then .error (.tooManyAccountKeys keys.length) else .ok ()

def AccountMeta.compile (keys : List Pubkey) (account : AccountMeta) : Except CompileError UInt8 :=
  match tableIndex? keys account.key with
  | some i => .ok i
  | none => .error (.unknownInstructionKey account.key)

namespace Instruction

/-- An instruction by its places in a table that is small enough. -/
def compileWithin (keys : List Pubkey) (instruction : Instruction) :
    Except CompileError CompiledInstruction := do
  checkLength instruction.accounts.length
  checkLength instruction.data.length
  match tableIndex? keys instruction.program with
  | none => throw (.programIdNotFound instruction.program)
  | some program =>
    let accounts ← instruction.accounts.mapM (AccountMeta.compile keys)
    return ⟨program, accounts, instruction.data⟩

def compile (keys : List Pubkey) (instruction : Instruction) :
    Except CompileError CompiledInstruction := do
  checkTable keys
  instruction.compileWithin keys

def compileAll (keys : List Pubkey) (instructions : List Instruction) :
    Except CompileError (List CompiledInstruction) := do
  checkTable keys
  checkLength instructions.length
  instructions.mapM (compileWithin keys)

end Instruction

namespace Message

/-- The message of the given instructions, in which the payer, if there is one, comes first. -/
def compile (instructions : List Instruction) (payer : Option Pubkey) (blockhash : Hash) :
    Except CompileError Message := do
  let layout := Layout.ofRequests payer (Requests.merged instructions payer)
  let header ← layout.header
  let compiled ← Instruction.compileAll layout.keys instructions
  return ⟨header, layout.keys, blockhash, compiled⟩

/-- The message that first advances a nonce and then does what it is given. Its block hash is left zero,
for the value of the nonce to be put in. -/
def compileWithNonce (instructions : List Instruction) (payer : Option Pubkey)
    (nonce authority : Pubkey) : Except CompileError Message :=
  compile (SystemProgram.advanceNonce nonce authority :: instructions) payer Fixed.zero

def compileInstruction (m : Message) (instruction : Instruction) :
    Except CompileError CompiledInstruction :=
  instruction.compile m.accountKeys

end Message

/-- The message of the given instructions in which lookup tables stand in for as many keys as they can. -/
def V0Message.compile (payer : Pubkey) (instructions : List Instruction) (tables : List LookupTable)
    (blockhash : Hash) : Except CompileError V0Message := do
  let requests := Requests.merged instructions (some payer)
  let (taken, left) ← requests.takeLookups tables
  let layout := Layout.ofRequests (some payer) left
  let header ← layout.header
  let loaded := LoadedAddresses.join (taken.map Prod.snd)
  let compiled ← Instruction.compileAll (layout.keys ++ loaded.keys) instructions
  return ⟨⟨header, layout.keys, blockhash, compiled⟩, taken.map Prod.fst⟩

end LedgerTx
