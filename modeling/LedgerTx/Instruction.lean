import LedgerTx.Wire

/-! Instructions: a program, the accounts it is given, and data for it. Before compilation accounts are
named by their keys, with what is asked of them; in a message they are places in its table of keys. An
instruction that stands alone has a wire form of its own, with 64-bit counts. The calls of the system program that
transfers and durable nonces are made of carry its number in four bytes and then its arguments. -/

namespace LedgerTx

structure AccountMeta where
  key : Pubkey
  signer : Bool
  writable : Bool
  deriving DecidableEq

/-- A call of a program, with the accounts by their keys. -/
structure Instruction where
  program : Pubkey
  accounts : List AccountMeta
  data : Bytes
  deriving DecidableEq

/-- A call of a program, with the program and the accounts by their places in a table of keys. -/
structure CompiledInstruction where
  program : UInt8
  accounts : Bytes
  data : Bytes
  deriving DecidableEq

namespace AccountMeta

def flagByte (value : Bool) : UInt8 := if value then 1 else 0

instance : Wire AccountMeta where
  encode account := account.key.bytes ++ [flagByte account.signer, flagByte account.writable]
  decode := do
    let key ← Reader.fixed .pubkey
    let signer ← Reader.bool
    let writable ← Reader.bool
    return ⟨key, signer, writable⟩

end AccountMeta

instance : Wire Instruction where
  encode instruction :=
    instruction.program.bytes ++
      (Bytes.littleEndian 8 instruction.accounts.length ++
        (instruction.accounts.flatMap Wire.encode ++
          (Bytes.littleEndian 8 instruction.data.length ++ instruction.data)))
  decode := do
    let program ← Reader.fixed .pubkey
    let accounts ← Reader.items (← Reader.littleEndian 8) Wire.decode
    let data ← Reader.bytes (← Reader.littleEndian 8)
    return ⟨program, accounts, data⟩

instance : Wire CompiledInstruction where
  encode instruction :=
    instruction.program ::
      (Wire.compactBytes instruction.accounts ++ Wire.compactBytes instruction.data)
  decode := do
    let program ← Reader.byte
    let accounts ← Reader.compactBytes
    let data ← Reader.compactBytes
    return ⟨program, accounts, data⟩

def CompiledInstruction.programKey? (instruction : CompiledInstruction) (keys : List Pubkey) :
    Option Pubkey :=
  keys[instruction.program.toNat]?

namespace SystemProgram

def key : Pubkey := Fixed.zero

/-- The account of recent block hashes, `SysvarRecentB1ockHashes11111111111111111111`. -/
def recentBlockhashes : Pubkey :=
  ⟨[0x06, 0xa7, 0xd5, 0x17, 0x19, 0x2c, 0x56, 0x8e, 0xe0, 0x8a, 0x84, 0x5f, 0x73, 0xd2, 0x97, 0x88,
    0xcf, 0x03, 0x5c, 0x31, 0x45, 0xb2, 0x1a, 0xb3, 0x44, 0xd8, 0x06, 0x2e, 0xa9, 0x40, 0x00, 0x00],
    rfl⟩

/-- The account of rent parameters, `SysvarRent111111111111111111111111111111111`. -/
def rent : Pubkey :=
  ⟨[0x06, 0xa7, 0xd5, 0x17, 0x19, 0x2c, 0x5c, 0x51, 0x21, 0x8c, 0xc9, 0x4c, 0x3d, 0x4a, 0xf1, 0x7f,
    0x58, 0xda, 0xee, 0x08, 0x9b, 0xa1, 0xfd, 0x44, 0xe3, 0xdb, 0xd9, 0x8a, 0x00, 0x00, 0x00, 0x00],
    rfl⟩

/-- The loader of upgradeable programs, `BPFLoaderUpgradeab1e11111111111111111111111`. -/
def upgradeableLoader : Pubkey :=
  ⟨[0x02, 0xa8, 0xf6, 0x91, 0x4e, 0x88, 0xa1, 0xb0, 0xe2, 0x10, 0x15, 0x3e, 0xf7, 0x63, 0xae, 0x2b,
    0x00, 0xc2, 0xb9, 0x3d, 0x16, 0xc1, 0x24, 0xd2, 0xc0, 0x53, 0x7a, 0x10, 0x04, 0x80, 0x00, 0x00],
    rfl⟩

def tag (number : Nat) : Bytes := Bytes.littleEndian 4 number

def advanceNonceTag : Bytes := tag 4

def transfer (source target : Pubkey) (lamports : Nat) : Instruction :=
  ⟨key, [⟨source, true, true⟩, ⟨target, false, true⟩], tag 2 ++ Bytes.littleEndian 8 lamports⟩

/-- Replaces the stored value of a nonce account by its successor; the authority signs. -/
def advanceNonce (nonce authority : Pubkey) : Instruction :=
  ⟨key, [⟨nonce, false, true⟩, ⟨recentBlockhashes, false, false⟩, ⟨authority, true, false⟩],
    advanceNonceTag⟩

def withdrawNonce (nonce authority target : Pubkey) (lamports : Nat) : Instruction :=
  ⟨key,
    [⟨nonce, false, true⟩, ⟨target, false, true⟩, ⟨recentBlockhashes, false, false⟩,
      ⟨rent, false, false⟩, ⟨authority, true, false⟩],
    tag 5 ++ Bytes.littleEndian 8 lamports⟩

end SystemProgram

end LedgerTx
