import LedgerTx.Proofs.Message.Placed
import LedgerTx.Proofs.Nonce
import LedgerTx.Transaction.Versioned

/-! Nonces in messages that are compiled with lookup tables. Whether the nonce is written is asked of all places, those
of loaded keys included, but keys are named only from the message itself. The two agree as long as the nonce is in
the message. It may be left to a lookup table instead: then the call that advances it is found all the same, since
what is left to tables is not called, and no key is named for it. -/

namespace LedgerTx

theorem CompiledInstruction.Denotes.nonceKey?_of_append {compiled : CompiledInstruction}
    {keys loaded : List Pubkey} {nonce authority : Pubkey}
    (h : compiled.Denotes (keys ++ loaded) (SystemProgram.advanceNonce nonce authority))
    (hnodup : (keys ++ loaded).Nodup) :
    compiled.nonceKey? keys = if nonce ∈ keys then some nonce else none := by
  obtain ⟨i, hfirst, hkey⟩ := h.exists_firstAccount
  rw [nonceKey?, hfirst, Option.bind_some]
  obtain ⟨-, hkey⟩ | ⟨hi, hkey⟩ := List.getElem?_append_cases hkey
  · rw [if_pos (List.mem_of_getElem? hkey), hkey]
  · have hmissing : nonce ∉ keys := fun hmem =>
      (List.nodup_append'.1 hnodup).2.2 hmem (List.mem_of_getElem? hkey)
    rw [if_neg hmissing, List.getElem?_eq_none hi]

namespace V0Message

variable {instructions : List Instruction} {payer key nonce authority : Pubkey} {tables : List LookupTable}
  {blockhash : Hash} {m : V0Message} {taken : List (TableLookup × LoadedAddresses)} {left : Requests}

/-- Of the keys that instructions name, the message lacks those that are left to tables. -/
theorem not_mem_accountKeys_iff (h : compile payer instructions tables blockhash = .ok m)
    (hnames : Demand.Names instructions (some payer) key) :
    key ∉ m.accountKeys ↔ Demand.LeftToTables payer instructions tables key := by
  obtain ⟨taken, left, htaken, hassembled⟩ := takeLookups_of_compile h
  have hascending := Requests.ascending_merged instructions (some payer)
  obtain ⟨rfl, -, -⟩ := Requests.takeLookups_eq_ok hascending htaken
  rw [hassembled.accountKeys_perm.mem_iff, hascending.mem_keys_unlisted, Requests.mem_keys_merged,
    and_iff_right hnames, not_not, Demand.leftToTables_iff]

/-- The program is called, so that its place is one of the message whatever the tables take. -/
theorem Assembled.programKey?_eq (h : m.Assembled payer instructions tables taken left)
    {compiled : CompiledInstruction} {instruction : Instruction} (hcompiled : compiled ∈ m.instructions)
    (hdenotes : compiled.Denotes (m.accountKeys ++ (LoadedAddresses.ofTaken taken).keys) instruction) :
    compiled.programKey? m.accountKeys = some instruction.program := by
  have hplace : compiled.program.toNat < m.accountKeys.length := h.program_toNat_lt hcompiled
  rw [← hdenotes.program, CompiledInstruction.programKey?, CompiledInstruction.programKey?,
    List.getElem?_append_left hplace]

/-- A message that is compiled to advance a nonce has the call in front. -/
theorem nonceInstruction?_of_compile
    (h : compile payer (SystemProgram.advanceNonce nonce authority :: instructions) tables blockhash = .ok m) :
    ∃ first : CompiledInstruction,
      (VersionedMessage.v0 m).nonceInstruction? =
        (if Message.WritesNonce instructions nonce m.toMessage then some first else none) ∧
      first.nonceKey? m.accountKeys = if nonce ∈ m.accountKeys then some nonce else none := by
  obtain ⟨taken, left, hassembled⟩ := assembled_of_compile h
  obtain ⟨first, hhead, hfirst⟩ := hassembled.denotes.exists_getElem? List.getElem?_cons_zero
  have hprogram := hassembled.programKey?_eq (List.mem_of_getElem? hhead) hfirst
  obtain ⟨i, hplace, hkey⟩ := hfirst.exists_firstAccount
  rw [← List.head?_eq_getElem?] at hhead
  refine ⟨first, ?_, hfirst.nonceKey?_of_append hassembled.nodup_keys⟩
  have hadvances : first.advancesNonce m.accountKeys m.isMaybeWritable = true ↔
      Message.WritesNonce instructions nonce m.toMessage := by
    rw [CompiledInstruction.advancesNonce_eq_isWritable hprogram hfirst.data hplace,
      hassembled.isMaybeWritable_iff hkey, and_iff_right (Demand.writes_advanceNonce _ _ _ _),
      Message.writesNonce_iff authority]
  exact (nonceInstructionOf?_of_head hhead).trans (if_congr hadvances rfl rfl)

/-- If the call that advances a nonce is found in a transaction of a compiled message, the nonce is named for it as
long as the message has it, and no key is named if the nonce is left to a table. The call is found just if the
message writes the nonce, and so always if the nonce is left to a table. -/
theorem nonceKey_of_compile {t : VersionedTransaction} (ht : t.message = .v0 m)
    (h : compile payer (SystemProgram.advanceNonce nonce authority :: instructions) tables blockhash = .ok m) :
    (∀ found, t.nonceInstruction? = some found →
      found.nonceKey? t.keys = if nonce ∈ m.accountKeys then some nonce else none) ∧
    (nonce ∉ m.accountKeys ↔
      Demand.LeftToTables payer (SystemProgram.advanceNonce nonce authority :: instructions) tables nonce) ∧
    (t.nonceInstruction?.isSome = true ↔ Message.WritesNonce instructions nonce m.toMessage) ∧
    (nonce ∉ m.accountKeys → t.nonceInstruction?.isSome = true) := by
  obtain ⟨first, hfound, hnamed⟩ := nonceInstruction?_of_compile h
  have hleft : nonce ∉ m.accountKeys ↔
      Demand.LeftToTables payer (SystemProgram.advanceNonce nonce authority :: instructions) tables nonce :=
    not_mem_accountKeys_iff h (Demand.Writes.names (Demand.writes_advanceNonce _ _ _ _))
  have hwrites : t.nonceInstruction?.isSome = true ↔ Message.WritesNonce instructions nonce m.toMessage := by
    rw [VersionedTransaction.nonceInstruction?, ht, hfound]
    split
    · rename_i hwritten
      exact iff_of_true rfl hwritten
    · rename_i hunwritten
      exact iff_of_false Bool.false_ne_true hunwritten
  refine ⟨?_, hleft, hwrites, ?_⟩
  · intro found hsome
    rw [VersionedTransaction.nonceInstruction?, ht, hfound, Option.ite_none_right_eq_some] at hsome
    obtain ⟨-, heq⟩ := hsome
    obtain rfl : first = found := Option.some.inj heq
    rw [VersionedTransaction.keys, ht]
    exact hnamed
  · intro hmissing
    rw [hwrites, Message.writesNonce_iff authority]
    exact Or.inl (hleft.1 hmissing).not_calls

/-- A table lists the nonce. It is named if it is the payer's as well, and else only the call is found. -/
theorem nonceKey_of_compile_listed :
    let key (n : UInt8) : Pubkey := ⟨List.replicate 32 n, rfl⟩
    let tables : List LookupTable := [⟨key 20, [key 9]⟩]
    let paying : V0Message :=
      ⟨⟨⟨2, 1, 2⟩, [key 9, key 7, SystemProgram.key, SystemProgram.recentBlockhashes], Fixed.zero,
        [⟨2, [0, 3, 1], SystemProgram.advanceNonceTag⟩]⟩, []⟩
    let loading : V0Message :=
      ⟨⟨⟨1, 0, 2⟩, [key 7, SystemProgram.key, SystemProgram.recentBlockhashes], Fixed.zero,
        [⟨1, [3, 2, 0], SystemProgram.advanceNonceTag⟩]⟩, [⟨key 20, [0], []⟩]⟩
    (compile (key 9) [SystemProgram.advanceNonce (key 9) (key 7)] tables Fixed.zero = .ok paying ∧
      ∃ found, VersionedTransaction.nonceInstruction? ⟨[], .v0 paying⟩ = some found ∧
        found.nonceKey? paying.accountKeys = some (key 9)) ∧
    (compile (key 7) [SystemProgram.advanceNonce (key 9) (key 7)] tables Fixed.zero = .ok loading ∧
      ∃ found, VersionedTransaction.nonceInstruction? ⟨[], .v0 loading⟩ = some found ∧
        found.nonceKey? loading.accountKeys = none) := by
  intro key tables paying loading
  have hpaying : compile (key 9) [SystemProgram.advanceNonce (key 9) (key 7)] tables Fixed.zero = .ok paying := by
    decide +kernel
  have hloading : compile (key 7) [SystemProgram.advanceNonce (key 9) (key 7)] tables Fixed.zero = .ok loading := by
    decide +kernel
  obtain ⟨hpays, -, hwrites, -⟩ := nonceKey_of_compile (t := ⟨[], .v0 paying⟩) rfl hpaying
  obtain ⟨hloads, -, -, hfinds⟩ := nonceKey_of_compile (t := ⟨[], .v0 loading⟩) rfl hloading
  obtain ⟨first, hfirst⟩ := Option.isSome_iff_exists.1 (hwrites.2 (by decide))
  obtain ⟨second, hsecond⟩ := Option.isSome_iff_exists.1 (hfinds (by decide))
  exact ⟨⟨hpaying, first, hfirst, (hpays first hfirst).trans (if_pos (by decide))⟩,
    hloading, second, hsecond, (hloads second hsecond).trans (if_neg (by decide))⟩

/-- Where a table lists the nonce, the call that advances it may be found without a key to name. -/
theorem exists_found_not_named :
    let key (n : UInt8) : Pubkey := ⟨List.replicate 32 n, rfl⟩
    let first : CompiledInstruction := ⟨1, [3, 2, 0], SystemProgram.advanceNonceTag⟩
    let m : V0Message :=
      ⟨⟨⟨1, 0, 2⟩, [key 7, SystemProgram.key, SystemProgram.recentBlockhashes], Fixed.zero, [first]⟩,
        [⟨key 20, [0], []⟩]⟩
    let t : VersionedTransaction := ⟨[Fixed.zero], .v0 m⟩
    compile (key 7) [SystemProgram.advanceNonce (key 9) (key 7)] [⟨key 20, [key 9]⟩] Fixed.zero = .ok m ∧
      t.nonceInstruction? = some first ∧ first.nonceKey? t.keys = none := by
  decide +kernel

end V0Message

end LedgerTx
