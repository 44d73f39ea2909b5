import LedgerTx.Proofs.AccountTable.Overflow
import LedgerTx.Proofs.Message.Placed

/-! Lookup tables that list no key that may be loaded. Such tables may be long, and may list the payer, signers
and programs; they take nothing, and compiling with them is compiling without lookup tables. Then the second
count of all keys repeats the first, and what fails, fails in the same way. -/

namespace LedgerTx

variable {instructions : List Instruction} {payer : Pubkey} {tables : List LookupTable} {blockhash : Hash}

theorem Requests.takeLookups_of_none_left (h : ∀ key, ¬Demand.LeftToTables payer instructions tables key) :
    (merged instructions (some payer)).takeLookups tables = .ok ([], merged instructions (some payer)) := by
  apply takeLookups_of_not_listed
  intro table htable writable key hkey hlisted
  exact h key (Demand.leftToTables_iff.2 ⟨⟨writable, hkey⟩, table, htable, hlisted⟩)

namespace V0Message

/-- The keys of the table are followed by none that are loaded. -/
theorem compile_of_takeLookups_nil
    (h : (Requests.merged instructions (some payer)).takeLookups tables =
      .ok ([], Requests.merged instructions (some payer))) :
    compile payer instructions tables blockhash =
      (Message.compile instructions (some payer) blockhash).map fun m => ⟨m, []⟩ := by
  have hkeys : (Layout.ofRequests (some payer) (Requests.merged instructions (some payer))).keys ++
      (LoadedAddresses.ofTaken []).keys =
        (Layout.ofRequests (some payer) (Requests.merged instructions (some payer))).keys :=
    List.append_nil _
  rw [compile, h, Message.compile]
  change (_ >>= fun header => Instruction.compileAll (_ ++ (LoadedAddresses.ofTaken []).keys) _ >>= _) = _
  rw [hkeys]
  cases (Layout.ofRequests (some payer) (Requests.merged instructions (some payer))).header with
  | error e => rfl
  | ok header =>
      cases Instruction.compileAll
        (Layout.ofRequests (some payer) (Requests.merged instructions (some payer))).keys instructions with
      | error e => rfl
      | ok compiled => rfl

/-- With tables that are left no key, compiling gives the same message as without tables, with no lookups, or
fails for the same reason. -/
theorem compile_eq_legacy (h : ∀ key, ¬Demand.LeftToTables payer instructions tables key) :
    compile payer instructions tables blockhash =
      (Message.compile instructions (some payer) blockhash).map fun m => ⟨m, []⟩ :=
  compile_of_takeLookups_nil (Requests.takeLookups_of_none_left h)

/-- One table is longer than a byte can name places and starts with the payer; the other lists a signer and a
program. -/
theorem compile_eq_legacy_long :
    let key (n : UInt8) : Pubkey := ⟨List.replicate 32 n, rfl⟩
    let instructions : List Instruction := [⟨key 5, [⟨key 7, true, false⟩, ⟨key 3, false, true⟩], [1]⟩]
    let tables : List LookupTable :=
      [⟨key 20, key 9 :: List.replicate 300 (key 40)⟩, ⟨key 21, [key 7, key 5, key 41]⟩]
    let m : Message := ⟨⟨2, 1, 1⟩, [key 9, key 7, key 3, key 5], Fixed.zero, [⟨3, [1, 2], [1]⟩]⟩
    (∀ other, ¬Demand.LeftToTables (key 9) instructions tables other) ∧
      Message.compile instructions (some (key 9)) Fixed.zero = .ok m ∧
      compile (key 9) instructions tables Fixed.zero = .ok ⟨m, []⟩ := by
  intro key instructions tables m
  have hunlisted : ¬∃ table ∈ tables, key 3 ∈ table.addresses := by
    decide +kernel
  have hnone : ∀ other, ¬Demand.LeftToTables (key 9) instructions tables other := by
    rintro other ⟨hpayer | ⟨ix, hix, hprogram | ⟨account, haccount, rfl⟩⟩, hne, hsigns, hcalls, hlisted⟩
    · exact hne (Option.some.inj hpayer).symm
    · exact hcalls ⟨ix, hix, hprogram⟩
    · cases List.mem_singleton.1 hix
      rcases List.mem_pair.1 haccount with rfl | rfl
      · exact hsigns (Or.inr ⟨_, hix, _, haccount, rfl, rfl⟩)
      · exact hunlisted hlisted
  have hlegacy : Message.compile instructions (some (key 9)) Fixed.zero = .ok m := by
    decide +kernel
  refine ⟨hnone, hlegacy, ?_⟩
  rw [compile_eq_legacy hnone, hlegacy]
  rfl

end V0Message

end LedgerTx
