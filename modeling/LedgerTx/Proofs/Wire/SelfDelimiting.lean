import LedgerTx.Proofs.Wire.Composed

/-! Wire forms say themselves where they end. What a reader makes of some bytes does not depend on what
comes after them, unless it runs out of bytes and says so. Bytes that are accepted are therefore refused when they are
cut short, as there are too few of them, and when others are put behind them, as these are left over. -/

namespace LedgerTx

open Cursor Reader

/-- Cut short the bytes run out, and of what is put behind them all bytes are left over. -/
structure Delimited {α : Type} (decode : Bytes → Except DecodeError α) (bs : Bytes) : Prop where
  cut : ∀ front, front <+: bs → front ≠ bs → decode front = .error .unexpectedEnd
  followed : ∀ more, more ≠ [] → decode (bs ++ more) = .error (.trailingBytes more.length)

theorem Reader.Composed.delimited {α : Type} {reader : Reader α} {bs : Bytes} {a : α} (h : reader.Composed)
    (hread : reader.all bs = .ok a) : Delimited reader.all bs := by
  obtain ⟨d, hok, hend⟩ := all_eq_ok.1 hread
  constructor
  · rintro front ⟨more, rfl⟩ hfront
    have hrest : (start (front ++ more)).rest = (start front).rest ++ more := rfl
    rcases h.isLocal hrest with ⟨houtcome, passed, hm, hd⟩ | ⟨-, hrefuses⟩
    · -- Passing over all of the bytes, the reader has passed over all that are in front.
      rw [read_of_ok hok] at hd
      have hall : front ++ more = passed := by rw [← List.append_nil passed, ← hend]; exact hd.rest
      have hlength := congrArg List.length hm.rest
      have hshort : (start front).rest = front := rfl
      rw [hshort, ← hall, List.length_append, List.length_append] at hlength
      have hnone : more = [] := List.length_eq_zero_iff.1 (by omega)
      rw [hnone, List.append_nil] at hfront
      exact absurd rfl hfront
    · exact all_of_refuses hrefuses
  · intro more hmore
    have hrest : (start (bs ++ more)).rest = (start bs).rest ++ more := rfl
    rcases h.isLocal hrest with ⟨houtcome, passed, hd, hn⟩ | ⟨-, left, hfails⟩
    · rw [read_of_ok hok] at houtcome hd
      have hmoreok := ok_of_read houtcome.symm
      have hall : bs = passed := by rw [← List.append_nil passed, ← hend]; exact hd.rest
      have hleft : ((start (bs ++ more)).read reader).2.rest = more := by
        rw [← hall] at hn
        exact List.append_cancel_left hn.rest.symm
      rw [all_of_ok hmoreok, hleft, if_neg hmore]
    · rw [hok] at hfails
      cases hfails

theorem Wire.delimited_of_decodeAll_eq_ok {α : Type} [Wire α] [ComposedWire α] {bs : Bytes} {a : α}
    (h : decodeAll α bs = .ok a) : Delimited (decodeAll α) bs :=
  ComposedWire.decode_composed.delimited h

theorem V0Message.delimited_of_deserialize_eq_ok {bs : Bytes} {m : V0Message} (h : deserialize bs = .ok m) :
    Delimited deserialize bs :=
  Composed.delimited (Composed.version.bind fun _ => ComposedWire.decode_composed) h

/-- Bytes that are accepted as a message, a transaction or an instruction of any form are refused when they
are cut short, for running out, and when others are put behind them, for these. -/
theorem delimited_of_decodeAll (bs : Bytes) :
    (∀ m : Message, Wire.decodeAll Message bs = .ok m → Delimited (Wire.decodeAll Message) bs) ∧
    (∀ m : V0Message, V0Message.deserialize bs = .ok m → Delimited V0Message.deserialize bs) ∧
    (∀ m : VersionedMessage, Wire.decodeAll VersionedMessage bs = .ok m →
      Delimited (Wire.decodeAll VersionedMessage) bs) ∧
    (∀ t : Transaction, Wire.decodeAll Transaction bs = .ok t → Delimited (Wire.decodeAll Transaction) bs) ∧
    (∀ t : VersionedTransaction, Wire.decodeAll VersionedTransaction bs = .ok t →
      Delimited (Wire.decodeAll VersionedTransaction) bs) ∧
    (∀ instruction : Instruction, Wire.decodeAll Instruction bs = .ok instruction →
      Delimited (Wire.decodeAll Instruction) bs) ∧
    (∀ account : AccountMeta, Wire.decodeAll AccountMeta bs = .ok account →
      Delimited (Wire.decodeAll AccountMeta) bs) := by
  refine ⟨?_, ?_, ?_, ?_, ?_, ?_, ?_⟩
  · exact fun m => Wire.delimited_of_decodeAll_eq_ok
  · exact fun m => V0Message.delimited_of_deserialize_eq_ok
  · exact fun m => Wire.delimited_of_decodeAll_eq_ok
  · exact fun t => Wire.delimited_of_decodeAll_eq_ok
  · exact fun t => Wire.delimited_of_decodeAll_eq_ok
  · exact fun instruction => Wire.delimited_of_decodeAll_eq_ok
  · exact fun account => Wire.delimited_of_decodeAll_eq_ok

/-- A transaction of version 0 with one lookup, and an instruction with one account; each without its last
byte, and with two more. -/
theorem delimited_of_decodeAll_lookup :
    let transaction : Bytes := 1 :: List.replicate 64 7 ++ [0x80, 1, 0, 1, 2] ++ List.replicate 32 1 ++
      List.replicate 32 2 ++ List.replicate 32 3 ++ [1, 1, 2, 0, 2, 3, 9, 8, 7] ++
      1 :: List.replicate 32 4 ++ [1, 5, 0]
    let instruction : Bytes := List.replicate 32 5 ++ [1, 0, 0, 0, 0, 0, 0, 0] ++ List.replicate 32 6 ++
      [1, 0] ++ [2, 0, 0, 0, 0, 0, 0, 0, 9, 8]
    ((∃ t, Wire.decodeAll VersionedTransaction transaction = .ok t) ∧
      Wire.decodeAll VersionedTransaction transaction.dropLast = .error .unexpectedEnd ∧
      Wire.decodeAll VersionedTransaction (transaction ++ [1, 2]) = .error (.trailingBytes 2)) ∧
    (∃ ix, Wire.decodeAll Instruction instruction = .ok ix) ∧
      Wire.decodeAll Instruction instruction.dropLast = .error .unexpectedEnd ∧
      Wire.decodeAll Instruction (instruction ++ [1, 2]) = .error (.trailingBytes 2) := by
  intro transaction instruction
  obtain ⟨-, -, -, -, htransaction, -, -⟩ := delimited_of_decodeAll transaction
  obtain ⟨-, -, -, -, -, hinstruction, -⟩ := delimited_of_decodeAll instruction
  obtain ⟨t, hreadt⟩ : ∃ t, Wire.decodeAll VersionedTransaction transaction = .ok t :=
    Except.exists_eq_ok_of_isOk (by decide +kernel)
  obtain ⟨ix, hreadix⟩ : ∃ ix, Wire.decodeAll Instruction instruction = .ok ix :=
    Except.exists_eq_ok_of_isOk (by decide +kernel)
  have ht := htransaction t hreadt
  have hix := hinstruction ix hreadix
  have hshorter : ∀ (b : UInt8) (bs : Bytes), (b :: bs).dropLast ≠ b :: bs := by
    intro b bs h
    have hlength := congrArg List.length h
    rw [List.length_dropLast, List.length_cons] at hlength
    omega
  exact ⟨⟨⟨t, hreadt⟩, ht.cut _ (List.dropLast_prefix _) (hshorter _ _), ht.followed [1, 2] nofun⟩,
    ⟨ix, hreadix⟩, hix.cut _ (List.dropLast_prefix _) (hshorter _ _), hix.followed [1, 2] nofun⟩

end LedgerTx
