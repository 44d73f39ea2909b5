import LedgerTx.DerivedAddress
import LedgerTx.Json.Form
import LedgerTx.Transaction.Signing
import LedgerTx.Transaction.Versioned
import LedgerTx.Proofs.Wire.CompactLength
import LedgerTx.Proofs.Wire.Exact
import LedgerTx.Proofs.Wire.Formats
import LedgerTx.Proofs.Wire.RoundTrip
import LedgerTx.Proofs.AccountTable.Layout
import LedgerTx.Proofs.AccountTable.Index
import LedgerTx.Proofs.Message.Canonical
import LedgerTx.Proofs.AccountTable.Lookups
import LedgerTx.Proofs.Message.Resolved
import LedgerTx.Proofs.Transaction.Slots
import LedgerTx.Proofs.SignatureScheme
import LedgerTx.Proofs.Transaction.Verified
import LedgerTx.Proofs.Transaction.Runs
import LedgerTx.Proofs.Transaction.Distribution
import LedgerTx.Proofs.Message.Reread
import LedgerTx.Proofs.Wire.Composed
import LedgerTx.Proofs.Wire.SelfDelimiting
import LedgerTx.Proofs.Wire.FirstByte
import LedgerTx.Proofs.Message.Sane
import LedgerTx.Proofs.Transaction.AtOnce
import LedgerTx.Proofs.Message.Carried
import LedgerTx.Proofs.Message.Placed
import LedgerTx.Proofs.Base58
import LedgerTx.Proofs.Fixed.Text
import LedgerTx.Proofs.Json.Model
import LedgerTx.Proofs.AccountTable.Counts
import LedgerTx.Proofs.AccountTable.Lengths
import LedgerTx.Proofs.Message.Refused
import LedgerTx.Proofs.AccountTable.Overflow
import LedgerTx.Proofs.Message.Loading
import LedgerTx.Proofs.Message.Acceptable
import LedgerTx.Proofs.Message.Unloaded
import LedgerTx.Proofs.Message.Demanded
import LedgerTx.Proofs.Transaction.OneCall
import LedgerTx.Proofs.Transaction.Verdicts
import LedgerTx.Proofs.Transaction.Replaced
import LedgerTx.Proofs.Transaction.Matching
import LedgerTx.Proofs.Nonce
import LedgerTx.Proofs.Nonce.Loaded
import LedgerTx.Proofs.DerivedAddress
import LedgerTx.Proofs.Wire.Standalone
import LedgerTx.Proofs.Wire.Cursor
import LedgerTx.Proofs.Message.Queries
import LedgerTx.Proofs.Message.Programs
import LedgerTx.Proofs.AccountTable.Outcome
import LedgerTx.Proofs.Transaction.Converted
