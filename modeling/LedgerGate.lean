import LedgerGate.Config.Sources
import LedgerGate.Service
import LedgerGate.Proofs.Decimal.Order
import LedgerGate.Proofs.Decimal.Reading
import LedgerGate.Proofs.Decimal.Sum
import LedgerGate.Proofs.Guards
import LedgerGate.Proofs.Intent.Identity
import LedgerGate.Proofs.Intent.RoundTrip
import LedgerGate.Proofs.Json.RoundTrip
import LedgerGate.Proofs.Ledger.AfterFailure
import LedgerGate.Proofs.Ledger.Agreement
import LedgerGate.Proofs.Ledger.Atomicity
import LedgerGate.Proofs.Ledger.Conclusion
import LedgerGate.Proofs.Ledger.HalfFounded
import LedgerGate.Proofs.Ledger.Histories
import LedgerGate.Proofs.Ledger.Overtaking
import LedgerGate.Proofs.Ledger.Reload
import LedgerGate.Proofs.Ledger.Tampering
import LedgerGate.Proofs.Ledger.Undo
import LedgerGate.Proofs.Log.Reading
import LedgerGate.Proofs.Merkle.Binding
import LedgerGate.Proofs.PostConditions
import LedgerGate.Proofs.Session
import LedgerGate.Proofs.Solver.Budget
import LedgerGate.Proofs.Solver.Refutation
import LedgerGate.Proofs.Solver.Words
import LedgerGate.Proofs.Transition
import LedgerGate.Proofs.Unanimity
import LedgerGate.Proofs.Verifier.Derivation
import LedgerGate.Proofs.Verifier.Gating
import LedgerGate.Proofs.Verifier.Secrets
import LedgerGate.Proofs.Verifier.Verdicts
