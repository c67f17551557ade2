import PolicyGates.Audit.Finding
import PolicyGates.Audit.Hash
import PolicyGates.Audit.Lock
import PolicyGates.Audit.Log
import PolicyGates.Audit.Record
import PolicyGates.Audit.Verification
import PolicyGates.Batch.Order
import PolicyGates.Budget
import PolicyGates.Decimal.Binary
import PolicyGates.Decimal.Layout
import PolicyGates.Decimal.Numeral
import PolicyGates.Decimal.Shortest
import PolicyGates.Decision
import PolicyGates.Digest
import PolicyGates.Evaluation
import PolicyGates.Evidence
import PolicyGates.Failure
import PolicyGates.Gate.Basic
import PolicyGates.Gate.Verdicts
import PolicyGates.Http.Message
import PolicyGates.Http.Service
import PolicyGates.Metrics
import PolicyGates.Pool
import PolicyGates.Pool.Shared
import PolicyGates.Pool.Shift
import PolicyGates.Proofs.Acceptance
import PolicyGates.Proofs.Alone
import PolicyGates.Proofs.Arrangement
import PolicyGates.Proofs.Audit.Alteration
import PolicyGates.Proofs.Audit.Commitment
import PolicyGates.Proofs.Audit.Rearrangement
import PolicyGates.Proofs.Audit.Restart
import PolicyGates.Proofs.Audit.Slices
import PolicyGates.Proofs.Audit.Wire
import PolicyGates.Proofs.Batch.Stability
import PolicyGates.Proofs.Batch.Visits
import PolicyGates.Proofs.Cancellation
import PolicyGates.Proofs.Charges
import PolicyGates.Proofs.Chronology
import PolicyGates.Proofs.Evaluation
import PolicyGates.Proofs.Http.Answers
import PolicyGates.Proofs.Http.Modes
import PolicyGates.Proofs.Http.Pages
import PolicyGates.Proofs.Leniency
import PolicyGates.Proofs.Liveness
import PolicyGates.Proofs.Pool.Order
import PolicyGates.Proofs.Pool.Service
import PolicyGates.Proofs.Refusals
import PolicyGates.Proofs.Rejection
import PolicyGates.Proofs.Scheduler.Attempts
import PolicyGates.Proofs.Scheduler.Quiet
import PolicyGates.Proofs.Settings.Environment
import PolicyGates.Proofs.Signoff
import PolicyGates.Proofs.SingleCheck
import PolicyGates.Proofs.Spending
import PolicyGates.Proofs.Stopping
import PolicyGates.Proofs.Tally
import PolicyGates.Proofs.Trust
import PolicyGates.Proofs.Value.Canonical
import PolicyGates.Proofs.Verdicts
import PolicyGates.Proposal.Basic
import PolicyGates.Proposal.Schema
import PolicyGates.Registry
import PolicyGates.Report
import PolicyGates.Run
import PolicyGates.Scheduler
import PolicyGates.Schema
import PolicyGates.Session
import PolicyGates.Settings.Basic
import PolicyGates.Settings.Environment
import PolicyGates.Settings.Schema
import PolicyGates.Signoff
import PolicyGates.Text.Basic
import PolicyGates.Text.Blank
import PolicyGates.Text.Percent
import PolicyGates.Text.Pieces
import PolicyGates.Text.Quoted
import PolicyGates.Text.Units
import PolicyGates.Time.Clock
import PolicyGates.Time.Delay
import PolicyGates.Time.Instant
import PolicyGates.Value.Arithmetic
import PolicyGates.Value.Basic
import PolicyGates.Value.Canonical
import PolicyGates.Value.Reader
import PolicyGates.Value.Shared
import PolicyGates.Value.Shown
