import StackLisp.Text.Blank
import StackLisp.Text.Quoted
import StackLisp.Decimal.Printer
import StackLisp.Decimal.Numeral
import StackLisp.Number
import StackLisp.Arity
import StackLisp.Instruction
import StackLisp.Value.Printer
import StackLisp.Value.Equality
import StackLisp.Value.Digest
import StackLisp.Primitive
import StackLisp.Reader
import StackLisp.Settings
import StackLisp.Event
import StackLisp.Namespace
import StackLisp.Frame.Pool
import StackLisp.Store
import StackLisp.Clause.Parse
import StackLisp.Chunk.Verify
import StackLisp.Chunk.TailCalls
import StackLisp.Chunk.Inline
import StackLisp.Chunk.Build
import StackLisp.Encoder
import StackLisp.Machine
import StackLisp.Proofs.Dispatch
import StackLisp.Proofs.TailCalls
import StackLisp.Proofs.Alike
import StackLisp.Proofs.Careful
import StackLisp.Proofs.Reports
import StackLisp.Proofs.Staging
import StackLisp.Proofs.Beside
import StackLisp.Proofs.Nesting
import StackLisp.Proofs.Acceptance
import StackLisp.Proofs.Shortening
import StackLisp.Proofs.Exactness
import StackLisp.Proofs.Shortened
import StackLisp.Proofs.Views
import StackLisp.Proofs.Charts
import StackLisp.Proofs.Flows
import StackLisp.Proofs.Grants
import StackLisp.Proofs.Splicing
import StackLisp.Proofs.Hereditary
import StackLisp.Proofs.Inlining
import StackLisp.Proofs.Building
import StackLisp.Proofs.Compiling
import StackLisp.Proofs.Lambdas
import StackLisp.Proofs.Sound
import StackLisp.Proofs.Data
import StackLisp.Proofs.Sessions
import StackLisp.Proofs.Stability
import StackLisp.Proofs.Intrinsics
import StackLisp.Proofs.Whereabouts
import StackLisp.Proofs.Roles
import StackLisp.Proofs.Neat
import StackLisp.Proofs.Grafts
import StackLisp.Proofs.Minding
import StackLisp.Proofs.Tracing
import StackLisp.Proofs.Coverage
import StackLisp.Proofs.Accounts
import StackLisp.Proofs.Custody
import StackLisp.Proofs.Leases
import StackLisp.Proofs.Conduct
import StackLisp.Proofs.Arms
import StackLisp.Proofs.Passes
import StackLisp.Proofs.Gates
import StackLisp.Proofs.Entrances
import StackLisp.Proofs.Accord
import StackLisp.Proofs.Standing
import StackLisp.Proofs.Templates
import StackLisp.Proofs.Congruence
import StackLisp.Proofs.Heights
import StackLisp.Proofs.Naming
import StackLisp.Proofs.Confinement
import StackLisp.Proofs.Hosting
import StackLisp.Proofs.Endings
import StackLisp.Proofs.Promotion
import StackLisp.Proofs.Ordering
import StackLisp.Proofs.Chronicle
import StackLisp.Proofs.Enclosing
import StackLisp.Proofs.Rereading
import StackLisp.Proofs.Evaluation
