import IntervalHdl.Circuit.Builder
import IntervalHdl.Pass
import IntervalHdl.Serial.Decode
import IntervalHdl.Proofs.Traversal
import IntervalHdl.Proofs.Typing.Results
import IntervalHdl.Proofs.Typing.Bodies
import IntervalHdl.Proofs.Typing.Skeleton
import IntervalHdl.Proofs.Typing.Ranges
import IntervalHdl.Proofs.Typing.Values
import IntervalHdl.Proofs.IntervalFreedom
import IntervalHdl.Proofs.Lowering.NoSurvivors
import IntervalHdl.Proofs.Removal.Verification
import IntervalHdl.Proofs.Alignment.Points
import IntervalHdl.Proofs.Alignment.Coherence
import IntervalHdl.Proofs.Alignment.Storage
import IntervalHdl.Proofs.Refinement.Circuits
import IntervalHdl.Proofs.Removal.ReadBits
import IntervalHdl.Proofs.Counting
import IntervalHdl.Proofs.Removal.Identity
import IntervalHdl.Proofs.Lowering.Success
import IntervalHdl.Proofs.Removal.Interface
import IntervalHdl.Proofs.Removal.InputContract
import IntervalHdl.Proofs.Nodes
import IntervalHdl.Proofs.Removal.Ledger
import IntervalHdl.Proofs.Serial.RoundTrip
import IntervalHdl.Proofs.Removal.Independence
import IntervalHdl.Proofs.Removal.WidthWrap
import IntervalHdl.Proofs.Alignment.Idempotence
import IntervalHdl.Proofs.Removal.LeastChecks
import IntervalHdl.Proofs.Removal.Rescaling
import IntervalHdl.Proofs.Removal.Saturation
import IntervalHdl.Proofs.Alignment.Insertions
import IntervalHdl.Proofs.Lowering.Violations
import IntervalHdl.Proofs.Removal.Casts
import IntervalHdl.Proofs.Removal.LeastWidth
import IntervalHdl.Proofs.Typing.References
import IntervalHdl.Proofs.Lowering.Components
import IntervalHdl.Proofs.Lowering.Projections
import IntervalHdl.Proofs.Removal.FirstSurvivor
import IntervalHdl.Proofs.Typing.UnknownWidths
import IntervalHdl.Proofs.Removal.Log
import IntervalHdl.Proofs.Text.Bounds
import IntervalHdl.Proofs.Removal.LeastLiterals
