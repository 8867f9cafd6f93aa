import Superstep.Table.Cursor
import Superstep.Builder
import Superstep.Pipeline
import Superstep.Statement.Json
import Superstep.Block.Json
import Superstep.Proofs.Keeps
import Superstep.Proofs.Lookup
import Superstep.Proofs.Splice
import Superstep.Proofs.Valid
import Superstep.Proofs.SpliceValid
import Superstep.Proofs.Rewire
import Superstep.Proofs.Trees
import Superstep.Proofs.DetectionSteps
import Superstep.Proofs.Visit
import Superstep.Proofs.Registration
import Superstep.Proofs.AppendNew
import Superstep.Proofs.Reached
import Superstep.Proofs.Survey
import Superstep.Proofs.Detected
import Superstep.Proofs.SplitPass
import Superstep.Proofs.SendReceive
import Superstep.Proofs.Paths
import Superstep.Proofs.Verdict
import Superstep.Proofs.Mirrored
import Superstep.Proofs.Edits
import Superstep.Proofs.Obstacle
import Superstep.Proofs.Reorder
import Superstep.Proofs.Issued
import Superstep.Proofs.BlockIds
import Superstep.Proofs.Built
import Superstep.Proofs.Session
import Superstep.Proofs.Likeness
import Superstep.Proofs.Parallel
import Superstep.Proofs.Schedule
import Superstep.Proofs.Quiet
import Superstep.Proofs.Sound
import Superstep.Proofs.Transparent
import Superstep.Proofs.FlagText
import Superstep.Proofs.RoundTrip
import Superstep.Proofs.Senders
import Superstep.Proofs.Marks
import Superstep.Proofs.Effect
import Superstep.Proofs.Settled
import Superstep.Proofs.Repeat
import Superstep.Proofs.Itinerary
import Superstep.Proofs.Roles
import Superstep.Proofs.Enrolled
import Superstep.Proofs.Offence
import Superstep.Proofs.Harmless
import Superstep.Proofs.DepthFirst
import Superstep.Proofs.WalkOrder
import Superstep.Proofs.SplitCall
import Superstep.Proofs.Tour
import Superstep.Proofs.Identities
import Superstep.Proofs.Interning
import Superstep.Proofs.Legible
import Superstep.Proofs.Outline
import Superstep.Proofs.BothEnds
import Superstep.Proofs.Presence
