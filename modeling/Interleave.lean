import Interleave.Main
import Interleave.Data.Codec
import Interleave.Dispatcher
import Interleave.Node.Rehearsal
import Interleave.Registry.Word
import Interleave.Sample.Script
import Interleave.Proofs.Clock
import Interleave.Proofs.Ascending
import Interleave.Proofs.Lattice
import Interleave.Proofs.Layout
import Interleave.Proofs.Step
import Interleave.Proofs.Desk
import Interleave.Proofs.Confined
import Interleave.Proofs.Locality
import Interleave.Proofs.Reorder
import Interleave.Proofs.Reduction
import Interleave.Proofs.Regular
import Interleave.Proofs.Chart
import Interleave.Proofs.Exploration
import Interleave.Proofs.Search
import Interleave.Proofs.Replay
import Interleave.Proofs.Marks
import Interleave.Proofs.Coverage
import Interleave.Proofs.Change
import Interleave.Proofs.Reached
import Interleave.Proofs.Traffic
import Interleave.Proofs.Conservation
import Interleave.Proofs.Bookkeeping
import Interleave.Proofs.CutShort
import Interleave.Proofs.Isolation
import Interleave.Proofs.Links
import Interleave.Proofs.Splits
import Interleave.Proofs.Balance
import Interleave.Proofs.Turn
import Interleave.Proofs.Silence
import Interleave.Proofs.Candidates
import Interleave.Proofs.Conduct
import Interleave.Proofs.Synchrony
import Interleave.Proofs.Peace
import Interleave.Proofs.Canonical
import Interleave.Proofs.Viable
import Interleave.Proofs.Budget
import Interleave.Proofs.Drain
import Interleave.Proofs.Causality
import Interleave.Proofs.Stamps
import Interleave.Proofs.Descent
import Interleave.Proofs.Counters
import Interleave.Proofs.Headroom
import Interleave.Proofs.Overflow
import Interleave.Proofs.Served
import Interleave.Proofs.Errands
import Interleave.Proofs.Echo
import Interleave.Proofs.Upkeep
import Interleave.Proofs.Plan
import Interleave.Proofs.Route
import Interleave.Proofs.Shares
import Interleave.Proofs.Progress
import Interleave.Proofs.Components
import Interleave.Proofs.Reversal
import Interleave.Proofs.LogBound
import Interleave.Proofs.Broadcast
import Interleave.Proofs.Scene
import Interleave.Proofs.Closing
import Interleave.Proofs.Reads
import Interleave.Proofs.Register
import Interleave.Proofs.Partition
import Interleave.Proofs.Crash
import Interleave.Proofs.Exchange
import Interleave.Proofs.Barrier
