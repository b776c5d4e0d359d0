import ViewMaintenance.Document.Data
import ViewMaintenance.Engine.Attempts
import ViewMaintenance.Engine.Concurrent
import ViewMaintenance.Engine.Run
import ViewMaintenance.History
import ViewMaintenance.Store.Interleaving
import ViewMaintenance.View.Image
import ViewMaintenance.Text.Utf8
import ViewMaintenance.Proofs.Store.Fragments
import ViewMaintenance.Proofs.Heap
import ViewMaintenance.Proofs.Store.Scan
import ViewMaintenance.Proofs.Store.Compaction
import ViewMaintenance.Proofs.Store.ViewTable
import ViewMaintenance.Proofs.Store.Batches
import ViewMaintenance.Proofs.View.Image
import ViewMaintenance.Proofs.Row.Agreement
import ViewMaintenance.Proofs.View.Changes
import ViewMaintenance.Proofs.View.Existence
import ViewMaintenance.Proofs.View.Transition
import ViewMaintenance.Proofs.View.Evolution
import ViewMaintenance.Proofs.View.Promotion
import ViewMaintenance.Proofs.Engine.Step
import ViewMaintenance.Proofs.Engine.Run
import ViewMaintenance.Proofs.View.Withdrawal
import ViewMaintenance.Proofs.Engine.Consistency
import ViewMaintenance.Proofs.Engine.Partition
import ViewMaintenance.Proofs.Sequencer
import ViewMaintenance.Proofs.Sequencer.Tickets
import ViewMaintenance.Proofs.Engine.Serializability
import ViewMaintenance.Proofs.Engine.Flush
import ViewMaintenance.Proofs.Store.Reads
import ViewMaintenance.Proofs.Engine.Backing
import ViewMaintenance.Proofs.Engine.Replay
import ViewMaintenance.Proofs.Engine.Attempts
import ViewMaintenance.Proofs.Engine.Exclusion
import ViewMaintenance.Proofs.Engine.Retry
import ViewMaintenance.Engine.InPlace
import ViewMaintenance.Proofs.Engine.Inspection
import ViewMaintenance.Proofs.Engine.Refusal
import ViewMaintenance.Proofs.Engine.Deletion
import ViewMaintenance.Proofs.Engine.Repetition
import ViewMaintenance.Proofs.View.Deletion
import ViewMaintenance.Proofs.Engine.RowByRow
import ViewMaintenance.Proofs.View.Scope
import ViewMaintenance.Proofs.Engine.Columns
import ViewMaintenance.Proofs.Engine.Untouched
import ViewMaintenance.Proofs.View.Projection
import ViewMaintenance.Proofs.Document.RoundTrip
import ViewMaintenance.Proofs.Store.BrokenScan
import ViewMaintenance.Proofs.Engine.BrokenScan
import ViewMaintenance.Proofs.Store.KeptRows
