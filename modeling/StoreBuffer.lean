import StoreBuffer.Host.Recorded
import StoreBuffer.Search.Scripts
import StoreBuffer.Session.ScriptedGuest
import StoreBuffer.Proofs.Memory.Image
import StoreBuffer.Proofs.Buffer.Forwarding
import StoreBuffer.Proofs.Buffer.Prefix
import StoreBuffer.Proofs.Host.Image
import StoreBuffer.Proofs.Machine.Run
import StoreBuffer.Proofs.Reference.Machine
import StoreBuffer.Proofs.Machine.Draining
import StoreBuffer.Proofs.Machine.Operations
import StoreBuffer.Proofs.Machine.Soundness
import StoreBuffer.Proofs.Reference.Sequential
import StoreBuffer.Proofs.Machine.Lines
import StoreBuffer.Proofs.Machine.Faults
import StoreBuffer.Proofs.Reference.Kept
import StoreBuffer.Proofs.Machine.Swap
import StoreBuffer.Proofs.Reference.Debt
import StoreBuffer.Proofs.Machine.Visibility
import StoreBuffer.Proofs.Machine.Answers
import StoreBuffer.Proofs.Reference.Programs
import StoreBuffer.Proofs.Machine.Lagging
import StoreBuffer.Proofs.Machine.Issues
import StoreBuffer.Proofs.Machine.Completeness
import StoreBuffer.Proofs.Search.Exploration
import StoreBuffer.Proofs.Table.Departure
import StoreBuffer.Proofs.Machine.Departures
import StoreBuffer.Proofs.Machine.Pushing
import StoreBuffer.Proofs.Machine.Reachable
import StoreBuffer.Proofs.Machine.Shape
import StoreBuffer.Proofs.Table.Ranks
import StoreBuffer.Proofs.Table.Sequencing
import StoreBuffer.Proofs.Table.Arrivals
import StoreBuffer.Proofs.Machine.TableRuns
import StoreBuffer.Proofs.Reference.Flat
import StoreBuffer.Proofs.Machine.SingleThread
import StoreBuffer.Proofs.Reference.WriteThrough
import StoreBuffer.Proofs.Machine.WriteThrough
import StoreBuffer.Proofs.Table.Unfenced
import StoreBuffer.Proofs.Host.Flags
import StoreBuffer.Proofs.Host.Congruence
import StoreBuffer.Proofs.Machine.Lockstep
import StoreBuffer.Proofs.Machine.Unfenced
import StoreBuffer.Proofs.Machine.Fences
import StoreBuffer.Proofs.Machine.Transfer
import StoreBuffer.Proofs.Host.Watched
import StoreBuffer.Proofs.Reference.Direct
import StoreBuffer.Proofs.Machine.Masking
import StoreBuffer.Proofs.Session.Effect
import StoreBuffer.Proofs.Session.Protocol
import StoreBuffer.Proofs.Machine.Forwarding
import StoreBuffer.Proofs.Table.Portions
import StoreBuffer.Proofs.Machine.Resolution
import StoreBuffer.Proofs.Machine.Answered
import StoreBuffer.Proofs.Machine.Observation
import StoreBuffer.Proofs.Machine.Repetition
import StoreBuffer.Proofs.Machine.Foreign
import StoreBuffer.Proofs.Machine.Eviction
import StoreBuffer.Proofs.Machine.Capacity
import StoreBuffer.Proofs.Machine.ReadBack
import StoreBuffer.Proofs.Machine.Shrinking
import StoreBuffer.Proofs.Machine.Numbers
import StoreBuffer.Proofs.Machine.Refusals
import StoreBuffer.Proofs.Table.Closing
import StoreBuffer.Proofs.Table.Removal
import StoreBuffer.Proofs.Machine.Cleanup
import StoreBuffer.Proofs.Host.Heap
import StoreBuffer.Proofs.Machine.Slots
import StoreBuffer.Proofs.Machine.Exhaustion
import StoreBuffer.Proofs.Buffer.Coverage
import StoreBuffer.Proofs.Host.Bytewise
