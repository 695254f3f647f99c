import DurableLog.Log.Run
import DurableLog.Main
import DurableLog.Session.Run
import DurableLog.Proofs.DroppedWriters
import DurableLog.Proofs.Refinement
import DurableLog.Proofs.Roundtrip.Canonical
import DurableLog.Proofs.Reading
import DurableLog.Proofs.Recovery
import DurableLog.Proofs.Deeds
import DurableLog.Proofs.Sequence
import DurableLog.Proofs.Origins
import DurableLog.Proofs.Linearization
import DurableLog.Proofs.FailingFile
import DurableLog.Proofs.FailedCalls
import DurableLog.Proofs.Ballot
import DurableLog.Proofs.Reopening
import DurableLog.Proofs.BatchSize
import DurableLog.Proofs.CutFile
import DurableLog.Proofs.Timestamps
import DurableLog.Proofs.Inspecting
import DurableLog.Proofs.CommitWaits
import DurableLog.Proofs.CommitChannel
import DurableLog.Proofs.Damage
import DurableLog.Proofs.Splitting
import DurableLog.Proofs.EntriesComeBack
import DurableLog.Proofs.FailedOpen
import DurableLog.Proofs.LastWriter
import DurableLog.Proofs.Position
import DurableLog.Proofs.ReadBack
import DurableLog.Proofs.SyncWindow
import DurableLog.Proofs.CommitReports
