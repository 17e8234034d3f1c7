import DualIssue.Code.Machine
import DualIssue.InstructionSet.Rules
import DualIssue.Memory.Dump
import DualIssue.Trace
import DualIssue.Proofs.Lockstep
import DualIssue.Proofs.Aliasing
import DualIssue.Proofs.Discipline
import DualIssue.Proofs.RegionChoice
import DualIssue.Proofs.Runnable
import DualIssue.Proofs.ClockShift
import DualIssue.Proofs.ResultTiming
import DualIssue.Proofs.Scratch
import DualIssue.Proofs.Fifo
import DualIssue.Proofs.Refusals
import DualIssue.Proofs.CriticalPath
import DualIssue.Proofs.Schedule
import DualIssue.Proofs.CutBlock
import DualIssue.Proofs.SnapshotEffect
import DualIssue.Proofs.Invalidation
import DualIssue.Proofs.Structured
import DualIssue.Proofs.ExactArithmetic
import DualIssue.Proofs.StoredMemory
import DualIssue.Proofs.LastStore
import DualIssue.Proofs.Listing
