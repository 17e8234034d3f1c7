import DualIssue.Code.Draft
import DualIssue.Extent
import DualIssue.Pair

set_option autoImplicit false

namespace DualIssue

structure Options where
  latency : Cycle := macLatency
  branchDelay : Bool := true
  deriving DecidableEq, Repr

structure Report where
  extent : Extent
  pairs : Word
  time : Cycle
  snapshot : Option Snapshot
  firstRead : Address
  deriving DecidableEq, Repr

/-- Whether a byte from `first` up to, but not including, `stop` was read. -/
def Report.overlaps (r : Report) (first stop : Address) : Bool :=
  decide (first ≤ r.extent.last + 3 ∧ r.firstRead < stop)

structure Progress where
  draft : Draft
  scoreboard : Scoreboard
  pairs : Word
  issued : List Issue
  deriving DecidableEq, Repr

namespace Progress

def start (latency : Cycle) : Progress := ⟨.empty, .start latency, 0, []⟩

/-- The pair at `a`. It is checked before anything is emitted for it: its registers, its use of Q,
its float results, in this order. Its code has to leave the stack empty. -/
def step (isa : InstructionSet) (m : Memory) (snapshot : Option Snapshot) (p : Progress)
    (a : Address) : Except Stop Progress := do
  let pair := Pair.decode isa m a
  pair.check.mapError .refused
  let opening ← (p.scoreboard.issue a pair.lo pair.hi).mapError .refused
  pair.checkWrites.mapError .refused
  let t := p.scoreboard.time
  let draft ← (p.draft.emit (opening ++ pair.body isa snapshot t)).mapError .fault
  let scoreboard ← (p.scoreboard.retire pair.lo pair.hi).mapError .fault
  if draft.isStackEmpty then
    .ok ⟨draft, scoreboard, p.pairs + 1, p.issued ++ [pair.upperIssue t, pair.lowerIssue t]⟩
  else .error (.refused (.unbalancedStack a))

end Progress

structure Compiled where
  report : Report
  draft : Draft
  issued : List Issue
  deriving DecidableEq, Repr

def Options.delayOf (options : Options) (isa : InstructionSet) (m : Memory) (b : Block)
    (last : Address) : Except Stop BranchDelay :=
  if options.branchDelay then b.branchDelay isa m last else .ok .absent

def compile (options : Options) (isa : InstructionSet) (m : Memory) (b : Block) :
    Except Stop Compiled := do
  let extent := b.extent isa m
  let delay ← options.delayOf isa m b extent.last
  let p ← (b.addresses extent.last).foldlM (Progress.step isa m delay.snapshot?)
    (.start options.latency)
  let draft ← (p.draft.emit (p.scoreboard.finish ++ extent.jumpFixup)).mapError .fault
  let report := {
    extent
    pairs := p.pairs
    time := p.scoreboard.time
    snapshot := delay.snapshot?
    firstRead := if options.branchDelay then b.firstRead extent.last else b.first }
  .ok ⟨report, draft, p.issued⟩

end DualIssue
