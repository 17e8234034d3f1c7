import DualIssue.Cache
import DualIssue.Event

set_option autoImplicit false

namespace DualIssue

def Block.extentEvents (isa : InstructionSet) (m : Memory) (b : Block) : List Event :=
  if (b.extent isa m).extended then [.extended (b.last - 4) (b.extent isa m).last] else []

def BranchDelay.events : BranchDelay → List Event
  | .absent => []
  | .waived branch r => [.waived branch r]
  | .needed s => [.delayed s]

/-- A pair is reported when its registers are known to exist. -/
def Progress.events (isa : InstructionSet) (m : Memory) (snapshot : Option Snapshot) :
    Progress → List Address → List Event
  | _, [] => []
  | p, a :: rest =>
    match (Pair.decode isa m a).check with
    | .error _ => []
    | .ok () =>
      .pair a p.scoreboard.time ::
        match p.step isa m snapshot a with
        | .error _ => []
        | .ok p => p.events isa m snapshot rest

def compileEvents (options : Options) (isa : InstructionSet) (m : Memory) (b : Block) : List Event :=
  let last := (b.extent isa m).last
  .started b :: b.extentEvents isa m ++
    match options.delayOf isa m b last with
    | .error _ => []
    | .ok delay =>
      delay.events ++
        (Progress.start options.latency).events isa m delay.snapshot? (b.addresses last)

namespace Cache

def getEvents (c : Cache) (isa : InstructionSet) (m : Memory) (b : Block) : List Event :=
  if c.contains b then []
  else compileEvents c.options isa m b ++
    match compile c.options isa m b with
    | .error (.refused r) => [.refused b r]
    | .error (.fault _) => []
    | .ok _ => if c.isFull then (c.entries.take 1).map (.evicted ·.block) else []

def invalidateEvents (c : Cache) (first stop : Address) : List Event :=
  if (c.stale first stop).isEmpty then [] else [.invalidated (c.stale first stop)]

end Cache

end DualIssue
