import DualIssue.Block
import DualIssue.InstructionSet
import DualIssue.Memory

set_option autoImplicit false

namespace DualIssue

structure Extent where
  last : Address
  extended : Bool
  deriving DecidableEq, Repr

/-- Whether the last pair of the block is a branch whose delay slot is missing. With an immediate
in its lower half the pair is no branch. -/
def Block.endsInBranch (isa : InstructionSet) (m : Memory) (b : Block) : Bool :=
  !isImmediateLoad (m.word b.last) &&
    isa.branch (b.last - 4) (m.word (b.last - 4)) == .delayed

def Block.extent (isa : InstructionSet) (m : Memory) (b : Block) : Extent :=
  if b.endsInBranch isa m then ⟨b.last + 8, true⟩ else ⟨b.last, false⟩

theorem Block.toNat_extent_last (isa : InstructionSet) (m : Memory) (b : Block) :
    (b.extent isa m).last.toNat = b.last.toNat + if b.endsInBranch isa m then 8 else 0 := by
  by_cases h : b.endsInBranch isa m
  · simp [extent, h, b.toNat_last_add]
  · simp [extent, h]

/-- With the delay slot already run, and no jump pending, execution goes on behind it. -/
def Extent.jumpFixup (e : Extent) : Code :=
  if e.extended then
    [.const noJump, .push .delayedJump, .enter .eq, .const (e.last + 4), .pull .delayedJump, .leave]
  else []

end DualIssue
