import DualIssue.Block
import DualIssue.InstructionSet
import DualIssue.Memory

/-!
Conditional branches that see an old register. The branch that ends a block does not see what the
instruction just before it wrote to an integer register, but what the register held when the
fourth pair before the branch issued. The old value is saved there and swapped in around the branch.
-/

set_option autoImplicit false

namespace DualIssue

def snapshotDistance : Word := 4

structure Snapshot where
  reg : Register
  /-- The pair before which the register is saved. -/
  saveAt : Address
  /-- The pair whose lower half sees the saved value. -/
  useAt : Address
  deriving DecidableEq, Repr

namespace Snapshot

def save (s : Snapshot) (a : Address) : Code :=
  if a = s.saveAt then Code.move .savedInt (.vi s.reg) else []

def swapIn (s : Snapshot) (a : Address) : Code :=
  if a = s.useAt then Code.move .savedIntTemp (.vi s.reg) ++ Code.move (.vi s.reg) .savedInt else []

def swapOut (s : Snapshot) (a : Address) : Code :=
  if a = s.useAt then Code.move (.vi s.reg) .savedIntTemp else []

end Snapshot

inductive BranchDelay where
  | absent
  /-- It would see an old register, but ends a counting loop. -/
  | waived (branch : Address) (reg : Register)
  | needed (snapshot : Snapshot)
  deriving DecidableEq, Repr

def BranchDelay.snapshot? : BranchDelay → Option Snapshot
  | .needed s => some s
  | _ => none

namespace Block

/-- The branch before the delay slot at the end, and the register in which it would see an old
value: one that the lower instruction before the branch computes and the branch reads. That
instruction may stand before the block. -/
def staleRead (isa : InstructionSet) (m : Memory) (b : Block) (last : Address) :
    Except Fault (Option (Address × Register)) :=
  if last - 4 < b.first + 8 then .ok none
  else do
    let branch := last - 12
    let opcode ← m.fetch branch
    let prior := isa.effects (branch - 8) (m.word (branch - 8))
    .ok <|
      if isConditionalBranch opcode ∧ 8 ≤ branch ∧ prior.destI ≠ 0 ∧ ¬prior.flagResult ∧
          (isa.effects branch opcode).readsInt prior.destI then
        some (branch, prior.destI)
      else none

/-- Four pairs and a delay slot, where every lower instruction writes the register except the
branch, which goes back to the start. Such a loop counts with the register and has to see its
current value. -/
def isCountingLoop (isa : InstructionSet) (m : Memory) (b : Block) (last : Address) (r : Register) :
    Except Refusal Bool :=
  let branch := b.first + 24
  if (last - b.first) / 8 ≠ 4 then .ok false
  else if [b.first, b.first + 8, b.first + 16].any fun a => (isa.effects a (m.word a)).destI != r then
    .ok false
  else if isConditionalBranch (m.word branch) then
    .ok (isa.target branch (m.word branch) == b.first)
  else .error (.notConditionalBranch branch (m.word branch))

def branchDelay (isa : InstructionSet) (m : Memory) (b : Block) (last : Address) :
    Except Stop BranchDelay := do
  match ← (b.staleRead isa m last).mapError .fault with
  | none => .ok .absent
  | some (branch, r) =>
    if ← (b.isCountingLoop isa m last r).mapError .refused then .ok (.waived branch r)
    else .ok (.needed ⟨r, max (clampedSub branch (8 * snapshotDistance)) b.first, branch⟩)

def firstRead (b : Block) (last : Address) : Address :=
  if last - 4 < b.first + 8 then b.first else min (clampedSub (last - 4) 16) b.first

end Block

end DualIssue
