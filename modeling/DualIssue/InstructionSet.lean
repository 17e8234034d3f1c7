import DualIssue.Code.Action
import DualIssue.State

set_option autoImplicit false

namespace DualIssue

inductive Branch where
  | straight
  | delayed
  | final
  deriving DecidableEq, Repr

structure Effects where
  srcF0 : Register := 0
  srcF1 : Register := 0
  destF : Register := 0
  srcI0 : Register := 0
  srcI1 : Register := 0
  destI : Register := 0
  readsQ : Bool := false
  writesQ : Bool := false
  /-- The integer result comes from flags, not from arithmetic. -/
  flagResult : Bool := false
  deriving DecidableEq, Repr

namespace Effects

def idle : Effects := {}

def floatReads (e : Effects) : List Register := [e.srcF0, e.srcF1].filter (· ≠ 0)

def floatWrites (e : Effects) : List Register := [e.destF].filter (· ≠ 0)

def readsInt (e : Effects) (r : Register) : Bool := r != 0 && (e.srcI0 == r || e.srcI1 == r)

/-- The first register named that does not exist, float registers before integer ones. -/
def missing (e : Effects) : Option Register :=
  [e.srcF0, e.srcF1, e.destF].find? (fun r => decide (vfCount ≤ r.toNat)) <|>
    [e.srcI0, e.srcI1, e.destI].find? (fun r => decide (viCount ≤ r.toNat))

theorem missing_eq_none_iff (e : Effects) : e.missing = none ↔
    (e.srcF0.toNat < vfCount ∧ e.srcF1.toNat < vfCount ∧ e.destF.toNat < vfCount) ∧
      e.srcI0.toNat < viCount ∧ e.srcI1.toNat < viCount ∧ e.destI.toNat < viCount := by
  simp [missing]

end Effects

structure InstructionSet where
  branch : Address → Word → Branch
  effects : Address → Word → Effects
  target : Address → Word → Address
  code : Address → Word → Cycle → Code

/-- One instruction sent to the code generator: where it stands, what it is and when it issues. -/
structure Issue where
  address : Address
  opcode : Word
  time : Cycle
  deriving DecidableEq, Repr

def Issue.code (isa : InstructionSet) (i : Issue) : Code := isa.code i.address i.opcode i.time

/-- The top bit of an upper instruction says that the lower word is an immediate. -/
def isImmediateLoad (upper : Word) : Bool := upper &&& 0x80000000 != 0

/-- Conditional branches have the lower opcodes `0x28` to `0x2f`. -/
def isConditionalBranch (lower : Word) : Bool :=
  let opcode := (lower >>> 25) &&& 0x7F
  decide (0x28 ≤ opcode ∧ opcode < 0x30)

end DualIssue
