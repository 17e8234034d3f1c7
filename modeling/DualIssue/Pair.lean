import DualIssue.BranchDelay
import DualIssue.Scoreboard

/-!
One instruction pair. The halves issue together but are compiled one after the other, the upper one
first, so the code between them hides the upper half's result from the lower half.
-/

set_option autoImplicit false

namespace DualIssue

structure Pair where
  address : Address
  lower : Word
  upper : Word
  lo : Effects
  hi : Effects
  deriving DecidableEq, Repr

namespace Pair

def decode (isa : InstructionSet) (m : Memory) (a : Address) : Pair where
  address := a
  lower := m.word a
  upper := m.word (a + 4)
  lo := isa.effects a (m.word a)
  hi := isa.effects (a + 4) (m.word (a + 4))

def upperIssue (p : Pair) (t : Cycle) : Issue := ⟨p.address + 4, p.upper, t⟩

def lowerIssue (p : Pair) (t : Cycle) : Issue := ⟨p.address, p.lower, t⟩

def checkRegisters (a : Address) (e : Effects) : Except Refusal Unit :=
  match e.missing with
  | some r => .error (.registerOutOfRange a r)
  | none => .ok ()

def check (p : Pair) : Except Refusal Unit := do
  checkRegisters p.address p.lo
  checkRegisters (p.address + 4) p.hi

def checkWrites (p : Pair) : Except Refusal Unit :=
  if p.hi.destF ≠ 0 ∧ p.hi.destF = p.lo.destF then .error (.doubleWrite p.address p.hi.destF)
  else .ok ()

/-- The float register that the upper half writes and the lower half reads. -/
def clash (p : Pair) : Option Register :=
  if p.hi.destF ≠ 0 ∧ (p.lo.srcF0 = p.hi.destF ∨ p.lo.srcF1 = p.hi.destF) then some p.hi.destF
  else none

def keepOld : Option Register → Code
  | some r => Code.move .vfPreUp (.vf r)
  | none => []

def showOld : Option Register → Code
  | some r => Code.move .vfUpRes (.vf r) ++ Code.move (.vf r) .vfPreUp
  | none => []

def showNew : Option Register → Code
  | some r => Code.move (.vf r) .vfUpRes
  | none => []

/-- The code of both halves at cycle `t`, with everything that has to happen around them. -/
def body (isa : InstructionSet) (snapshot : Option Snapshot) (p : Pair) (t : Cycle) : Code :=
  keepOld p.clash ++ snapshot.elim [] (·.save p.address) ++
    (p.upperIssue t).code isa ++
    showOld p.clash ++ snapshot.elim [] (·.swapIn p.address) ++
    (p.lowerIssue t).code isa ++
    snapshot.elim [] (·.swapOut p.address) ++ showNew p.clash

end Pair

end DualIssue
