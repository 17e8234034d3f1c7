import DualIssue.Code.Action

/-!
Results that arrive late. A latch has a visible value, a held value and the cycle at which the held
value is due. Producers hold a result, consumers first release it if it is due.
-/

set_option autoImplicit false

namespace DualIssue

def macLatency : Cycle := 4

def divLatency : Cycle := 7

structure Latch where
  value : Field
  held : Field
  due : Field
  deriving DecidableEq, Repr

namespace Latch

def q : Latch := ⟨.q, .qHeld, .qTarget⟩

def release (l : Latch) : Code := Code.move l.value l.held

/-- Make the held value visible if it is due `t` cycles after the start of the block. -/
def releaseIfDue (l : Latch) (t : Cycle) : Code :=
  [.push .pipeTime, .const t, .add, .push l.due, .enter .ge] ++ l.release ++ [.leave]

/-- Pop a word and hold it until `latency` cycles after cycle `t` of the block. -/
def hold (l : Latch) (t latency : Cycle) : Code :=
  [.pull l.held, .push .pipeTime, .const (t + latency), .add, .pull l.due]

end Latch

end DualIssue
