import DualIssue.Code.Action
import DualIssue.Fault

/-!
The static stack discipline. A shape records how wide each value on the stack is and how deep the
stack was where each open region began; following code through shapes, without running it,
refuses code that would pop what is not there.
-/

set_option autoImplicit false

namespace DualIssue

structure Shape where
  stack : List Width
  /-- The depth below each open region, the innermost first. -/
  regions : List Nat
  deriving DecidableEq, Repr

namespace Shape

def empty : Shape := ⟨[], []⟩

def require (f : Field) (w : Width) : Except Fault Unit :=
  if f.width = w then .ok () else .error .widthMismatch

def pushed (s : Shape) (w : Width) : Shape := { s with stack := w :: s.stack }

def popped (s : Shape) (w : Width) : Except Fault Shape :=
  match s.stack with
  | [] => .error .stackUnderflow
  | v :: rest => if v = w then .ok { s with stack := rest } else .error .widthMismatch

def step (s : Shape) : Action → Except Fault Shape
  | .push f => do
    require f .word
    .ok (s.pushed .word)
  | .pull f => do
    require f .word
    s.popped .word
  | .pushVec f => do
    require f .quad
    .ok (s.pushed .quad)
  | .pullVec f => do
    require f .quad
    s.popped .quad
  | .const _ => .ok (s.pushed .word)
  | .add => do
    let s ← s.popped .word
    let s ← s.popped .word
    .ok (s.pushed .word)
  | .addVec => do
    let s ← s.popped .quad
    let s ← s.popped .quad
    .ok (s.pushed .quad)
  | .enter _ => do
    let s ← s.popped .word
    let s ← s.popped .word
    .ok { s with regions := s.stack.length :: s.regions }
  | .leave =>
    match s.regions with
    | [] => .error .strayLeave
    | depth :: rest =>
      if depth = s.stack.length then .ok { s with regions := rest } else .error .unbalancedRegion

def follow (s : Shape) (code : Code) : Except Fault Shape := code.foldlM step s

@[simp] theorem follow_nil (s : Shape) : s.follow [] = .ok s := rfl

@[simp] theorem follow_cons (s : Shape) (a : Action) (code : Code) :
    s.follow (a :: code) = s.step a >>= (follow · code) := rfl

theorem follow_append (s : Shape) (x y : Code) :
    s.follow (x ++ y) = s.follow x >>= (follow · y) := by
  simp [follow, List.foldlM_append]

theorem follow_move (s : Shape) {dest src : Field} (h : dest.width = src.width) :
    s.follow (Code.move dest src) = .ok s := by
  cases hw : src.width <;> simp [Code.move, hw, h, step, require, pushed, popped, bind, Except.bind]

end Shape

end DualIssue
