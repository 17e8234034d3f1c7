import DualIssue.Code.Action
import DualIssue.State

set_option autoImplicit false

namespace DualIssue

inductive Value where
  | word : Word → Value
  | quad : Quad → Value
  deriving DecidableEq, Repr

structure Machine where
  state : State
  stack : List Value
  /-- How many regions have to be left before actions take effect again. -/
  skip : Nat
  deriving DecidableEq, Repr

namespace Machine

def start (s : State) : Machine := ⟨s, [], 0⟩

def popWord : List Value → Except Fault (Word × List Value)
  | [] => .error .stackUnderflow
  | .word w :: rest => .ok (w, rest)
  | .quad _ :: _ => .error .expectedWord

def popQuad : List Value → Except Fault (Quad × List Value)
  | [] => .error .stackUnderflow
  | .quad v :: rest => .ok (v, rest)
  | .word _ :: _ => .error .expectedQuad

/-- The effect of an action that is not skipped. The value on top of the stack is looked at before
the field it goes to. -/
def perform (m : Machine) : Action → Except Fault Machine
  | .push f => do
    let w ← m.state.word f
    .ok { m with stack := .word w :: m.stack }
  | .pull f => do
    let (w, rest) ← popWord m.stack
    let state ← m.state.setWord f w
    .ok { m with state, stack := rest }
  | .pushVec f => do
    let v ← m.state.quad f
    .ok { m with stack := .quad v :: m.stack }
  | .pullVec f => do
    let (v, rest) ← popQuad m.stack
    let state ← m.state.setQuad f v
    .ok { m with state, stack := rest }
  | .const w => .ok { m with stack := .word w :: m.stack }
  | .add => do
    let (b, rest) ← popWord m.stack
    let (a, rest) ← popWord rest
    .ok { m with stack := .word (a + b) :: rest }
  | .addVec => do
    let (b, rest) ← popQuad m.stack
    let (a, rest) ← popQuad rest
    .ok { m with stack := .quad (a.add b) :: rest }
  | .enter c => do
    let (b, rest) ← popWord m.stack
    let (a, rest) ← popWord rest
    .ok { m with stack := rest, skip := if c.holds a b then 0 else 1 }
  | .leave => .ok m

def skipped (m : Machine) : Action → Machine
  | .enter _ => { m with skip := m.skip + 1 }
  | .leave => { m with skip := m.skip - 1 }
  | _ => m

def step (m : Machine) (a : Action) : Except Fault Machine :=
  if m.skip = 0 then m.perform a else .ok (m.skipped a)

def exec (m : Machine) (code : Code) : Except Fault Machine := code.foldlM step m

@[simp] theorem exec_nil (m : Machine) : m.exec [] = .ok m := rfl

@[simp] theorem exec_cons (m : Machine) (a : Action) (code : Code) :
    m.exec (a :: code) = m.step a >>= (exec · code) := rfl

theorem exec_append (m : Machine) (x y : Code) : m.exec (x ++ y) = m.exec x >>= (exec · y) := by
  simp [exec, List.foldlM_append]

/-- The final state. No region may still be skipped, and no value may be left over. -/
def finish (m : Machine) : Except Fault State :=
  if m.skip ≠ 0 then .error .unclosedRegion
  else if m.stack.isEmpty then .ok m.state
  else .error .leftoverStack

end Machine

def Code.run (code : Code) (s : State) : Except Fault State := do
  let m ← (Machine.start s).exec code
  m.finish

end DualIssue
