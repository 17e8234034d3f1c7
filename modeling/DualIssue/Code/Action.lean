import DualIssue.Field

/-!
The code that blocks compile to: a list of actions of a stack machine over the fields of a state.
Words and vectors are pushed from fields, pulled into fields and added. A conditional region is
entered by popping two words and comparing them, and left by an action of its own; if the
comparison fails, everything up to the end of the region is skipped.
-/

set_option autoImplicit false

namespace DualIssue

inductive Condition where
  | eq
  | ne
  | lt
  | ge
  deriving DecidableEq, Repr

namespace Condition

/-- Whether the comparison holds of `a`, the deeper operand, and `b`, the one on top. -/
def holds (c : Condition) (a b : Word) : Bool :=
  match c with
  | .eq => a == b
  | .ne => a != b
  | .lt => decide (a < b)
  | .ge => decide (b ≤ a)

def name : Condition → String
  | .eq => "Eq"
  | .ne => "Ne"
  | .lt => "Lt"
  | .ge => "Ge"

theorem holds_ne (a b : Word) : ne.holds a b = !eq.holds a b := rfl

end Condition

inductive Action where
  | push : Field → Action
  | pull : Field → Action
  | pushVec : Field → Action
  | pullVec : Field → Action
  | const : Word → Action
  | add
  | addVec
  | enter : Condition → Action
  | leave
  deriving DecidableEq, Repr

namespace Action

def place (f : Field) : String := String.join [f.name, " @", Text.hex f.offset]

def text : Action → String
  | .push f => String.join ["push ", place f]
  | .pull f => String.join ["pull ", place f]
  | .pushVec f => String.join ["push.v ", place f]
  | .pullVec f => String.join ["pull.v ", place f]
  | .const w => String.join ["const ", Text.hex w.toNat]
  | .add => "add"
  | .addVec => "add.v"
  | .enter c => String.join ["if ", c.name]
  | .leave => "endif"

end Action

abbrev Code := List Action

namespace Code

/-- Copy the field `src` into `dest`, which is expected to be as wide. -/
def move (dest src : Field) : Code :=
  match src.width with
  | .word => [.push src, .pull dest]
  | .quad => [.pushVec src, .pullVec dest]

/-- One line an action, four spaces for every region open around it. The end of a region is
aligned with its start. -/
def lines : Nat → Code → List String
  | _, [] => []
  | depth, .enter c :: rest => line depth (.enter c) :: lines (depth + 1) rest
  | depth, .leave :: rest => line (depth - 1) .leave :: lines (depth - 1) rest
  | depth, a :: rest => line depth a :: lines depth rest
where
  line (depth : Nat) (a : Action) : String := String.join [String.ofList (List.replicate (4 * depth) ' '), a.text]

def listing (code : Code) : String := String.join ((lines 0 code).flatMap fun line => [line, "\n"])

end Code

end DualIssue
