import DualIssue.Field

set_option autoImplicit false

namespace DualIssue

inductive Fault where
  | stackUnderflow
  | widthMismatch
  | strayLeave
  | unclosedRegion
  /-- A region left the stack deeper or shallower than it found it. -/
  | unbalancedRegion
  | leftoverStack
  | expectedWord
  | expectedQuad
  | notWord : Field → Fault
  | notQuad : Field → Fault
  | misaligned
  | sizeNotPowerOfTwo
  | noCapacity
  | indexOutOfBounds
  deriving DecidableEq, Repr

def Fault.message : Fault → String
  | .stackUnderflow => "Stack underflow"
  | .strayLeave => "end_if() without begin_if()"
  | .unclosedRegion => "Unclosed conditional region"
  | .unbalancedRegion => "Conditional region is unbalanced"
  | .leftoverStack => "Stack is not empty"
  | .expectedWord => "Expected a word"
  | .expectedQuad => "Expected a vector"
  | .notWord f => String.join [f.name, " is not a word"]
  | .notQuad f => String.join [f.name, " is not a vector"]
  | .widthMismatch | .misaligned | .sizeNotPowerOfTwo | .noCapacity => "assertion"
  | .indexOutOfBounds => "index"

end DualIssue
