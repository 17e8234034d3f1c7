import DualIssue.Basic

/-!
Vector values. A lane is a single-precision number kept as its bit pattern, so that copies keep
every bit and equality is decidable; only addition looks at the number.
-/

set_option autoImplicit false

namespace DualIssue

structure Lane where
  bits : Word
  deriving DecidableEq, Repr

namespace Lane

def add (a b : Lane) : Lane := ⟨(Float32.ofBits a.bits + Float32.ofBits b.bits).toBits⟩

def isNaN (a : Lane) : Bool := decide (0x7F800000 < (a.bits &&& 0x7FFFFFFF))

end Lane

structure Quad where
  x : Lane
  y : Lane
  z : Lane
  w : Lane
  deriving DecidableEq, Repr

namespace Quad

def zero : Quad := ⟨⟨0⟩, ⟨0⟩, ⟨0⟩, ⟨0⟩⟩

def add (a b : Quad) : Quad := ⟨a.x.add b.x, a.y.add b.y, a.z.add b.z, a.w.add b.w⟩

def toList (a : Quad) : List Lane := [a.x, a.y, a.z, a.w]

end Quad

end DualIssue
