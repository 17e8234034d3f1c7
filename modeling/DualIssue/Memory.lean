import DualIssue.Fault

set_option autoImplicit false

namespace DualIssue

structure Memory where
  /-- The word at an address, of which only multiples of four are ever asked for. -/
  word : Address → Word

def Memory.fetch (m : Memory) (a : Address) : Except Fault Word :=
  if a.toNat % 4 = 0 then .ok (m.word a) else .error .misaligned

end DualIssue
