import DualIssue.Fault

/-!
Why a block cannot be compiled. A refusal says that the microcode breaks a rule of the machine; a
fault says that whoever supplied the instruction set or the addresses broke a contract.
-/

set_option autoImplicit false

namespace DualIssue

inductive Refusal where
  | misaligned (first last : Address)
  | addressOverflow (first last : Address)
  | upperWritesQ (address : Address)
  | lowerReadsQ (address : Address)
  | doubleWrite (address : Address) (register : Register)
  | registerOutOfRange (address : Address) (register : Register)
  | unbalancedStack (address : Address)
  | notConditionalBranch (address : Address) (opcode : Word)
  deriving DecidableEq, Repr

def rangeText (first last : Address) : String :=
  String.join [Text.hex first.toNat, "..=", Text.hex last.toNat]

def Refusal.message : Refusal → String
  | .misaligned first last =>
    String.join ["block ", rangeText first last, " is not a whole number of instruction pairs"]
  | .addressOverflow first last =>
    String.join ["block ", rangeText first last, " leaves no room for a delay slot below 4GB"]
  | .upperWritesQ a => String.join ["upper instruction at ", Text.hex a.toNat, " writes Q"]
  | .lowerReadsQ a => String.join ["lower instruction at ", Text.hex a.toNat, " reads Q"]
  | .doubleWrite a r =>
    String.join ["both halves of the pair at ", Text.hex a.toNat, " write VF", Text.decimal r.toNat]
  | .registerOutOfRange a r =>
    String.join ["instruction at ", Text.hex a.toNat, " names register ", Text.decimal r.toNat,
      ", which does not exist"]
  | .unbalancedStack a =>
    String.join ["emission stack is not empty after the pair at ", Text.hex a.toNat]
  | .notConditionalBranch a w =>
    String.join ["expected a conditional branch at ", Text.hex a.toNat, ", found ", Text.hex8 w.toNat]

inductive Stop where
  | fault : Fault → Stop
  | refused : Refusal → Stop
  deriving DecidableEq, Repr

end DualIssue
