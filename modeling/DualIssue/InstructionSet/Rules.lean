import DualIssue.InstructionSet

set_option autoImplicit false

namespace DualIssue

inductive Half where
  | lower
  | upper
  deriving DecidableEq, Repr

def Half.ofAddress (a : Address) : Half := if a &&& 4 = 0 then .lower else .upper

inductive Target where
  | absolute : Address → Target
  | relative : Word → Target
  deriving DecidableEq, Repr

def Target.resolve (t : Target) (a : Address) : Address :=
  match t with
  | .absolute b => b
  | .relative d => a + d

structure Rule where
  mask : Word
  pattern : Word
  half : Option Half
  place : Option Address
  branch : Branch
  effects : Effects
  target : Target
  code : Cycle → Address → Code

def Rule.matches (r : Rule) (a : Address) (w : Word) : Bool :=
  w &&& r.mask == r.pattern &&& r.mask &&
    r.half.all (· == Half.ofAddress a) && r.place.all (· == a)

def InstructionSet.ofRules (rules : List Rule) : InstructionSet where
  branch a w := (find a w).elim .straight (·.branch)
  effects a w := (find a w).elim .idle (·.effects)
  target a w := (find a w).elim 0 (·.target.resolve a)
  code a w t := (find a w).elim [] fun r => r.code t (r.target.resolve a)
where
  find (a : Address) (w : Word) : Option Rule := rules.find? (·.matches a w)

end DualIssue
