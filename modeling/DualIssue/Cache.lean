import DualIssue.Compile

set_option autoImplicit false

namespace DualIssue

structure Entry where
  block : Block
  report : Report
  code : Code
  deriving DecidableEq, Repr

structure Cache where
  options : Options
  capacity : Nat
  capacity_pos : 0 < capacity
  /-- The oldest first. -/
  entries : List Entry
  deriving DecidableEq, Repr

namespace Cache

def new (options : Options) (capacity : Nat) : Except Fault Cache :=
  if h : 0 < capacity then .ok ⟨options, capacity, h, []⟩ else .error .noCapacity

def size (c : Cache) : Nat := c.entries.length

def find? (c : Cache) (b : Block) : Option Entry := c.entries.find? (·.block == b)

def contains (c : Cache) (b : Block) : Bool := c.entries.any (·.block == b)

def report? (c : Cache) (b : Block) : Option Report := (c.find? b).map (·.report)

def isFull (c : Cache) : Bool := decide (c.capacity ≤ c.size)

def makeRoom (c : Cache) : Cache := if c.isFull then { c with entries := c.entries.tail } else c

def add (c : Cache) (e : Entry) : Cache := { c with entries := c.entries ++ [e] }

structure Answer where
  code : Code
  compiled : Nat
  deriving DecidableEq, Repr

/-- The code of a block, compiled if it is not there. A block that is refused leaves the cache as it
was. -/
def get (c : Cache) (isa : InstructionSet) (m : Memory) (b : Block) : Except Stop Answer × Cache :=
  match c.find? b with
  | some e => (.ok ⟨e.code, 0⟩, c)
  | none =>
    match compile c.options isa m b with
    | .error e => (.error e, c)
    | .ok done =>
      match done.draft.finish with
      | .error f => (.error (.fault f), c.makeRoom)
      | .ok code => (.ok ⟨code, done.issued.length⟩, c.makeRoom.add ⟨b, done.report, code⟩)

/-- The blocks that depend on a byte from `first` up to, but not including, `stop`. -/
def stale (c : Cache) (first stop : Address) : List Block :=
  (c.entries.filter (·.report.overlaps first stop)).map (·.block)

def invalidate (c : Cache) (first stop : Address) : Cache :=
  { c with entries := c.entries.filter (!·.report.overlaps first stop) }

def clear (c : Cache) : Cache := { c with entries := [] }

end Cache

end DualIssue
