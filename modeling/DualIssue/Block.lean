import DualIssue.Refusal

/-!
Blocks of instruction pairs. A pair is a lower instruction at a multiple of eight and the upper
instruction four bytes after it.
-/

set_option autoImplicit false

namespace DualIssue

/-- The highest end of a block. A delay slot after it and the address behind that still fit. -/
def maxLast : Address := 0xFFFFFFF3

/-- From the lower half of the first pair to the upper half of the last one. -/
structure Block where
  first : Address
  last : Address
  first_aligned : first.toNat % 8 = 0
  last_aligned : last.toNat % 8 = 4
  first_le_last : first.toNat ≤ last.toNat
  last_le_max : last.toNat ≤ maxLast.toNat
  deriving DecidableEq, Repr

namespace Block

def ofRange (first last : Address) : Except Refusal Block :=
  if h : first.toNat % 8 = 0 ∧ last.toNat % 8 = 4 ∧ first.toNat ≤ last.toNat then
    if hmax : last.toNat ≤ maxLast.toNat then .ok ⟨first, last, h.1, h.2.1, h.2.2, hmax⟩
    else .error (.addressOverflow first last)
  else .error (.misaligned first last)

def pairs (b : Block) : Word := (b.last - b.first) / 8 + 1

def text (b : Block) : String := rangeText b.first b.last

/-- The addresses of the pairs from the start of the block through the one whose upper half is at
`last`. -/
def addresses (b : Block) (last : Address) : List Address :=
  (List.range ((last - b.first).toNat / 8 + 1)).map fun k => b.first + 8 * UInt32.ofNat k

theorem length_addresses (b : Block) (last : Address) :
    (b.addresses last).length = (last - b.first).toNat / 8 + 1 := by
  simp [addresses]

theorem toNat_last_add (b : Block) : (b.last + 8).toNat = b.last.toNat + 8 := by
  have h := b.last_le_max
  rw [UInt32.toNat_add]
  simp [maxLast] at h ⊢; omega

end Block

end DualIssue
