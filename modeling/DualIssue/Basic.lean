/-!
Machine numbers. Words, addresses and cycle counts are 32 bits wide and wrap; register numbers
are bytes. The two clamped operations stop at the ends of the range instead of wrapping.
-/

set_option autoImplicit false

namespace DualIssue

abbrev Word := UInt32

abbrev Address := UInt32

abbrev Cycle := UInt32

/-- A register number. Zero stands for "no register": register 0 of either file is constant. -/
abbrev Register := UInt8

/-- The sum, or the largest word if the sum does not fit. -/
def clampedAdd (a b : Word) : Word := UInt32.ofNat (min (a.toNat + b.toNat) (UInt32.size - 1))

def clampedSub (a b : Word) : Word := UInt32.ofNat (a.toNat - b.toNat)

theorem toNat_clampedAdd (a b : Word) :
    (clampedAdd a b).toNat = min (a.toNat + b.toNat) (UInt32.size - 1) := by
  rw [clampedAdd, UInt32.toNat_ofNat_of_lt']
  simp only [UInt32.size]; omega

theorem toNat_clampedSub (a b : Word) : (clampedSub a b).toNat = a.toNat - b.toNat := by
  have h := a.toNat_lt
  simp [clampedSub]; omega

theorem toNat_max (a b : Word) : (max a b).toNat = max a.toNat b.toNat := by
  have hmax : max a b = if a ≤ b then b else a := rfl
  by_cases h : a ≤ b
  · have hn : a.toNat ≤ b.toNat := h
    simp [hmax, h]; omega
  · have hn : ¬a.toNat ≤ b.toNat := h
    simp [hmax, h]; omega

theorem toNat_min (a b : Word) : (min a b).toNat = min a.toNat b.toNat := by
  have hmin : min a b = if a ≤ b then a else b := rfl
  by_cases h : a ≤ b
  · have hn : a.toNat ≤ b.toNat := h
    simp [hmin, h]; omega
  · have hn : ¬a.toNat ≤ b.toNat := h
    simp [hmin, h]; omega

end DualIssue
