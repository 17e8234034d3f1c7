import DualIssue.Fault

set_option autoImplicit false

namespace DualIssue

structure Table (n : Nat) (α : Type) where
  cells : Vector α n
  deriving DecidableEq, Repr

namespace Table

def fill {α : Type} (n : Nat) (a : α) : Table n α := ⟨Vector.replicate n a⟩

def get {n : Nat} {α : Type} (t : Table n α) (k : Nat) : Except Fault α :=
  if h : k < n then .ok t.cells[k] else .error .indexOutOfBounds

def set {n : Nat} {α : Type} (t : Table n α) (k : Nat) (a : α) : Except Fault (Table n α) :=
  if h : k < n then .ok ⟨t.cells.set k a h⟩ else .error .indexOutOfBounds

theorem get_fill {n k : Nat} {α : Type} (a : α) (h : k < n) : (fill n a).get k = .ok a := by
  simp [fill, get, h]

theorem get_set {n k : Nat} {α : Type} {t u : Table n α} {a : α} (h : t.set k a = .ok u) (j : Nat) :
    u.get j = if j = k then .ok a else t.get j := by
  by_cases hk : k < n
  · simp only [set, hk, dite_true, Except.ok.injEq] at h
    subst h
    by_cases hj : j < n
    · by_cases e : j = k
      · simp [get, hk, e]
      · simp [get, hj, e, Ne.symm e]
    · have e : j ≠ k := by omega
      simp [get, hj, e]
  · simp [set, hk] at h

theorem get_isOk {n k : Nat} {α : Type} (t : Table n α) (h : k < n) : ∃ a, t.get k = .ok a := by
  simp [get, h]

theorem set_isOk {n k : Nat} {α : Type} (t : Table n α) (a : α) (h : k < n) :
    ∃ u, t.set k a = .ok u := by
  simp [set, h]

end Table

end DualIssue
