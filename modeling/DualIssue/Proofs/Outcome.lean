import DualIssue.Refusal

/-!
Taking a computation apart that ended well: each of its steps ended well. Putting one together: what
it can end in follows from what its steps can end in.
-/

set_option autoImplicit false

namespace DualIssue

theorem bind_eq_ok {ε α β : Type} {first : Except ε α} {next : α → Except ε β} {r : β} :
    first >>= next = .ok r ↔ ∃ a, first = .ok a ∧ next a = .ok r := by
  cases first with
  | error e => simp [bind, Except.bind]
  | ok a => simp [bind, Except.bind]

theorem mapError_ok {ε δ α : Type} {f : ε → δ} {a : α} : (Except.ok a).mapError f = .ok a := rfl

theorem mapError_eq_ok {ε δ α : Type} {x : Except ε α} {f : ε → δ} {a : α} :
    x.mapError f = .ok a ↔ x = .ok a := by
  cases x with
  | error e => constructor <;> intro h <;> cases h
  | ok b =>
    constructor
    · intro h
      cases h
      rfl
    · intro h
      cases h
      rfl

theorem map_eq_ok {ε α β : Type} {x : Except ε α} {f : α → β} {b : β} :
    x.map f = .ok b ↔ ∃ a, x = .ok a ∧ f a = b := by
  cases x <;> simp [Except.map]

theorem foldlM_induction {ε α σ : Type} {f : σ → α → Except ε σ} {P : σ → Prop} {xs : List α}
    (hstep : ∀ s x t, x ∈ xs → P s → f s x = .ok t → P t) {s t : σ} (hs : P s)
    (h : xs.foldlM f s = .ok t) : P t := by
  induction xs generalizing s with
  | nil =>
    cases h
    exact hs
  | cons x xs ih =>
    rw [List.foldlM_cons, bind_eq_ok] at h
    obtain ⟨u, hu, h⟩ := h
    exact ih (fun s y t hy => hstep s y t (by simp [hy])) (hstep s x u (by simp) hs hu) h

theorem foldlM_simulates {ε δ α σ τ : Type} {f : σ → α → Except ε σ} {g : τ → α → Except δ τ}
    {R : σ → τ → Prop} {xs : List α}
    (hstep : ∀ s t x s', x ∈ xs → R s t → f s x = .ok s' → ∃ t', g t x = .ok t' ∧ R s' t') {s s' : σ}
    {t : τ} (hr : R s t) (h : xs.foldlM f s = .ok s') : ∃ t', xs.foldlM g t = .ok t' ∧ R s' t' := by
  induction xs generalizing s t with
  | nil =>
    cases h
    exact ⟨t, rfl, hr⟩
  | cons x xs ih =>
    rw [List.foldlM_cons, bind_eq_ok] at h
    obtain ⟨u, hu, h⟩ := h
    obtain ⟨v, hv, hr⟩ := hstep s t x u (by simp) hr hu
    rw [List.foldlM_cons, hv]
    exact ih (fun s t y s' hy => hstep s t y s' (by simp [hy])) hr h

theorem foldlM_congr {ε α σ : Type} {f g : σ → α → Except ε σ} {xs : List α}
    (h : ∀ s x, x ∈ xs → f s x = g s x) {s : σ} : xs.foldlM f s = xs.foldlM g s := by
  induction xs generalizing s with
  | nil => rfl
  | cons x xs ih =>
    rw [List.foldlM_cons, List.foldlM_cons, h s x (by simp)]
    congr 1
    funext t
    exact ih fun s y hy => h s y (by simp [hy])

theorem foldlM_range_succ {ε σ : Type} (f : σ → Nat → Except ε σ) (s : σ) (n : Nat) :
    (List.range (n + 1)).foldlM f s = (List.range n).foldlM f s >>= (f · n) := by
  rw [List.range_succ, List.foldlM_append]
  simp

/-- The computation gives a result of which `P` holds, or ends early in a way of which `E` holds. -/
def Ends {ε α : Type} (P : α → Prop) (E : ε → Prop) : Except ε α → Prop
  | .ok a => P a
  | .error e => E e

namespace Ends

variable {ε δ α β : Type} {P : α → Prop} {E : ε → Prop} {x : Except ε α}

theorem of_ok {a : α} (h : x = .ok a) (ha : P a) : Ends P E x := by
  rw [h]
  exact ha

theorem ok (h : Ends P E x) {a : α} (ha : x = .ok a) : P a := by
  rw [ha] at h
  exact h

theorem error (h : Ends P E x) {e : ε} (he : x = .error e) : E e := by
  rw [he] at h
  exact h

theorem exists_ok (h : Ends P (fun _ => False) x) : ∃ a, x = .ok a ∧ P a := by
  cases x with
  | error e => exact h.elim
  | ok a => exact ⟨a, rfl, h⟩

theorem imp_error {D : ε → Prop} (h : Ends P E x) (hE : ∀ e, E e → D e) : Ends P D x := by
  cases x with
  | error e => exact hE e h
  | ok a => exact h

theorem bind {Q : β → Prop} {next : α → Except ε β} (h : Ends P E x)
    (hnext : ∀ a, P a → Ends Q E (next a)) : Ends Q E (x >>= next) := by
  cases x with
  | error e => exact h
  | ok a => exact hnext a h

theorem mapError {D : δ → Prop} {f : ε → δ} (h : Ends P E x) (hf : ∀ e, E e → D (f e)) :
    Ends P D (x.mapError f) := by
  cases x with
  | error e => exact hf e h
  | ok a => exact h

theorem foldlM {f : α → β → Except ε α} {ys : List β}
    (hstep : ∀ a y, y ∈ ys → P a → Ends P E (f a y)) {a : α} (ha : P a) :
    Ends P E (ys.foldlM f a) := by
  induction ys generalizing a with
  | nil => exact ha
  | cons y ys ih =>
    rw [List.foldlM_cons]
    exact (hstep a y (by simp) ha).bind fun b hb => ih (fun c z hz => hstep c z (by simp [hz])) hb

/-- A run over the numbers below `n`, with an invariant that says how far it has come. -/
theorem foldlM_range {f : α → Nat → Except ε α} {P : Nat → α → Prop} {n : Nat}
    (hstep : ∀ k < n, ∀ a, P k a → Ends (P (k + 1)) E (f a k)) {a : α} (ha : P 0 a) :
    Ends (P n) E ((List.range n).foldlM f a) := by
  induction n with
  | zero => exact ha
  | succ n ih =>
    rw [foldlM_range_succ]
    exact (ih fun k hk => hstep k (by omega)).bind (hstep n (by omega))

end Ends

theorem foldlM_range_induction {ε σ : Type} {f : σ → Nat → Except ε σ} {P : Nat → σ → Prop} {n : Nat}
    (hstep : ∀ k < n, ∀ s t, P k s → f s k = .ok t → P (k + 1) t) {s t : σ} (hs : P 0 s)
    (h : (List.range n).foldlM f s = .ok t) : P n t := by
  refine (Ends.foldlM_range (E := fun _ => True) (fun k hk s hk' => ?_) hs).ok h
  cases hu : f s k with
  | error e => trivial
  | ok u => exact hstep k hk s u hk' hu

end DualIssue
