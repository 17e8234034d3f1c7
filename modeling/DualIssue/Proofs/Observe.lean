import DualIssue.Code.Machine
import DualIssue.Proofs.Outcome

set_option autoImplicit false

namespace DualIssue

def Field.Valid : Field → Prop
  | .vf r => r.toNat < vfCount
  | .vi r => r.toNat < viCount
  | _ => True

instance (f : Field) : Decidable f.Valid :=
  match f with
  | .vf r => inferInstanceAs (Decidable (r.toNat < vfCount))
  | .vi r => inferInstanceAs (Decidable (r.toNat < viCount))
  | .vfPreUp | .vfUpRes | .savedInt | .savedIntTemp | .pipeTime | .delayedJump | .i | .q | .qHeld
  | .qTarget => .isTrue trivial

theorem Table.ext_get {n : Nat} {α : Type} {t u : Table n α} (h : ∀ k, k < n → t.get k = u.get k) :
    t = u := by
  obtain ⟨x⟩ := t
  obtain ⟨y⟩ := u
  congr 1
  apply Vector.ext
  intro k hk
  have := h k hk
  simpa [get, hk] using this

def Table.overlay {n : Nat} {α : Type} (p : Nat → Bool) (t u : Table n α) : Table n α :=
  ⟨Vector.ofFn fun k => if p k.val then t.cells[k] else u.cells[k]⟩

theorem Table.get_overlay {n : Nat} {α : Type} (p : Nat → Bool) (t u : Table n α) (k : Nat) :
    (overlay p t u).get k = if p k then t.get k else u.get k := by
  by_cases hk : k < n <;> by_cases hp : p k <;> simp [overlay, get, hk, hp]

namespace State

def read (s : State) (f : Field) : Except Fault Value :=
  match f.width with
  | .word => (s.word f).map .word
  | .quad => (s.quad f).map .quad

theorem word_eq_ok_iff {s : State} {f : Field} {w : Word} :
    s.word f = .ok w ↔ s.read f = .ok (.word w) := by
  cases f <;> simp [read, Field.width, word, map_eq_ok]

theorem quad_eq_ok_iff {s : State} {f : Field} {v : Quad} :
    s.quad f = .ok v ↔ s.read f = .ok (.quad v) := by
  cases f <;> simp [read, Field.width, quad, map_eq_ok]

theorem eq_of_read {s t : State} {f : Field} {v w : Word} (h : t.read f = s.read f)
    (hv : t.word f = .ok v) (hw : s.word f = .ok w) : v = w := by
  rw [word_eq_ok_iff, h, ← word_eq_ok_iff, hw] at hv
  exact (Except.ok.inj hv).symm

theorem read_setWord {s t : State} {f : Field} {w : Word} (h : s.setWord f w = .ok t) (g : Field) :
    t.read g = if g = f then .ok (.word w) else s.read g := by
  have hw := word_setWord h g
  have hq := quad_setWord h g
  by_cases e : g = f
  · subst e
    simp only [if_true] at hw ⊢
    exact word_eq_ok_iff.1 hw
  · simp only [e, if_false] at hw ⊢
    simp [read, hw, hq]

theorem read_setQuad {s t : State} {f : Field} {v : Quad} (h : s.setQuad f v = .ok t) (g : Field) :
    t.read g = if g = f then .ok (.quad v) else s.read g := by
  have hw := word_setQuad h g
  have hq := quad_setQuad h g
  by_cases e : g = f
  · subst e
    simp only [if_true] at hq ⊢
    exact quad_eq_ok_iff.1 hq
  · simp only [e, if_false] at hq ⊢
    simp [read, hw, hq]

theorem setWord_isOk_iff {s : State} {f : Field} {w : Word} :
    (∃ t, s.setWord f w = .ok t) ↔ f.Valid ∧ f.width = .word := by
  cases f with
  | vi r => by_cases h : r.toNat < viCount <;>
      simp [setWord, Field.Valid, Field.width, Table.set, h, bind, Except.bind]
  | _ => simp [setWord, Field.Valid, Field.width]

theorem setQuad_isOk_iff {s : State} {f : Field} {v : Quad} :
    (∃ t, s.setQuad f v = .ok t) ↔ f.Valid ∧ f.width = .quad := by
  cases f with
  | vf r => by_cases h : r.toNat < vfCount <;>
      simp [setQuad, Field.Valid, Field.width, Table.set, h, bind, Except.bind]
  | _ => simp [setQuad, Field.Valid, Field.width]

theorem exists_word_of_valid (s : State) {f : Field} (hv : f.Valid) (hw : f.width = .word) :
    ∃ w, s.read f = .ok (.word w) := by
  cases f with
  | vi r =>
    have hr : r.toNat < viCount := hv
    exact ⟨s.vi.cells[r.toNat], by simp [read, Field.width, word, Table.get, hr, Except.map]⟩
  | vf r | vfPreUp | vfUpRes => simp [Field.width] at hw
  | _ => exact ⟨_, rfl⟩

theorem exists_quad_of_valid (s : State) {f : Field} (hv : f.Valid) (hw : f.width = .quad) :
    ∃ v, s.read f = .ok (.quad v) := by
  cases f with
  | vf r =>
    have hr : r.toNat < vfCount := hv
    exact ⟨s.vf.cells[r.toNat], by simp [read, Field.width, quad, Table.get, hr, Except.map]⟩
  | vfPreUp | vfUpRes => exact ⟨_, rfl⟩
  | _ => simp [Field.width] at hw

theorem ext_read {s t : State} (h : ∀ f, s.read f = t.read f) : s = t := by
  have hvf : s.vf = t.vf := by
    apply Table.ext_get
    intro k hk
    have hb : k < 256 := by simp only [vfCount] at hk; omega
    have hf := h (.vf k.toUInt8)
    simpa [read, Field.width, quad, Table.get, hk, Nat.mod_eq_of_lt hb, Except.map] using hf
  have hvi : s.vi = t.vi := by
    apply Table.ext_get
    intro k hk
    have hb : k < 256 := by simp only [viCount] at hk; omega
    have hf := h (.vi k.toUInt8)
    simpa [read, Field.width, word, Table.get, hk, Nat.mod_eq_of_lt hb, Except.map] using hf
  have h1 := h .vfPreUp
  have h2 := h .vfUpRes
  have h3 := h .savedInt
  have h4 := h .savedIntTemp
  have h5 := h .pipeTime
  have h6 := h .delayedJump
  have h7 := h .i
  have h8 := h .q
  have h9 := h .qHeld
  have h10 := h .qTarget
  obtain ⟨⟩ := s
  obtain ⟨⟩ := t
  simp_all [read, Field.width, word, quad, Except.map]

def Agree (A : Field → Prop) (s t : State) : Prop := ∀ f, A f → s.read f = t.read f

/-- The fields of `s` where `p` holds, and those of `t` elsewhere. -/
def overlay (p : Field → Bool) (s t : State) : State where
  vf := Table.overlay (fun k => p (.vf k.toUInt8)) s.vf t.vf
  vi := Table.overlay (fun k => p (.vi k.toUInt8)) s.vi t.vi
  vfPreUp := if p .vfPreUp then s.vfPreUp else t.vfPreUp
  vfUpRes := if p .vfUpRes then s.vfUpRes else t.vfUpRes
  savedInt := if p .savedInt then s.savedInt else t.savedInt
  savedIntTemp := if p .savedIntTemp then s.savedIntTemp else t.savedIntTemp
  pipeTime := if p .pipeTime then s.pipeTime else t.pipeTime
  delayedJump := if p .delayedJump then s.delayedJump else t.delayedJump
  i := if p .i then s.i else t.i
  q := if p .q then s.q else t.q
  qHeld := if p .qHeld then s.qHeld else t.qHeld
  qTarget := if p .qTarget then s.qTarget else t.qTarget

theorem read_overlay (p : Field → Bool) (s t : State) (f : Field) :
    (overlay p s t).read f = if p f then s.read f else t.read f := by
  by_cases h : p f <;>
    cases f <;> simp [read, Field.width, overlay, word, quad, Table.get_overlay, h]

end State

end DualIssue
