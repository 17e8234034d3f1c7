import DualIssue.Code.Shape
import DualIssue.Proofs.Observe

set_option autoImplicit false

namespace DualIssue

namespace Action

def pushes : Action → Field → Bool
  | .push g, f | .pushVec g, f => g == f
  | _, _ => false

def pulls : Action → Field → Bool
  | .pull g, f | .pullVec g, f => g == f
  | _, _ => false

end Action

namespace Code

def pushes (code : Code) (f : Field) : Bool := code.any (·.pushes f)

def pulls (code : Code) (f : Field) : Bool := code.any (·.pulls f)

def mentions (code : Code) (f : Field) : Bool := code.pushes f || code.pulls f

@[simp] theorem pulls_nil (f : Field) : pulls [] f = false := rfl

@[simp] theorem pulls_cons (a : Action) (code : Code) (f : Field) :
    pulls (a :: code) f = (a.pulls f || code.pulls f) := rfl

@[simp] theorem pulls_append (x y : Code) (f : Field) :
    (x ++ y).pulls f = (x.pulls f || y.pulls f) := by
  simp [pulls]

@[simp] theorem pushes_append (x y : Code) (f : Field) :
    (x ++ y).pushes f = (x.pushes f || y.pushes f) := by
  simp [pushes]

theorem mentions_cons (a : Action) (code : Code) (f : Field) :
    mentions (a :: code) f = (a.pushes f || a.pulls f || code.mentions f) := by
  simp only [mentions, pushes, pulls, List.any_cons]
  cases a.pushes f <;> cases a.pulls f <;> simp

end Code

namespace Machine

theorem state_of_step {m n : Machine} {a : Action} (h : m.step a = .ok n) :
    n.state = m.state ∨ (∃ f w, a = .pull f ∧ m.state.setWord f w = .ok n.state) ∨
      ∃ f v, a = .pullVec f ∧ m.state.setQuad f v = .ok n.state := by
  by_cases hs : m.skip = 0
  · simp only [step, hs, if_true] at h
    cases a with
    | pull f =>
      obtain ⟨⟨w, rest⟩, -, h⟩ := bind_eq_ok.1 h
      obtain ⟨t, ht, h⟩ := bind_eq_ok.1 h
      cases h
      exact .inr (.inl ⟨f, w, rfl, ht⟩)
    | pullVec f =>
      obtain ⟨⟨v, rest⟩, -, h⟩ := bind_eq_ok.1 h
      obtain ⟨t, ht, h⟩ := bind_eq_ok.1 h
      cases h
      exact .inr (.inr ⟨f, v, rfl, ht⟩)
    | push f | pushVec f =>
      obtain ⟨w, -, h⟩ := bind_eq_ok.1 h
      cases h
      exact .inl rfl
    | const w | leave =>
      cases h
      exact .inl rfl
    | add | addVec | enter c =>
      obtain ⟨⟨b, rest⟩, -, h⟩ := bind_eq_ok.1 h
      obtain ⟨⟨c, rest⟩, -, h⟩ := bind_eq_ok.1 h
      cases h
      exact .inl rfl
  · simp only [step, hs, if_false, Except.ok.injEq] at h
    subst h
    cases a <;> exact .inl rfl

theorem read_step {m n : Machine} {a : Action} {f : Field} (h : m.step a = .ok n)
    (hf : a.pulls f = false) : n.state.read f = m.state.read f := by
  obtain he | ⟨g, w, rfl, hg⟩ | ⟨g, v, rfl, hg⟩ := state_of_step h
  · rw [he]
  · have hn : f ≠ g := by
      rintro rfl
      simp [Action.pulls] at hf
    simp [State.read_setWord hg, hn]
  · have hn : f ≠ g := by
      rintro rfl
      simp [Action.pulls] at hf
    simp [State.read_setQuad hg, hn]

theorem read_exec {m n : Machine} {code : Code} {f : Field} (h : m.exec code = .ok n)
    (hf : code.pulls f = false) : n.state.read f = m.state.read f := by
  induction code generalizing m with
  | nil =>
    cases h
    rfl
  | cons a code ih =>
    rw [exec_cons, bind_eq_ok] at h
    obtain ⟨k, hk, h⟩ := h
    simp only [Code.pulls_cons, Bool.or_eq_false_iff] at hf
    rw [ih h hf.2, read_step hk hf.1]

structure Alike (A : Field → Prop) (m n : Machine) : Prop where
  stack : m.stack = n.stack
  skip : m.skip = n.skip
  state : m.state.Agree A n.state

theorem Alike.mono {A B : Field → Prop} {m n : Machine} (h : Alike A m n) (hB : ∀ f, B f → A f) :
    Alike B m n :=
  ⟨h.stack, h.skip, fun f hf => h.state f (hB f hf)⟩

theorem Alike.eq_start {A : Field → Prop} {s : State} {n : Machine} (h : Alike A (.start s) n) :
    n = .start n.state := by
  obtain ⟨state, stack, skip⟩ := n
  cases h.stack
  cases h.skip
  rfl

/-- Machines that agree on what the action reads agree afterwards on what it writes as well. -/
theorem Alike.perform_written {A : Field → Prop} {m n m' : Machine} {a : Action} (h : Alike A m n)
    (ha : ∀ f, a.pushes f = true → A f) (hm : m.perform a = .ok m') :
    ∃ n', n.perform a = .ok n' ∧ Alike (fun f => A f ∨ a.pulls f = true) m' n' := by
  obtain ⟨hstack, hskip, hstate⟩ := h
  have hkeep : m.state.Agree (fun f => A f ∨ false = true) n.state := by
    intro f hf
    exact hstate f (by simpa using hf)
  cases a with
  | push f =>
    obtain ⟨w, hw, hm⟩ := bind_eq_ok.1 hm
    cases hm
    rw [State.word_eq_ok_iff, hstate f (ha f (by simp [Action.pushes])), ← State.word_eq_ok_iff] at hw
    refine ⟨{ n with stack := .word w :: n.stack }, ?_, by simp [hstack], hskip, hkeep⟩
    simp [Machine.perform, hw, bind, Except.bind]
  | pushVec f =>
    obtain ⟨v, hv, hm⟩ := bind_eq_ok.1 hm
    cases hm
    rw [State.quad_eq_ok_iff, hstate f (ha f (by simp [Action.pushes])), ← State.quad_eq_ok_iff] at hv
    refine ⟨{ n with stack := .quad v :: n.stack }, ?_, by simp [hstack], hskip, hkeep⟩
    simp [Machine.perform, hv, bind, Except.bind]
  | pull f =>
    obtain ⟨⟨w, rest⟩, hp, hm⟩ := bind_eq_ok.1 hm
    obtain ⟨s, hs, hm⟩ := bind_eq_ok.1 hm
    cases hm
    obtain ⟨t, ht⟩ := State.setWord_isOk_iff (s := n.state) (w := w) |>.2 (State.setWord_isOk_iff.1 ⟨s, hs⟩)
    refine ⟨{ n with state := t, stack := rest }, ?_, rfl, hskip, ?_⟩
    · simp [Machine.perform, ← hstack, hp, ht, bind, Except.bind]
    · intro g hg
      simp only [State.read_setWord hs, State.read_setWord ht]
      split
      · rfl
      · rename_i hne
        exact hstate g (hg.resolve_right (by simpa [Action.pulls] using Ne.symm hne))
  | pullVec f =>
    obtain ⟨⟨v, rest⟩, hp, hm⟩ := bind_eq_ok.1 hm
    obtain ⟨s, hs, hm⟩ := bind_eq_ok.1 hm
    cases hm
    obtain ⟨t, ht⟩ := State.setQuad_isOk_iff (s := n.state) (v := v) |>.2 (State.setQuad_isOk_iff.1 ⟨s, hs⟩)
    refine ⟨{ n with state := t, stack := rest }, ?_, rfl, hskip, ?_⟩
    · simp [Machine.perform, ← hstack, hp, ht, bind, Except.bind]
    · intro g hg
      simp only [State.read_setQuad hs, State.read_setQuad ht]
      split
      · rfl
      · rename_i hne
        exact hstate g (hg.resolve_right (by simpa [Action.pulls] using Ne.symm hne))
  | const w =>
    cases hm
    exact ⟨_, rfl, by simp [hstack], hskip, hkeep⟩
  | add | addVec =>
    obtain ⟨⟨b, rest⟩, hb, hm⟩ := bind_eq_ok.1 hm
    obtain ⟨⟨a, rest'⟩, ha, hm⟩ := bind_eq_ok.1 hm
    cases hm
    simp only [Machine.perform, ← hstack, hb, ha, bind, Except.bind]
    exact ⟨_, rfl, rfl, hskip, hkeep⟩
  | enter c =>
    obtain ⟨⟨b, rest⟩, hb, hm⟩ := bind_eq_ok.1 hm
    obtain ⟨⟨a, rest'⟩, ha, hm⟩ := bind_eq_ok.1 hm
    cases hm
    simp only [Machine.perform, ← hstack, hb, ha, bind, Except.bind]
    exact ⟨_, rfl, rfl, rfl, hkeep⟩
  | leave =>
    cases hm
    exact ⟨_, rfl, hstack, hskip, hkeep⟩

theorem Alike.perform {A : Field → Prop} {m n m' : Machine} {a : Action} (h : Alike A m n)
    (ha : ∀ f, (a.pushes f || a.pulls f) = true → A f) (hm : m.perform a = .ok m') :
    ∃ n', n.perform a = .ok n' ∧ Alike A m' n' := by
  obtain ⟨n', hn, h'⟩ := h.perform_written (fun f hf => ha f (by simp [hf])) hm
  exact ⟨n', hn, h'.mono fun _ => .inl⟩

theorem Alike.step {A : Field → Prop} {m n m' : Machine} {a : Action} (h : Alike A m n)
    (ha : ∀ f, (a.pushes f || a.pulls f) = true → A f) (hm : m.step a = .ok m') :
    ∃ n', n.step a = .ok n' ∧ Alike A m' n' := by
  by_cases hs : m.skip = 0
  · have hn : n.skip = 0 := h.skip ▸ hs
    simp only [Machine.step, hs, if_true] at hm
    simpa only [Machine.step, hn, if_true] using h.perform ha hm
  · have hn : n.skip ≠ 0 := h.skip ▸ hs
    simp only [Machine.step, hs, if_false, Except.ok.injEq] at hm
    subst hm
    refine ⟨n.skipped a, by simp only [Machine.step, hn, if_false], ?_⟩
    obtain ⟨hstack, hskip, hstate⟩ := h
    cases a <;> refine ⟨hstack, ?_, hstate⟩ <;> simp [skipped, hskip]

theorem Alike.exec {A : Field → Prop} {m n m' : Machine} {code : Code} (h : Alike A m n)
    (hc : ∀ f, code.mentions f = true → A f) (hm : m.exec code = .ok m') :
    ∃ n', n.exec code = .ok n' ∧ Alike A m' n' := by
  induction code generalizing m n with
  | nil =>
    cases hm
    exact ⟨n, rfl, h⟩
  | cons a code ih =>
    rw [exec_cons, bind_eq_ok] at hm
    obtain ⟨k, hk, hm⟩ := hm
    obtain ⟨l, hl, hkl⟩ := h.step (fun f hf => hc f (by simp [Code.mentions_cons, hf])) hk
    obtain ⟨n', hn, h'⟩ := ih hkl (fun f hf => hc f (by simp [Code.mentions_cons, hf])) hm
    refine ⟨n', ?_, h'⟩
    rw [exec_cons, hl]
    exact hn

theorem finish_eq_ok_iff {m : Machine} {t : State} : m.finish = .ok t ↔ m = .start t := by
  obtain ⟨state, stack, skip⟩ := m
  by_cases hs : skip = 0 <;> cases stack <;> simp [finish, start, hs]

end Machine

namespace Code

theorem run_eq_ok_iff {code : Code} {s t : State} :
    code.run s = .ok t ↔ (Machine.start s).exec code = .ok (.start t) := by
  simp only [run, bind_eq_ok, Machine.finish_eq_ok_iff, exists_eq_right]

@[simp] theorem run_nil (s : State) : run [] s = .ok s := rfl

theorem run_append {x y : Code} {s t : State} (h : x.run s = .ok t) : (x ++ y).run s = y.run t := by
  rw [run_eq_ok_iff] at h
  simp [run, Machine.exec_append, h, bind, Except.bind]

theorem read_run {code : Code} {s t : State} {f : Field} (h : code.run s = .ok t)
    (hf : code.pulls f = false) : t.read f = s.read f :=
  Machine.read_exec (run_eq_ok_iff.1 h) hf

theorem run_agree {A : Field → Prop} {code : Code} {s t s' : State} (h : s.Agree A t)
    (hc : ∀ f, code.mentions f = true → A f) (hs : code.run s = .ok s') :
    ∃ t', code.run t = .ok t' ∧ s'.Agree A t' := by
  have hm : Machine.Alike A (.start s) (.start t) := ⟨rfl, rfl, h⟩
  obtain ⟨n, hn, hsame⟩ := hm.exec hc (run_eq_ok_iff.1 hs)
  refine ⟨n.state, ?_, hsame.state⟩
  rw [run_eq_ok_iff, hn, hsame.eq_start]
  rfl

theorem run_move (s : State) {dest src : Field} (hw : dest.width = src.width) (hd : dest.Valid)
    (hs : src.Valid) :
    ∃ t, (move dest src).run s = .ok t ∧ ∀ f, t.read f = if f = dest then s.read src else s.read f := by
  cases h : src.width with
  | word =>
    obtain ⟨w, hr⟩ := s.exists_word_of_valid hs h
    obtain ⟨t, ht⟩ := State.setWord_isOk_iff (s := s) (w := w) |>.2 ⟨hd, hw.trans h⟩
    refine ⟨t, ?_, fun f => by rw [State.read_setWord ht, hr]⟩
    have hword := State.word_eq_ok_iff.2 hr
    simp [run_eq_ok_iff, move, h, Machine.step, Machine.perform, Machine.start, Machine.popWord, hword, ht,
      bind, Except.bind]
  | quad =>
    obtain ⟨v, hr⟩ := s.exists_quad_of_valid hs h
    obtain ⟨t, ht⟩ := State.setQuad_isOk_iff (s := s) (v := v) |>.2 ⟨hd, hw.trans h⟩
    refine ⟨t, ?_, fun f => by rw [State.read_setQuad ht, hr]⟩
    have hquad := State.quad_eq_ok_iff.2 hr
    simp [run_eq_ok_iff, move, h, Machine.step, Machine.perform, Machine.start, Machine.popQuad, hquad, ht,
      bind, Except.bind]

/-- Code that needs nothing on the stack, leaves nothing there, closes its regions, and runs
whatever the state is. -/
structure SelfContained (code : Code) : Prop where
  balanced : Shape.empty.follow code = .ok .empty
  runs : ∀ s : State, ∃ t, code.run s = .ok t

end Code

end DualIssue
