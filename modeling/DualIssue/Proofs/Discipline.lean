import DualIssue.Code.Draft
import DualIssue.Proofs.Regions

/-!
What the stack discipline is worth when code runs. A run may skip any region, while a draft is
followed straight through, remembering only how deep the stack was where each region began. So the
stack is always as deep as it should be, but a region that leaves other widths than it found is let
through, and whoever skips it finds words for vectors. Main statement: accepted code runs whichever
regions are entered or skipped, exactly if every region leaves the widths that it found.
-/

set_option autoImplicit false

namespace DualIssue

def Value.width : Value → Width
  | .word _ => .word
  | .quad _ => .quad

namespace Action

def takes : Action → List Width
  | .pull _ => [.word]
  | .pullVec _ => [.quad]
  | .add | .enter _ => [.word, .word]
  | .addVec => [.quad, .quad]
  | .push _ | .pushVec _ | .const _ | .leave => []

def gives : Action → List Width
  | .push _ | .const _ | .add => [.word]
  | .pushVec _ | .addVec => [.quad]
  | .pull _ | .pullVec _ | .enter _ | .leave => []

def InPlace : Action → Prop
  | .push f | .pull f => f.Valid ∧ f.width = .word
  | .pushVec f | .pullVec f => f.Valid ∧ f.width = .quad
  | .const _ | .add | .addVec | .enter _ | .leave => True

/-- How the action changes what is remembered of the open regions, if `top` is what it leaves on the
stack: the start of a region remembers it, and the end of a region expects it. -/
def Remembers {α : Type} (a : Action) (top : α) (before after : List α) : Prop :=
  match a with
  | .enter _ => after = top :: before
  | .leave => before = top :: after
  | _ => after = before

end Action

/-- What is on the stack where `k` regions are being skipped: what is there now, or what was there
where the outermost of them began. -/
def level {α : Type} (top : α) (regions : List α) : Nat → Option α
  | 0 => some top
  | k + 1 => regions[k]?

namespace Shape

theorem popped_eq_ok_iff {s t : Shape} {w : Width} :
    s.popped w = .ok t ↔ s.stack = w :: t.stack ∧ t.regions = s.regions := by
  obtain ⟨stack, regions⟩ := s
  obtain ⟨stack', regions'⟩ := t
  cases stack with
  | nil => simp [popped]
  | cons v rest =>
    by_cases hv : v = w
    · simp only [popped, hv, if_true, Except.ok.injEq, mk.injEq, List.cons.injEq, true_and]
      constructor
      · rintro ⟨h1, h2⟩
        exact ⟨h1, h2.symm⟩
      · rintro ⟨h1, h2⟩
        exact ⟨h1, h2.symm⟩
    · simp [popped, hv]

theorem require_eq_ok_iff {f : Field} {w : Width} : require f w = .ok () ↔ f.width = w := by
  by_cases h : f.width = w <;> simp [require, h]

theorem stack_of_step {s t : Shape} {a : Action} (h : s.step a = .ok t) :
    ∃ rest, s.stack = a.takes ++ rest ∧ t.stack = a.gives ++ rest ∧
      a.Remembers t.stack.length s.regions t.regions := by
  cases a with
  | push f | pushVec f =>
    obtain ⟨_, -, h⟩ := bind_eq_ok.1 h
    cases h
    exact ⟨s.stack, rfl, rfl, rfl⟩
  | pull f | pullVec f =>
    obtain ⟨_, -, h⟩ := bind_eq_ok.1 h
    obtain ⟨hs, hr⟩ := popped_eq_ok_iff.1 h
    exact ⟨t.stack, hs, rfl, hr⟩
  | const w =>
    cases h
    exact ⟨s.stack, rfl, rfl, rfl⟩
  | add | addVec =>
    obtain ⟨u, hu, h⟩ := bind_eq_ok.1 h
    obtain ⟨v, hv, h⟩ := bind_eq_ok.1 h
    cases h
    obtain ⟨hsu, hru⟩ := popped_eq_ok_iff.1 hu
    obtain ⟨hsv, hrv⟩ := popped_eq_ok_iff.1 hv
    exact ⟨v.stack, by rw [hsu, hsv]; rfl, rfl, hrv.trans hru⟩
  | enter c =>
    obtain ⟨u, hu, h⟩ := bind_eq_ok.1 h
    obtain ⟨v, hv, h⟩ := bind_eq_ok.1 h
    cases h
    obtain ⟨hsu, hru⟩ := popped_eq_ok_iff.1 hu
    obtain ⟨hsv, hrv⟩ := popped_eq_ok_iff.1 hv
    exact ⟨v.stack, by rw [hsu, hsv]; rfl, rfl, congrArg _ (hrv.trans hru)⟩
  | leave =>
    simp only [step] at h
    split at h
    · cases h
    · rename_i depth rest hr
      split at h
      · rename_i hd
        cases h
        exact ⟨s.stack, rfl, rfl, by rw [hr, hd]; rfl⟩
      · cases h

theorem inPlace_of_step {s t : Shape} {a : Action} (h : s.step a = .ok t)
    (hv : ∀ f, (a.pushes f || a.pulls f) = true → f.Valid) : a.InPlace := by
  cases a with
  | push f | pushVec f | pull f | pullVec f =>
    obtain ⟨_, hr, -⟩ := bind_eq_ok.1 h
    exact ⟨hv f (by simp [Action.pushes, Action.pulls]), require_eq_ok_iff.1 hr⟩
  | const w | add | addVec | enter c | leave => trivial

end Shape

theorem Action.Remembers.level_skipped {α : Type} {a : Action} {top top' v : α} {before after : List α}
    (h : a.Remembers top' before after) {m : Machine} (hs : m.skip ≠ 0)
    (hv : level top before m.skip = some v) : level top' after (m.skipped a).skip = some v := by
  obtain ⟨state, stack, k⟩ := m
  cases k with
  | zero => exact absurd rfl hs
  | succ k =>
    cases a with
    | enter c =>
      cases h
      exact hv
    | leave =>
      cases h
      cases k with
      | zero => exact hv
      | succ k => exact hv
    | _ =>
      cases h
      exact hv

namespace Machine

def widths (m : Machine) : List Width := m.stack.map Value.width

@[simp] theorem length_widths (m : Machine) : m.widths.length = m.stack.length := List.length_map _

theorem skip_of_perform {m n : Machine} {a : Action} (hm : m.skip = 0) (h : m.perform a = .ok n) :
    n.skip = 0 ∨ n.skip = 1 ∧ a.opens = true := by
  cases a with
  | push f | pushVec f =>
    obtain ⟨w, -, h⟩ := bind_eq_ok.1 h
    cases h
    exact .inl hm
  | pull f | pullVec f =>
    obtain ⟨⟨w, rest⟩, -, h⟩ := bind_eq_ok.1 h
    obtain ⟨t, -, h⟩ := bind_eq_ok.1 h
    cases h
    exact .inl hm
  | const w | leave =>
    cases h
    exact .inl hm
  | add | addVec =>
    obtain ⟨⟨b, rest⟩, -, h⟩ := bind_eq_ok.1 h
    obtain ⟨⟨a, rest'⟩, -, h⟩ := bind_eq_ok.1 h
    cases h
    exact .inl hm
  | enter c =>
    obtain ⟨⟨b, rest⟩, -, h⟩ := bind_eq_ok.1 h
    obtain ⟨⟨a, rest'⟩, -, h⟩ := bind_eq_ok.1 h
    cases h
    by_cases hc : c.holds a b
    · exact .inl (by simp [hc])
    · exact .inr (by simp [hc, Action.opens])

theorem level_performed {α : Type} {m n : Machine} {a : Action} {top : α} {before after : List α}
    (hr : a.Remembers top before after) (hm : m.skip = 0) (h : m.perform a = .ok n) :
    level top after n.skip = some top := by
  obtain h0 | ⟨h1, ho⟩ := skip_of_perform hm h
  · rw [h0]
    rfl
  · rw [h1]
    cases a with
    | enter c =>
      cases hr
      rfl
    | _ => cases ho

theorem popWord_eq_ok_iff {stack rest : List Value} {w : Word} :
    popWord stack = .ok (w, rest) ↔ stack = .word w :: rest := by
  cases stack with
  | nil => simp [popWord]
  | cons v stack => cases v <;> simp [popWord]

theorem popQuad_eq_ok_iff {stack rest : List Value} {v : Quad} :
    popQuad stack = .ok (v, rest) ↔ stack = .quad v :: rest := by
  cases stack with
  | nil => simp [popQuad]
  | cons v stack => cases v <;> simp [popQuad]

theorem widths_of_perform {m n : Machine} {a : Action} (h : m.perform a = .ok n) :
    ∃ rest, m.widths = a.takes ++ rest ∧ n.widths = a.gives ++ rest := by
  cases a with
  | push f | pushVec f =>
    obtain ⟨w, -, h⟩ := bind_eq_ok.1 h
    cases h
    exact ⟨m.widths, rfl, rfl⟩
  | pull f =>
    obtain ⟨⟨w, rest⟩, hp, h⟩ := bind_eq_ok.1 h
    obtain ⟨t, -, h⟩ := bind_eq_ok.1 h
    cases h
    exact ⟨rest.map Value.width, by rw [widths, popWord_eq_ok_iff.1 hp]; rfl, rfl⟩
  | pullVec f =>
    obtain ⟨⟨v, rest⟩, hp, h⟩ := bind_eq_ok.1 h
    obtain ⟨t, -, h⟩ := bind_eq_ok.1 h
    cases h
    exact ⟨rest.map Value.width, by rw [widths, popQuad_eq_ok_iff.1 hp]; rfl, rfl⟩
  | const w | leave =>
    cases h
    exact ⟨m.widths, rfl, rfl⟩
  | add | enter c =>
    obtain ⟨⟨b, rest⟩, hb, h⟩ := bind_eq_ok.1 h
    obtain ⟨⟨a, rest'⟩, ha, h⟩ := bind_eq_ok.1 h
    cases h
    exact ⟨rest'.map Value.width, by
      rw [widths, popWord_eq_ok_iff.1 hb, popWord_eq_ok_iff.1 ha]; rfl, rfl⟩
  | addVec =>
    obtain ⟨⟨b, rest⟩, hb, h⟩ := bind_eq_ok.1 h
    obtain ⟨⟨a, rest'⟩, ha, h⟩ := bind_eq_ok.1 h
    cases h
    exact ⟨rest'.map Value.width, by
      rw [widths, popQuad_eq_ok_iff.1 hb, popQuad_eq_ok_iff.1 ha]; rfl, rfl⟩

end Machine

def Fault.MixesWidths (f : Fault) : Prop := f = .expectedWord ∨ f = .expectedQuad

namespace Machine

theorem popWord_ends {stack : List Value} (h : stack ≠ []) :
    Ends (fun p => stack = .word p.1 :: p.2)
      (fun f => f.MixesWidths ∧ ∀ rest, stack.map Value.width ≠ .word :: rest) (popWord stack) := by
  cases stack with
  | nil => exact absurd rfl h
  | cons v rest =>
    cases v with
    | word w => exact rfl
    | quad v => exact ⟨.inl rfl, by simp [Value.width]⟩

theorem popQuad_ends {stack : List Value} (h : stack ≠ []) :
    Ends (fun p => stack = .quad p.1 :: p.2)
      (fun f => f.MixesWidths ∧ ∀ rest, stack.map Value.width ≠ .quad :: rest) (popQuad stack) := by
  cases stack with
  | nil => exact absurd rfl h
  | cons v rest =>
    cases v with
    | word w => exact ⟨.inr rfl, by simp [Value.width]⟩
    | quad v => exact rfl

/-- Where the stack is deep enough, an action goes through unless it finds other widths than it
takes. -/
theorem perform_ends {m : Machine} {a : Action} (ha : a.InPlace)
    (hd : a.takes.length ≤ m.stack.length) :
    Ends (fun _ => True) (fun f => f.MixesWidths ∧ ∀ rest, m.widths ≠ a.takes ++ rest)
      (m.perform a) := by
  have below : ∀ {v : Value} {rest : List Value}, m.stack = v :: rest → 2 ≤ m.stack.length →
      rest ≠ [] := by
    intro v rest hs h2 hn
    simp [hs, hn] at h2
  cases a with
  | push f =>
    obtain ⟨w, hw⟩ := m.state.exists_word_of_valid ha.1 ha.2
    exact .of_ok (a := { m with stack := .word w :: m.stack })
      (by simp [perform, State.word_eq_ok_iff.2 hw, bind, Except.bind]) trivial
  | pushVec f =>
    obtain ⟨v, hv⟩ := m.state.exists_quad_of_valid ha.1 ha.2
    exact .of_ok (a := { m with stack := .quad v :: m.stack })
      (by simp [perform, State.quad_eq_ok_iff.2 hv, bind, Except.bind]) trivial
  | pull f =>
    refine (popWord_ends (List.ne_nil_of_length_pos hd)).bind fun p hp => ?_
    obtain ⟨t, ht⟩ := State.setWord_isOk_iff (s := m.state) (w := p.1) |>.2 ha
    exact .of_ok (a := { m with state := t, stack := p.2 }) (by simp [ht, bind, Except.bind]) trivial
  | pullVec f =>
    refine (popQuad_ends (List.ne_nil_of_length_pos hd)).bind fun p hp => ?_
    obtain ⟨t, ht⟩ := State.setQuad_isOk_iff (s := m.state) (v := p.1) |>.2 ha
    exact .of_ok (a := { m with state := t, stack := p.2 }) (by simp [ht, bind, Except.bind]) trivial
  | const w | leave => exact trivial
  | add | enter c =>
    have htop := popWord_ends (List.ne_nil_of_length_pos (Nat.lt_of_succ_lt hd))
    refine (htop.imp_error fun f hf => ⟨hf.1, fun rest => hf.2 _⟩).bind fun p hp => ?_
    refine ((popWord_ends (below hp hd)).imp_error fun f hf => ⟨hf.1, fun rest hr => ?_⟩).bind
      fun q hq => trivial
    rw [widths, hp] at hr
    exact hf.2 rest (List.cons.inj hr).2
  | addVec =>
    have htop := popQuad_ends (List.ne_nil_of_length_pos (Nat.lt_of_succ_lt hd))
    refine (htop.imp_error fun f hf => ⟨hf.1, fun rest => hf.2 _⟩).bind fun p hp => ?_
    refine ((popQuad_ends (below hp hd)).imp_error fun f hf => ⟨hf.1, fun rest hr => ?_⟩).bind
      fun q hq => trivial
    rw [widths, hp] at hr
    exact hf.2 rest (List.cons.inj hr).2

theorem exists_perform {m : Machine} {a : Action} {rest : List Width} (ha : a.InPlace)
    (hw : m.widths = a.takes ++ rest) : ∃ n, m.perform a = .ok n ∧ n.widths = a.gives ++ rest := by
  have hd : a.takes.length ≤ m.stack.length := by
    rw [← length_widths, hw, List.length_append]
    omega
  cases hn : m.perform a with
  | error f => exact absurd hw (((perform_ends ha hd).error hn).2 rest)
  | ok n =>
    obtain ⟨rest', h1, h2⟩ := widths_of_perform hn
    rw [hw] at h1
    exact ⟨n, rfl, by rw [h2, List.append_cancel_left h1]⟩

@[simp] theorem stack_skipped (m : Machine) (a : Action) : (m.skipped a).stack = m.stack := by
  cases a <;> rfl

theorem step_of_skip {m : Machine} (h : m.skip ≠ 0) (a : Action) : m.step a = .ok (m.skipped a) := by
  simp only [step, h, if_false]

theorem step_of_skip_zero {m : Machine} (h : m.skip = 0) (a : Action) : m.step a = m.perform a := by
  simp only [step, h, if_true]

def DeepAs (m : Machine) (s : Shape) : Prop :=
  level s.stack.length s.regions m.skip = some m.stack.length

theorem DeepAs.step {m : Machine} {s t : Shape} {a : Action} (h : m.DeepAs s) (hs : s.step a = .ok t)
    (ha : a.InPlace) : Ends (·.DeepAs t) Fault.MixesWidths (m.step a) := by
  obtain ⟨rest, hbefore, hafter, hr⟩ := Shape.stack_of_step hs
  by_cases hk : m.skip = 0
  · have hdepth : s.stack.length = m.stack.length := by
      rw [DeepAs, hk] at h
      exact Option.some.inj h
    rw [step_of_skip_zero hk]
    cases hn : m.perform a with
    | error f =>
      rw [hbefore, List.length_append] at hdepth
      exact ((perform_ends ha (by omega)).error hn).1
    | ok n =>
      obtain ⟨rest', h1, h2⟩ := widths_of_perform hn
      have hlength : n.stack.length = t.stack.length := by
        have h1' := congrArg List.length h1
        have h2' := congrArg List.length h2
        simp only [length_widths, List.length_append, hbefore, hafter] at *
        omega
      show level t.stack.length t.regions n.skip = some n.stack.length
      rw [hlength]
      exact level_performed hr hk hn
  · rw [step_of_skip hk]
    show level t.stack.length t.regions (m.skipped a).skip = some (m.skipped a).stack.length
    rw [stack_skipped]
    exact hr.level_skipped hk h

theorem DeepAs.exec {m : Machine} {s t : Shape} {code : Code} (h : m.DeepAs s)
    (hs : s.follow code = .ok t) (hv : ∀ f, code.mentions f = true → f.Valid) :
    Ends (·.DeepAs t) Fault.MixesWidths (m.exec code) := by
  induction code generalizing m s with
  | nil =>
    cases hs
    exact h
  | cons a code ih =>
    obtain ⟨u, hu, hs⟩ := bind_eq_ok.1 hs
    have ha : a.InPlace := Shape.inPlace_of_step hu fun f hf => hv f (by simp [Code.mentions_cons, hf])
    rw [exec_cons]
    exact (h.step hu ha).bind fun n hn =>
      ih hn hs fun f hf => hv f (by simp [Code.mentions_cons, hf])

theorem eq_start_of_deepAs_empty {m : Machine} (h : m.DeepAs .empty) : m = .start m.state := by
  obtain ⟨state, stack, skip⟩ := m
  cases skip with
  | zero =>
    have hs : stack = [] := List.length_eq_zero_iff.1 (Option.some.inj h).symm
    rw [hs]
    rfl
  | succ k => simp [DeepAs, Shape.empty, level] at h

end Machine

/-- A shape that also remembers the widths below each open region, not only how many there are. -/
structure Layout where
  stack : List Width
  regions : List (List Width)
  deriving DecidableEq, Repr

namespace Layout

def empty : Layout := ⟨[], []⟩

def shape (l : Layout) : Shape := ⟨l.stack, l.regions.map List.length⟩

def step (l : Layout) (a : Action) : Except Fault Layout := do
  let s ← l.shape.step a
  match a, l.regions with
  | .enter _, regions => .ok ⟨s.stack, s.stack :: regions⟩
  | .leave, found :: regions =>
    if found = s.stack then .ok ⟨s.stack, regions⟩ else .error .unbalancedRegion
  | _, regions => .ok ⟨s.stack, regions⟩

def follow (l : Layout) (code : Code) : Except Fault Layout := code.foldlM step l

theorem of_step {l l' : Layout} {a : Action} (h : l.step a = .ok l') :
    l.shape.step a = .ok l'.shape ∧ a.Remembers l'.stack l.regions l'.regions := by
  obtain ⟨s, hs, h⟩ := bind_eq_ok.1 h
  obtain ⟨rest, -, -, hr⟩ := Shape.stack_of_step hs
  obtain ⟨stack, regions⟩ := s
  cases a with
  | leave =>
    cases hl : l.regions with
    | nil => simp [Action.Remembers, shape, hl] at hr
    | cons found below =>
      by_cases hf : found = stack
      · simp only [hl, hf, if_true, Except.ok.injEq] at h
        subst h
        simp only [Action.Remembers, shape, hl, List.map_cons, List.cons.injEq] at hr
        rw [hs, ← hr.2, hf]
        exact ⟨rfl, rfl⟩
      · simp [hl, hf] at h
  | enter c =>
    cases h
    have hregions : regions = stack.length :: l.shape.regions := hr
    subst hregions
    exact ⟨hs, rfl⟩
  | _ =>
    cases h
    have hregions : regions = l.shape.regions := hr
    subst hregions
    exact ⟨hs, rfl⟩

theorem step_isOk_or {l : Layout} {s : Shape} {a : Action} (h : l.shape.step a = .ok s) :
    (∃ l', l.step a = .ok l') ∨
      ∃ found below, a = .leave ∧ l.regions = found :: below ∧ found ≠ s.stack := by
  cases a with
  | leave =>
    cases hl : l.regions with
    | nil => exact .inl ⟨⟨s.stack, []⟩, by simp [step, h, hl, bind, Except.bind]⟩
    | cons found below =>
      by_cases hf : found = s.stack
      · exact .inl ⟨⟨s.stack, below⟩, by simp [step, h, hl, hf, bind, Except.bind]⟩
      · exact .inr ⟨found, below, rfl, rfl, hf⟩
  | enter c => exact .inl ⟨⟨s.stack, s.stack :: l.regions⟩, by simp [step, h, bind, Except.bind]⟩
  | _ => exact .inl ⟨⟨s.stack, l.regions⟩, by simp [step, h, bind, Except.bind]⟩

theorem shape_of_follow {l l' : Layout} {code : Code} (h : l.follow code = .ok l') :
    l.shape.follow code = .ok l'.shape := by
  induction code generalizing l with
  | nil =>
    cases h
    rfl
  | cons a code ih =>
    obtain ⟨u, hu, h⟩ := bind_eq_ok.1 h
    rw [Shape.follow_cons, (of_step hu).1]
    exact ih h

theorem eq_empty_of_shape {l : Layout} (h : l.shape = .empty) : l = .empty := by
  obtain ⟨stack, regions⟩ := l
  simp only [shape, Shape.empty, Shape.mk.injEq, List.map_eq_nil_iff] at h
  rw [h.1, h.2]
  rfl

end Layout

namespace Machine

def Fits (m : Machine) (l : Layout) : Prop := level l.stack l.regions m.skip = some m.widths

theorem Fits.step {m : Machine} {l l' : Layout} {a : Action} (h : m.Fits l) (hl : l.step a = .ok l')
    (ha : a.InPlace) : ∃ n, m.step a = .ok n ∧ n.Fits l' := by
  obtain ⟨hshape, hr⟩ := Layout.of_step hl
  obtain ⟨rest, hbefore, hafter, -⟩ := Shape.stack_of_step hshape
  by_cases hk : m.skip = 0
  · have hw : m.widths = a.takes ++ rest := by
      rw [Fits, hk] at h
      exact (Option.some.inj h).symm.trans hbefore
    obtain ⟨n, hn, hnw⟩ := exists_perform ha hw
    refine ⟨n, by rw [step_of_skip_zero hk, hn], ?_⟩
    have hsame : n.widths = l'.stack := hnw.trans hafter.symm
    rw [Fits, hsame]
    exact level_performed hr hk hn
  · refine ⟨m.skipped a, step_of_skip hk a, ?_⟩
    rw [Fits, widths, stack_skipped]
    exact hr.level_skipped hk h

theorem Fits.exec {m : Machine} {l l' : Layout} {code : Code} (h : m.Fits l)
    (hl : l.follow code = .ok l') (hv : ∀ f, code.mentions f = true → f.Valid) :
    ∃ n, m.exec code = .ok n ∧ n.Fits l' := by
  induction code generalizing m l with
  | nil =>
    cases hl
    exact ⟨m, rfl, h⟩
  | cons a code ih =>
    obtain ⟨u, hu, hl⟩ := bind_eq_ok.1 hl
    have ha : a.InPlace := Shape.inPlace_of_step (Layout.of_step hu).1 fun f hf =>
      hv f (by simp [Code.mentions_cons, hf])
    obtain ⟨n, hn, hfits⟩ := h.step hu ha
    rw [exec_cons, hn]
    exact ih hfits hl fun f hf => hv f (by simp [Code.mentions_cons, hf])

theorem Fits.deepAs {m : Machine} {l : Layout} (h : m.Fits l) : m.DeepAs l.shape := by
  obtain ⟨state, stack, skip⟩ := m
  cases skip with
  | zero =>
    have hw := congrArg List.length (Option.some.inj h)
    rw [length_widths] at hw
    exact congrArg some hw
  | succ k =>
    have hw : l.regions[k]? = some _ := h
    simp [DeepAs, level, Layout.shape, hw]

end Machine

namespace Code

/-- Accepted code finds the stack deep enough and leaves nothing there, whichever regions it skips:
only a width can be wrong. -/
theorem run_ends {code : Code} (h : Shape.empty.follow code = .ok .empty)
    (hv : ∀ f, code.mentions f = true → f.Valid) (s : State) :
    Ends (fun _ => True) Fault.MixesWidths (code.run s) := by
  have hstart : (Machine.start s).DeepAs .empty := rfl
  refine (hstart.exec h hv).bind fun n hn => ?_
  rw [Machine.eq_start_of_deepAs_empty hn]
  exact trivial

/-- Code that follows the discipline from nothing to nothing, widths included, and names only fields
that exist. -/
structure Disciplined (code : Code) : Prop where
  follows : Layout.empty.follow code = .ok .empty
  valid : ∀ f, code.mentions f = true → f.Valid

theorem Disciplined.selfContained {code : Code} (h : code.Disciplined) : code.SelfContained where
  balanced := Layout.shape_of_follow h.follows
  runs s := by
    have hstart : (Machine.start s).Fits .empty := rfl
    obtain ⟨n, hn, hfits⟩ := hstart.exec h.follows h.valid
    rw [Machine.eq_start_of_deepAs_empty hfits.deepAs] at hn
    exact ⟨n.state, run_eq_ok_iff.2 hn⟩

end Code

end DualIssue
