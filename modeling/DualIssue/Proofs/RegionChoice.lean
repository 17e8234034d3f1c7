import DualIssue.Proofs.Discipline

set_option autoImplicit false

namespace DualIssue

def Action.plain : Action → Action
  | .enter _ => .enter .eq
  | a => a

namespace Code

/-- The same code but for the conditions of its regions. -/
def Variant (x y : Code) : Prop := x.map Action.plain = y.map Action.plain

/-- Whether every region leaves the widths that it found. -/
def keepsWidths (code : Code) : Bool := (Layout.empty.follow code).isOk

theorem Variant.append {x y x' y' : Code} (h : Variant x y) (h' : Variant x' y') :
    Variant (x ++ x') (y ++ y') := by
  rw [Variant, List.map_append, List.map_append, h, h']

theorem Variant.cons {a b : Action} {x y : Code} (ha : a.plain = b.plain) (h : Variant x y) :
    Variant (a :: x) (b :: y) := by
  rw [Variant, List.map_cons, List.map_cons, ha, h]

theorem mentions_map_plain (code : Code) (f : Field) :
    mentions (code.map Action.plain) f = code.mentions f := by
  induction code with
  | nil => rfl
  | cons a code ih =>
    rw [List.map_cons, mentions_cons, mentions_cons, ih]
    cases a <;> rfl

theorem Variant.mentions_eq {x y : Code} (h : Variant x y) (f : Field) : x.mentions f = y.mentions f := by
  rw [← mentions_map_plain x, h, mentions_map_plain]

end Code

theorem Shape.follow_map_plain (s : Shape) (code : Code) :
    s.follow (code.map Action.plain) = s.follow code := by
  have hstep : ∀ (s : Shape) (a : Action), s.step a.plain = s.step a := by
    intro s a
    cases a <;> rfl
  simp only [follow, List.foldlM_map, hstep]

theorem Layout.follow_map_plain (l : Layout) (code : Code) :
    l.follow (code.map Action.plain) = l.follow code := by
  have hstep : ∀ (l : Layout) (a : Action), l.step a.plain = l.step a := by
    intro l a
    cases a <;> rfl
  simp only [follow, List.foldlM_map, hstep]

namespace Machine

theorem takes_of_plain {a b : Action} (h : a.plain = b.plain) : a.takes = b.takes ∧ a.gives = b.gives := by
  have htakes : ∀ a : Action, a.plain.takes = a.takes ∧ a.plain.gives = a.gives := by
    intro a
    cases a <;> exact ⟨rfl, rfl⟩
  rw [← (htakes a).1, ← (htakes a).2, h]
  exact htakes b

theorem exists_condition (m : Machine) (skip : Nat) (hskip : skip = 0 ∨ skip = 1) :
    ∃ c, ∀ n, m.perform (.enter c) = .ok n → n.skip = skip := by
  cases hb : popWord m.stack with
  | error f => exact ⟨.eq, by simp [perform, hb, bind, Except.bind]⟩
  | ok p =>
    cases ha : popWord p.2 with
    | error f => exact ⟨.eq, by simp [perform, hb, ha, bind, Except.bind]⟩
    | ok q =>
      have hperform : ∀ c n, m.perform (.enter c) = .ok n →
          n.skip = if c.holds q.1 p.1 then 0 else 1 := by
        intro c n h
        simp only [perform, hb, ha, bind, Except.bind, Except.ok.injEq] at h
        rw [← h]
      by_cases hc : (if Condition.eq.holds q.1 p.1 then 0 else 1) = skip
      · exact ⟨.eq, fun n h => (hperform _ n h).trans hc⟩
      · refine ⟨.ne, fun n h => ?_⟩
        rw [hperform _ n h, Condition.holds_ne]
        cases hh : Condition.eq.holds q.1 p.1 <;> simp [hh] at hc ⊢ <;> omega

theorem exists_entering {m : Machine} (hm : m.skip = 0) (a : Action) :
    ∃ b : Action, a.plain = b.plain ∧ ∀ n, m.perform b = .ok n → n.skip = 0 := by
  cases a with
  | enter c =>
    obtain ⟨c', hc⟩ := m.exists_condition 0 (.inl rfl)
    exact ⟨.enter c', rfl, hc⟩
  | _ =>
    refine ⟨_, rfl, fun n hn => ?_⟩
    obtain h0 | ⟨-, ho⟩ := skip_of_perform hm hn
    · exact h0
    · cases ho

/-- A stack as deep as the shape says, but with other widths on it, makes some choice fault before
the stack is empty. -/
theorem exists_variant_fault {m : Machine} {s t : Shape} {code : Code} (hm : m.skip = 0)
    (hd : m.stack.length = s.stack.length) (hw : m.widths ≠ s.stack) (hs : s.follow code = .ok t)
    (ht : t.stack = []) : ∃ y f, code.Variant y ∧ m.exec y = .error f := by
  induction code generalizing m s with
  | nil =>
    cases hs
    rw [ht, List.length_nil] at hd
    rw [ht, widths, List.length_eq_zero_iff.1 hd] at hw
    exact absurd rfl hw
  | cons a code ih =>
    obtain ⟨u, hu, hs⟩ := bind_eq_ok.1 hs
    obtain ⟨rest, hbefore, hafter, -⟩ := Shape.stack_of_step hu
    obtain ⟨b, hab, hskip⟩ := exists_entering hm a
    cases hn : m.perform b with
    | error f =>
      refine ⟨b :: code, f, .cons hab rfl, ?_⟩
      rw [exec_cons, step_of_skip_zero hm, hn]
      rfl
    | ok n =>
      obtain ⟨rest', h1, h2⟩ := widths_of_perform hn
      rw [← (takes_of_plain hab).1] at h1
      rw [← (takes_of_plain hab).2] at h2
      have hne : rest' ≠ rest := by
        intro he
        rw [h1, hbefore, he] at hw
        exact hw rfl
      have hdepth : n.stack.length = u.stack.length := by
        have h1' := congrArg List.length h1
        have h2' := congrArg List.length h2
        simp only [length_widths, List.length_append, hbefore, hafter] at *
        omega
      obtain ⟨y, f, hy, hf⟩ := ih (hskip n hn) hdepth (by
        rw [h2, hafter]
        exact fun he => hne (List.append_cancel_left he)) hs
      refine ⟨b :: y, f, .cons hab hy, ?_⟩
      rw [exec_cons, step_of_skip_zero hm, hn]
      exact hf

end Machine

namespace Code

/-- After the code, every level of the layout is what some choice finds on the stack. -/
def Leads (code : Code) (s : State) (l : Layout) : Prop :=
  ∀ k found, level l.stack l.regions k = some found →
    ∃ y m, code.Variant y ∧ (Machine.start s).exec y = .ok m ∧ m.skip = k ∧ m.widths = found

theorem Leads.step {code : Code} {s : State} {l l' : Layout} {a : Action} (h : code.Leads s l)
    (hl : l.step a = .ok l') (ha : a.InPlace) : (code ++ [a]).Leads s l' := by
  obtain ⟨hshape, hr⟩ := Layout.of_step hl
  obtain ⟨rest, (hbefore : l.stack = _), (hafter : l'.stack = _), -⟩ := Shape.stack_of_step hshape
  obtain ⟨y, m, hy, hm, hskip, hw⟩ := h 0 l.stack rfl
  have extend : ∀ {y : Code} {m n : Machine} {b : Action}, code.Variant y → a.plain = b.plain →
      (Machine.start s).exec y = .ok m → m.step b = .ok n →
      ∃ y', (code ++ [a]).Variant y' ∧ (Machine.start s).exec y' = .ok n := by
    intro y m n b hy hab hm hn
    refine ⟨y ++ [b], hy.append (.cons hab rfl), ?_⟩
    rw [Machine.exec_append, hm]
    show m.exec [b] = .ok n
    rw [Machine.exec_cons, hn]
    rfl
  have performed : ∀ {b : Action}, a.plain = b.plain → b.InPlace →
      ∃ y' n, (code ++ [a]).Variant y' ∧ (Machine.start s).exec y' = .ok n ∧ m.perform b = .ok n ∧
        n.widths = l'.stack := by
    intro b hab hb
    rw [hbefore, (Machine.takes_of_plain hab).1] at hw
    obtain ⟨n, hn, hnw⟩ := Machine.exists_perform hb hw
    obtain ⟨y', hy', hexec⟩ := extend hy hab hm (by rw [Machine.step_of_skip_zero hskip, hn])
    exact ⟨y', n, hy', hexec, hn, by rw [hnw, hafter, (Machine.takes_of_plain hab).2]⟩
  have skipped : ∀ {k : Nat} {found : List Width}, l.regions[k]? = some found →
      ∃ (y' : Code) (n : Machine), (code ++ [a]).Variant y' ∧
        (Machine.start s).exec y' = .ok (n.skipped a) ∧ n.skip = k + 1 ∧ n.widths = found := by
    intro k found hk
    obtain ⟨y, n, hy, hn, hk, hw⟩ := h (k + 1) found hk
    obtain ⟨y', hy', hexec⟩ := extend hy rfl hn (Machine.step_of_skip (by omega) a)
    exact ⟨y', n, hy', hexec, hk, hw⟩
  intro k found hk
  cases a with
  | enter c =>
    have hregions : l'.regions = l'.stack :: l.regions := hr
    rw [hregions] at hk
    match k, hk with
    | 0, hk =>
      obtain ⟨c', hc⟩ := m.exists_condition 0 (.inl rfl)
      obtain ⟨y', n, hy', hexec, hn, hnw⟩ := performed (b := .enter c') rfl trivial
      exact ⟨y', n, hy', hexec, hc n hn, hnw.trans (Option.some.inj hk)⟩
    | 1, hk =>
      obtain ⟨c', hc⟩ := m.exists_condition 1 (.inr rfl)
      obtain ⟨y', n, hy', hexec, hn, hnw⟩ := performed (b := .enter c') rfl trivial
      exact ⟨y', n, hy', hexec, hc n hn, hnw.trans (Option.some.inj hk)⟩
    | k + 2, hk =>
      obtain ⟨y', n, hy', hexec, hn, hnw⟩ := skipped hk
      exact ⟨y', _, hy', hexec, by rw [Machine.skipped, hn], hnw⟩
  | leave =>
    have hregions : l.regions = l'.stack :: l'.regions := hr
    cases k with
    | zero =>
      obtain ⟨y', n, hy', hexec, hn, hnw⟩ := performed rfl ha
      cases hn
      exact ⟨y', m, hy', hexec, hskip, hnw.trans (Option.some.inj hk)⟩
    | succ k =>
      obtain ⟨y', n, hy', hexec, hn, hnw⟩ := skipped (k := k + 1) (by rw [hregions]; exact hk)
      exact ⟨y', _, hy', hexec, by rw [Machine.skipped, hn]; rfl, hnw⟩
  | _ =>
    have hregions : l'.regions = l.regions := hr
    cases k with
    | zero =>
      obtain ⟨y', n, hy', hexec, hn, hnw⟩ := performed rfl ha
      obtain h0 | ⟨-, ho⟩ := Machine.skip_of_perform hskip hn
      · exact ⟨y', n, hy', hexec, h0, hnw.trans (Option.some.inj hk)⟩
      · cases ho
    | succ k =>
      obtain ⟨y', n, hy', hexec, hn, hnw⟩ := skipped (k := k) (by rw [← hregions]; exact hk)
      exact ⟨y', _, hy', hexec, hn, hnw⟩

theorem Leads.follow_isOk_or_fault {before code : Code} {s : State} {l : Layout} (h : before.Leads s l)
    (hs : l.shape.follow code = .ok .empty) (hv : ∀ f, code.mentions f = true → f.Valid) :
    (∃ l', l.follow code = .ok l') ∨ ∃ y f, (before ++ code).Variant y ∧ y.run s = .error f := by
  induction code generalizing before l with
  | nil => exact .inl ⟨l, rfl⟩
  | cons a code ih =>
    obtain ⟨u, hu, hrest⟩ := bind_eq_ok.1 hs
    have ha : a.InPlace := Shape.inPlace_of_step hu fun f hf => hv f (by simp [mentions_cons, hf])
    obtain ⟨l', hl⟩ | ⟨found, below, rfl, hregions, hne⟩ := Layout.step_isOk_or hu
    · have hshape : l'.shape = u := Except.ok.inj ((Layout.of_step hl).1.symm.trans hu)
      have hnext := ih (h.step hl ha) (hshape ▸ hrest) fun f hf => hv f (by simp [mentions_cons, hf])
      rw [List.append_assoc] at hnext
      obtain ⟨l'', hl'⟩ | hfault := hnext
      · refine .inl ⟨l'', ?_⟩
        rw [Layout.follow, List.foldlM_cons, hl]
        exact hl'
      · exact .inr hfault
    · -- skip this region and no other: the widths at its start are still there at its end
      obtain ⟨y, m, hy, hm, hskip, hw⟩ := h 1 found (by rw [hregions]; rfl)
      obtain ⟨rest, (hbefore : l.stack = _), hafter, hr⟩ := Shape.stack_of_step hu
      have hdepth : (m.skipped .leave).stack.length = u.stack.length := by
        have hr' : l.shape.regions = u.stack.length :: u.regions := hr
        simp only [Layout.shape, hregions, List.map_cons, List.cons.injEq] at hr'
        rw [Machine.stack_skipped, ← Machine.length_widths, hw, hr'.1]
      obtain ⟨z, f, hz, hf⟩ := Machine.exists_variant_fault (m := m.skipped .leave)
        (by rw [Machine.skipped, hskip]) hdepth
        (by rw [Machine.widths, Machine.stack_skipped, ← Machine.widths, hw]; exact hne) hrest rfl
      refine .inr ⟨y ++ .leave :: z, f, hy.append (.cons rfl hz), ?_⟩
      have hexec : (Machine.start s).exec (y ++ .leave :: z) = .error f := by
        rw [Machine.exec_append, hm]
        show m.exec (.leave :: z) = .error f
        rw [Machine.exec_cons, Machine.step_of_skip (by omega)]
        exact hf
      rw [run, hexec]
      rfl

theorem keepsWidths_iff {code : Code} (h : Shape.empty.follow code = .ok .empty) :
    code.keepsWidths = true ↔ Layout.empty.follow code = .ok .empty := by
  cases hl : Layout.empty.follow code with
  | error f => simp [keepsWidths, hl, Except.isOk, Except.toBool]
  | ok l =>
    have hshape : l.shape = .empty := Except.ok.inj ((Layout.shape_of_follow hl).symm.trans h)
    simp [keepsWidths, hl, Except.isOk, Except.toBool, Layout.eq_empty_of_shape hshape]

end Code

theorem Draft.of_finish {d : Draft} {code : Code} (h : d.finish = .ok code) :
    code = d.code ∧ d.shape.regions = [] := by
  by_cases hr : d.shape.regions.isEmpty
  · simp only [finish, hr, if_true, Except.ok.injEq] at h
    exact ⟨h.symm, List.isEmpty_iff.1 hr⟩
  · simp [finish, hr] at h

/-- The code of a draft that was accepted and finished with an empty stack. Whichever regions are
entered, a run can fault only over a width, and no choice faults exactly if every region leaves the
widths that it found. -/
theorem recorded_runs_iff_keepsWidths {calls actions : Code} {d : Draft}
    (haccept : Draft.empty.emit calls = .ok d) (hempty : d.isStackEmpty = true)
    (hfinish : d.finish = .ok actions) (hvalid : ∀ f, calls.mentions f = true → f.Valid) :
    (∀ other, actions.Variant other → ∀ s f, other.run s = .error f →
      f = .expectedWord ∨ f = .expectedQuad) ∧
    ((∀ other, actions.Variant other → ∀ s, ∃ t, other.run s = .ok t) ↔
      actions.keepsWidths = true) := by
  obtain ⟨hfollow, hcode⟩ := Draft.emit_eq_ok_iff.1 haccept
  obtain ⟨hactions, hregions⟩ := Draft.of_finish hfinish
  rw [hcode] at hactions
  have hactions : actions = calls := hactions
  have hshape : d.shape = .empty := by
    cases hd : d.shape
    simp_all [Draft.isStackEmpty, Shape.empty]
  rw [← hactions, hshape] at hfollow
  rw [← hactions] at hvalid
  have hfollow : Shape.empty.follow actions = .ok .empty := hfollow
  have hvariant : ∀ {other : Code}, actions.Variant other → ∀ f, other.mentions f = true → f.Valid := by
    intro other hother f hf
    exact hvalid f (by rw [hother.mentions_eq, hf])
  constructor
  · intro other hother s f hf
    have hsame : Shape.empty.follow other = .ok .empty := by
      rw [← Shape.follow_map_plain, ← hother, Shape.follow_map_plain, hfollow]
    exact (Code.run_ends hsame (hvariant hother) s).error hf
  · rw [Code.keepsWidths_iff hfollow]
    constructor
    · intro hruns
      have hstart : Code.Leads [] .initial .empty := by
        intro k found hk
        cases k with
        | zero => exact ⟨[], _, rfl, rfl, rfl, Option.some.inj hk⟩
        | succ k => cases hk
      obtain ⟨l, hl⟩ | ⟨y, f, hy, hf⟩ := hstart.follow_isOk_or_fault hfollow hvalid
      · rw [← Code.keepsWidths_iff hfollow, Code.keepsWidths, hl]
        rfl
      · obtain ⟨t, ht⟩ := hruns y hy .initial
        rw [hf] at ht
        cases ht
    · intro hkeeps other hother
      have hsame : Layout.empty.follow other = .ok .empty := by
        rw [← Layout.follow_map_plain, ← hother, Layout.follow_map_plain, hkeeps]
      exact (Code.Disciplined.mk hsame (hvariant hother)).selfContained.runs

namespace Sample

def replacing : Code :=
  [.push (.vi 1), .const 0, .const 1, .enter .eq, .pull .i, .push .q, .leave, .pull (.vi 2)]

theorem replacing_runs : ∃ d, Draft.empty.emit replacing = .ok d ∧ d.isStackEmpty = true ∧
    d.finish = .ok replacing ∧ ∀ other, replacing.Variant other → ∀ s, ∃ t, other.run s = .ok t := by
  have hvalid : ∀ f, replacing.mentions f = true → f.Valid := by
    intro f hf
    simp [replacing, Code.mentions, Code.pushes, Code.pulls, Action.pushes, Action.pulls] at hf
    obtain (rfl | rfl) | rfl | rfl := hf <;> decide
  exact ⟨_, rfl, rfl, rfl, (recorded_runs_iff_keepsWidths rfl rfl rfl hvalid).2.2 rfl⟩

def widening : Code :=
  [.push (.vi 1), .const 0, .const 1, .enter .eq, .pull .i, .pushVec (.vf 1), .leave, .pullVec (.vf 2)]

/-- A draft accepts a region that takes a word and leaves a vector; a run that skips it finds the word. -/
theorem widening_faults : ∃ d, Draft.empty.emit widening = .ok d ∧ d.isStackEmpty = true ∧
    d.finish = .ok widening ∧ (∀ f, widening.mentions f = true → f.Valid) ∧
    widening.run .initial = .error .expectedQuad := by
  refine ⟨_, rfl, rfl, rfl, ?_, rfl⟩
  intro f hf
  simp [widening, Code.mentions, Code.pushes, Code.pulls, Action.pushes, Action.pulls] at hf
  obtain (rfl | rfl) | rfl | rfl := hf <;> decide

end Sample

end DualIssue
