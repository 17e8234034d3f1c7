import DualIssue.Proofs.Bracket

/-!
Both halves of a pair at once. Each runs from the state that the pair finds, and every field takes
its value from the half that writes it. Main statement: one half after the other, in brackets, comes
to the same, outside the places where values are set aside.
-/

set_option autoImplicit false

namespace DualIssue

def Field.isScratch : Field → Bool
  | .vfPreUp | .vfUpRes | .savedInt | .savedIntTemp => true
  | _ => false

def State.AgreeOutsideScratch (s t : State) : Prop := s.Agree (fun f => f.isScratch = false) t

namespace State

def showing (s : State) (old : Word) : Option Register → Except Fault State
  | some r => s.setWord (.vi r) old
  | none => .ok s

/-- Both halves from one state. The lower half sees the value `old` in the register shown to it, and
what it writes there is dropped. -/
def together (upper lower : Code) (shown : Option Register) (old : Word) (s : State) :
    Except Fault State := do
  let u ← upper.run s
  let seen ← s.showing old shown
  let l ← lower.run seen
  .ok (.overlay upper.pulls u (.overlay (fun f => lower.pulls f && !decide (f ∈ shown.map .vi)) l s))

variable {upper lower : Code} {shown : Option Register}

theorem exists_showing (s : State) (old : Word) (h : ∀ r ∈ shown, r.toNat < viCount) :
    ∃ t, s.showing old shown = .ok t ∧ (∀ g, g ∉ shown.map .vi → t.read g = s.read g) ∧
      ∀ r ∈ shown, t.read (.vi r) = .ok (.word old) := by
  cases shown with
  | none => exact ⟨s, rfl, by simp, by simp⟩
  | some r =>
    have hv : (Field.vi r).Valid := h r rfl
    obtain ⟨t, ht⟩ := setWord_isOk_iff (s := s) (w := old) |>.2 ⟨hv, rfl⟩
    refine ⟨t, ht, ?_, ?_⟩
    · intro g hg
      have hne : g ≠ .vi r := by
        rintro rfl
        simp at hg
      simp [read_setWord ht, hne]
    · rintro q ⟨⟩
      simp [read_setWord ht]

theorem exists_together {s u t l : State} {old : Word} (hu : upper.run s = .ok u)
    (ht : s.showing old shown = .ok t) (hl : lower.run t = .ok l) :
    ∃ s', together upper lower shown old s = .ok s' ∧ ∀ f, s'.read f =
      if upper.pulls f then u.read f
      else if lower.pulls f ∧ f ∉ shown.map .vi then l.read f
      else s.read f := by
  refine ⟨overlay upper.pulls u
    (overlay (fun f => lower.pulls f && !decide (f ∈ shown.map .vi)) l s), ?_, ?_⟩
  · simp only [together, hu, ht, hl, bind, Except.bind]
  intro f
  simp only [read_overlay, Bool.and_eq_true, Bool.not_eq_true', decide_eq_false_iff_not]

theorem read_together {s s' : State} {old : Word} {f : Field}
    (h : together upper lower shown old s = .ok s') (hu : upper.pulls f = false)
    (hl : lower.pulls f = false) : s'.read f = s.read f := by
  simp only [together, bind_eq_ok, Except.ok.injEq] at h
  obtain ⟨u, -, t, -, l, -, rfl⟩ := h
  simp [read_overlay, hu, hl]

end State

theorem Code.read_run_of_scratch {code : Code} {s t : State} {f : Field} (h : code.run s = .ok t)
    (hcode : ∀ f, code.mentions f = true → f.isScratch = false) (hf : f.isScratch = true) :
    t.read f = s.read f := by
  apply read_run h
  cases hp : code.pulls f with
  | false => rfl
  | true => simp [hcode f (by simp [mentions, hp])] at hf

/-- What makes it possible to issue two halves together: they stand on their own, know nothing of the
brackets, and the upper half writes nothing that the lower half names, except the float register
`F`, which the lower half does not write. -/
structure Code.Separate (upper lower : Code) (F : Option Register) : Prop where
  upper_runs : ∀ s : State, ∃ t, upper.run s = .ok t
  lower_runs : ∀ s : State, ∃ t, lower.run s = .ok t
  upper_scratch : ∀ f, upper.mentions f = true → f.isScratch = false
  lower_scratch : ∀ f, lower.mentions f = true → f.isScratch = false
  apart : ∀ f, lower.mentions f = true → f ∉ F.map .vf → upper.pulls f = false
  kept : ∀ r ∈ F, lower.pulls (.vf r) = false

namespace Code.Separate

variable {upper lower : Code} {F S U : Option Register}

theorem run_upper (h : Separate upper lower F) {c s : State} {old : Word}
    (hF : ∀ r ∈ F, r.toNat < vfCount) (hS : ∀ r ∈ S, r.toNat < viCount) (hcs : c.AgreeOutsideScratch s)
    (hsaved : ∀ r ∈ S, s.read (.vi r) = .ok (.word old)) :
    ∃ c' u, ((keep .vfPreUp (F.map .vf) ++ keep .savedInt (S.map .vi)) ++ upper).run c = .ok c' ∧
      upper.run s = .ok u ∧ c'.AgreeOutsideScratch u ∧
      (∀ r ∈ F, c'.read .vfPreUp = s.read (.vf r)) ∧
      (∀ r ∈ S, c'.read .savedInt = .ok (.word old)) ∧
      (S = none → c'.read .savedInt = c.read .savedInt) := by
  obtain ⟨c1, hc1, keeps, keepsF, keepsS, keepsN⟩ := run_keeps c hF hS
  obtain ⟨c2, hc2⟩ := h.upper_runs c1
  have scratch : ∀ f, f.isScratch = true → c2.read f = c1.read f := fun f hf =>
    read_run_of_scratch hc2 h.upper_scratch hf
  have h1 : c1.AgreeOutsideScratch s := by
    intro f hf
    rw [keeps f (by rintro rfl; simp [Field.isScratch] at hf) (by rintro rfl; simp [Field.isScratch] at hf)]
    exact hcs f hf
  obtain ⟨u, hu, h2⟩ := run_agree h1 h.upper_scratch hc2
  refine ⟨c2, u, by rw [run_append hc1, hc2], hu, h2, ?_, ?_, ?_⟩
  · intro r hr
    rw [scratch _ rfl, keepsF r hr, hcs _ rfl]
  · intro r hr
    rw [scratch _ rfl, keepsS r hr, hcs _ rfl, hsaved r hr]
  · intro hn
    rw [scratch _ rfl, keepsN hn]

theorem run_lower (h : Separate upper lower F) {c s u : State} {old : Word}
    (hF : ∀ r ∈ F, r.toNat < vfCount) (hU : ∀ r ∈ U, r.toNat < viCount) (hu : upper.run s = .ok u)
    (hcu : c.AgreeOutsideScratch u) (hpre : ∀ r ∈ F, c.read .vfPreUp = s.read (.vf r))
    (hold : ∀ r ∈ U, c.read .savedInt = .ok (.word old)) :
    ∃ c' s', ((swap .vfUpRes .vfPreUp (F.map .vf) ++ swap .savedIntTemp .savedInt (U.map .vi)) ++ (lower ++
        (restore .savedIntTemp (U.map .vi) ++ restore .vfUpRes (F.map .vf)))).run c = .ok c' ∧
      State.together upper lower U old s = .ok s' ∧ c'.AgreeOutsideScratch s' ∧
      c'.read .savedInt = c.read .savedInt := by
  obtain ⟨c3, hc3, swaps, swapsF, swapsU⟩ := run_swaps c hF hU
  obtain ⟨c4, hc4⟩ := h.lower_runs c3
  obtain ⟨c5, hc5, backs, backsF, backsU⟩ := run_restores c4 hF hU
  have scratch : ∀ f, f.isScratch = true → c4.read f = c3.read f := fun f hf =>
    read_run_of_scratch hc4 h.lower_scratch hf
  have hsu : ∀ f, upper.pulls f = false → u.read f = s.read f := fun f hf => read_run hu hf
  have h3 : ∀ f, f.isScratch = false → f ∉ F.map .vf → f ∉ U.map .vi → c3.read f = u.read f := by
    intro f hf hff hfu
    rw [swaps f (by rintro rfl; simp [Field.isScratch] at hf)
      (by rintro rfl; simp [Field.isScratch] at hf) hff hfu, hcu f hf]
  -- what the lower half names, it finds as in the state before the upper half
  obtain ⟨t, ht, tother, tshown⟩ := s.exists_showing old hU
  have hfinds : c3.Agree (fun f => lower.mentions f = true) t := by
    intro f hf
    by_cases hfu : f ∈ U.map .vi
    · obtain ⟨r, hr, rfl⟩ := Option.map_eq_some_iff.1 hfu
      rw [(swapsU r hr).2, tshown r hr, hold r hr]
    · rw [tother f hfu]
      by_cases hff : f ∈ F.map .vf
      · obtain ⟨r, hr, rfl⟩ := Option.map_eq_some_iff.1 hff
        rw [(swapsF r hr).2, hpre r hr]
      · rw [h3 f (h.lower_scratch f hf) hff hfu, hsu f (h.apart f hf hff)]
  obtain ⟨l, hl, h4⟩ := run_agree hfinds (fun _ hf => hf) hc4
  obtain ⟨s', hs', hread⟩ := State.exists_together hu ht hl
  have hupper : ∀ f, (lower.pulls f = true → f ∈ U.map .vi) → s'.read f = u.read f := by
    intro f hf
    rw [hread]
    by_cases hp : upper.pulls f
    · simp [hp]
    · have hn : ¬(lower.pulls f = true ∧ f ∉ U.map .vi) := fun hh => hh.2 (hf hh.1)
      rw [if_neg hp, if_neg hn, hsu f (by simpa using hp)]
  refine ⟨c5, s', ?_, hs', ?_, ?_⟩
  · rw [run_append hc3, run_append hc4, hc5]
  · intro f hf
    by_cases hff : f ∈ F.map .vf
    · obtain ⟨r, hr, rfl⟩ := Option.map_eq_some_iff.1 hff
      rw [backsF r hr, scratch _ rfl, (swapsF r hr).1, hcu _ rfl, hupper _ (by simp [h.kept r hr])]
    by_cases hfu : f ∈ U.map .vi
    · obtain ⟨r, hr, rfl⟩ := Option.map_eq_some_iff.1 hfu
      rw [backsU r hr, scratch _ rfl, (swapsU r hr).1, hcu _ rfl, hupper _ (fun _ => hfu)]
    rw [backs f hff hfu]
    by_cases hp : lower.pulls f
    · have hm : lower.mentions f = true := by simp [mentions, hp]
      rw [h4 f hm, hread, if_neg (by simp [h.apart f hm hff]), if_pos ⟨hp, hfu⟩]
    · rw [read_run hc4 (by simpa using hp), h3 f hf hff hfu, hupper f (fun hh => absurd hh hp)]
  · rw [backs _ (by simp) (by simp), scratch _ rfl, swaps _ (by simp) (by simp) (by simp) (by simp)]

theorem run_brackets (h : Separate upper lower F) {c s : State} {old : Word}
    (hF : ∀ r ∈ F, r.toNat < vfCount) (hS : ∀ r ∈ S, r.toNat < viCount)
    (hU : ∀ r ∈ U, r.toNat < viCount) (hcs : c.AgreeOutsideScratch s)
    (hsaved : ∀ r ∈ S, s.read (.vi r) = .ok (.word old))
    (hkept : S = none → ∀ r ∈ U, c.read .savedInt = .ok (.word old)) :
    ∃ c' s', ((keep .vfPreUp (F.map .vf) ++ keep .savedInt (S.map .vi)) ++ (upper ++
        ((swap .vfUpRes .vfPreUp (F.map .vf) ++ swap .savedIntTemp .savedInt (U.map .vi)) ++ (lower ++
        (restore .savedIntTemp (U.map .vi) ++ restore .vfUpRes (F.map .vf)))))).run c = .ok c' ∧
      State.together upper lower U old s = .ok s' ∧ c'.AgreeOutsideScratch s' ∧
      (∀ r ∈ S, c'.read .savedInt = .ok (.word old)) ∧
      (S = none → c'.read .savedInt = c.read .savedInt) := by
  obtain ⟨c2, u, hc2, hu, hagree, hpre, hsome, hnone⟩ := h.run_upper hF hS hcs hsaved
  have hold : ∀ r ∈ U, c2.read .savedInt = .ok (.word old) := by
    intro r hr
    cases hs : S with
    | none => rw [hnone hs, hkept hs r hr]
    | some q => exact hsome q hs
  obtain ⟨c', s', hc', hs', hagree', hsame⟩ := h.run_lower hF hU hu hagree hpre hold
  refine ⟨c', s', ?_, hs', hagree', ?_, ?_⟩
  · rw [← List.append_assoc, run_append hc2, hc']
  · intro r hr
    rw [hsame, hsome r hr]
  · intro hn
    rw [hsame, hnone hn]

end Code.Separate

end DualIssue
