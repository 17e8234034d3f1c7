import DualIssue.Proofs.Runnable

/-!
Values set aside do not get out. Main statement: whatever the places for them hold when the code of a
block starts, the rest of the state comes out the same, because a run reads from such a place only
what it wrote there before.
-/

set_option autoImplicit false

namespace DualIssue

namespace Code

/-- In the run from `s`, the action behind `x` takes effect. -/
def Reaches (x : Code) (s : State) : Prop := ∃ m, (Machine.start s).exec x = .ok m ∧ m.skip = 0

def Writes (x : Code) (s : State) (f : Field) : Prop :=
  ∃ (y : Code) (a : Action) (z : Code), x = y ++ a :: z ∧ y.Reaches s ∧ a.pulls f = true

/-- Whenever an action of the code reads a field, the field is one of `A` or was written to before in
the same run. -/
def ReadsOwn (A : Field → Prop) (code : Code) : Prop :=
  ∀ (s : State) (x : Code) (a : Action) (y : Code) (f : Field), code = x ++ a :: y → x.Reaches s →
    a.pushes f = true → A f ∨ x.Writes s f

theorem reaches_of_run {x : Code} {s t : State} (h : x.run s = .ok t) : x.Reaches s :=
  ⟨.start t, run_eq_ok_iff.1 h, rfl⟩

theorem reaches_append {x y : Code} {s t : State} (h : x.run s = .ok t) :
    (x ++ y).Reaches s ↔ y.Reaches t := by
  simp only [Reaches, Machine.exec_append, run_eq_ok_iff.1 h, bind, Except.bind]

theorem Writes.append {x : Code} {s : State} {f : Field} (h : x.Writes s f) (y : Code) :
    (x ++ y).Writes s f := by
  rcases h with ⟨u, a, v, rfl, hu, ha⟩
  exact ⟨u, a, v ++ y, by simp, hu, ha⟩

theorem Writes.behind {x y : Code} {s t : State} {f : Field} (hx : x.run s = .ok t)
    (h : y.Writes t f) : (x ++ y).Writes s f := by
  rcases h with ⟨u, a, v, rfl, hu, ha⟩
  exact ⟨x ++ u, a, v, by simp, (reaches_append hx).2 hu, ha⟩

theorem writes_concat {x : Code} {a : Action} {s : State} {f : Field} (h : (x ++ [a]).Writes s f) :
    x.Writes s f ∨ x.Reaches s ∧ a.pulls f = true := by
  rcases h with ⟨y, c, z, hsplit, hy, hc⟩
  rcases List.eq_nil_or_concat z with rfl | ⟨z', d, rfl⟩
  · have h := List.append_inj' hsplit rfl
    rcases h with ⟨rfl, h⟩
    cases h
    exact .inr ⟨hy, hc⟩
  · have h : x ++ [a] = (y ++ c :: z') ++ [d] := by simpa using hsplit
    exact .inl ⟨y, c, z', (List.append_inj' h rfl).1, hy, hc⟩

namespace ReadsOwn

variable {A B : Field → Prop} {x y code : Code}

theorem of_pushes (h : ∀ f, code.pushes f = true → A f) : code.ReadsOwn A := by
  intro s x a y f hcode _ ha
  subst hcode
  exact .inl (h f (by simp [pushes, ha]))

theorem append (hx : x.ReadsOwn A) (hruns : x.SelfContained)
    (hB : ∀ s f, B f → A f ∨ x.Writes s f) (hy : y.ReadsOwn B) : (x ++ y).ReadsOwn A := by
  intro s u a v f hcode hu ha
  rcases List.append_eq_append_iff.1 hcode with ⟨u', rfl, hy'⟩ | ⟨v', hx', hv⟩
  · obtain ⟨t, ht⟩ := hruns.runs s
    rcases hy t u' a v f hy' ((reaches_append ht).1 hu) ha with hf | hf
    · rcases hB s f hf with hA | hw
      · exact .inl hA
      · exact .inr (hw.append u')
    · exact .inr (hf.behind ht)
  · cases v' with
    | nil =>
      rw [List.append_nil] at hx'
      subst hx'
      obtain ⟨t, ht⟩ := hruns.runs s
      have hnil : Reaches [] t := ⟨.start t, rfl, rfl⟩
      rcases hy t [] a v f hv.symm hnil ha with hf | ⟨w, c, z, hw, -⟩
      · exact hB s f hf
      · cases w <;> cases hw
    | cons c v' =>
      cases hv
      exact hx s u a v' f hx' hu ha

theorem then_same (hx : x.ReadsOwn A) (hruns : x.SelfContained) (hy : y.ReadsOwn A) :
    (x ++ y).ReadsOwn A :=
  hx.append hruns (fun _ _ => .inl) hy

theorem exec_alike (h : code.ReadsOwn A) {s : State} {x y : Code} {m n m' : Machine}
    (hcode : code = x ++ y) (hx : (Machine.start s).exec x = .ok m)
    (hmn : Machine.Alike (fun f => A f ∨ x.Writes s f) m n) (hm : m.exec y = .ok m') :
    ∃ n', n.exec y = .ok n' ∧ Machine.Alike (fun f => A f ∨ code.Writes s f) m' n' := by
  induction y generalizing x m n with
  | nil =>
    cases hm
    rw [List.append_nil] at hcode
    subst hcode
    exact ⟨n, rfl, hmn⟩
  | cons a y ih =>
    rw [Machine.exec_cons, bind_eq_ok] at hm
    obtain ⟨k, hk, hm⟩ := hm
    have hxa : (Machine.start s).exec (x ++ [a]) = .ok k := by
      simp [Machine.exec_append, hx, hk, bind, Except.bind]
    have hstep : ∃ l, n.step a = .ok l ∧
        Machine.Alike (fun f => A f ∨ (x ++ [a]).Writes s f) k l := by
      by_cases hs : m.skip = 0
      · have hn : n.skip = 0 := hmn.skip ▸ hs
        simp only [Machine.step, hs, if_true] at hk
        obtain ⟨l, hl, hkl⟩ := hmn.perform_written (fun f => h s x a y f hcode ⟨m, hx, hs⟩) hk
        refine ⟨l, by simpa only [Machine.step, hn, if_true] using hl, hkl.mono ?_⟩
        intro f hf
        rcases hf with hf | hf
        · exact .inl (.inl hf)
        · rcases writes_concat hf with hf | hf
          · exact .inl (.inr hf)
          · exact .inr hf.2
      · have hreach : ¬x.Reaches s := by
          intro hr
          rcases hr with ⟨m₂, hm₂, h0⟩
          rw [hx, Except.ok.injEq] at hm₂
          exact hs (hm₂ ▸ h0)
        have hn : n.skip ≠ 0 := hmn.skip ▸ hs
        simp only [Machine.step, hs, if_false, Except.ok.injEq] at hk
        subst hk
        refine ⟨n.skipped a, by simp only [Machine.step, hn, if_false], ?_⟩
        have hskip := hmn.mono (B := fun f => A f ∨ (x ++ [a]).Writes s f) (by
          intro f hf
          rcases hf with hf | hf
          · exact .inl hf
          · rcases writes_concat hf with hf | hf
            · exact .inr hf
            · exact absurd hf.1 hreach)
        rcases hskip with ⟨h1, h2, h3⟩
        cases a <;> refine ⟨h1, ?_, h3⟩ <;> simp [Machine.skipped, h2]
    obtain ⟨l, hl, hkl⟩ := hstep
    obtain ⟨n', hn', h'⟩ := ih (by simp [hcode]) hxa hkl hm
    refine ⟨n', ?_, h'⟩
    rw [Machine.exec_cons, hl]
    exact hn'

theorem run_agree (h : code.ReadsOwn A) {s t s' : State} (hst : s.Agree A t)
    (hs : code.run s = .ok s') : ∃ t', code.run t = .ok t' ∧ s'.Agree A t' := by
  have hstart : Machine.Alike (fun f => A f ∨ Writes [] s f) (.start s) (.start t) := by
    refine ⟨rfl, rfl, ?_⟩
    intro f hf
    rcases hf with hf | ⟨y, a, z, hnil, -⟩
    · exact hst f hf
    · cases y <;> cases hnil
  obtain ⟨n, hn, hsame⟩ := h.exec_alike (List.nil_append code).symm rfl hstart (run_eq_ok_iff.1 hs)
  refine ⟨n.state, ?_, fun f hf => hsame.state f (.inl hf)⟩
  rw [run_eq_ok_iff, hn, hsame.eq_start]
  rfl

end ReadsOwn

theorem writes_moves {xs : List (Field × Field)}
    (hxs : ∀ x ∈ xs, x.1.width = x.2.width ∧ x.1.Valid ∧ x.2.Valid) {x : Field × Field} (hx : x ∈ xs)
    (s : State) : (moves xs).Writes s x.1 := by
  obtain ⟨ys, zs, rfl⟩ := List.append_of_mem hx
  have hys : (moves ys).SelfContained := selfContained_moves fun y hy => hxs y (by simp [hy])
  obtain ⟨t, ht⟩ := hys.runs s
  obtain ⟨hw, -, hv⟩ := hxs x hx
  rw [moves_append]
  refine Writes.behind ht ?_
  cases hsrc : x.2.width with
  | word =>
    obtain ⟨w, hr⟩ := t.exists_word_of_valid hv hsrc
    refine ⟨[.push x.2], .pull x.1, moves zs, by simp [moves, move, hsrc], ?_, by simp [Action.pulls]⟩
    refine ⟨⟨t, [.word w], 0⟩, ?_, rfl⟩
    simp [Machine.step, Machine.perform, Machine.start, State.word_eq_ok_iff.2 hr, bind, Except.bind]
  | quad =>
    obtain ⟨v, hr⟩ := t.exists_quad_of_valid hv hsrc
    refine ⟨[.pushVec x.2], .pullVec x.1, moves zs, by simp [moves, move, hsrc], ?_,
      by simp [Action.pulls]⟩
    refine ⟨⟨t, [.quad v], 0⟩, ?_, rfl⟩
    simp [Machine.step, Machine.perform, Machine.start, State.quad_eq_ok_iff.2 hr, bind, Except.bind]

namespace ReadsOwn

variable {A : Field → Prop} {xs : List (Field × Field)} {y : Code}

theorem moves (hsrc : ∀ x ∈ xs, A x.2) : (Code.moves xs).ReadsOwn A := by
  apply of_pushes
  intro f hf
  simp only [pushes_moves, List.any_eq_true, beq_iff_eq] at hf
  obtain ⟨x, hx, rfl⟩ := hf
  exact hsrc x hx

theorem moves_append (hxs : ∀ x ∈ xs, x.1.width = x.2.width ∧ x.1.Valid ∧ x.2.Valid)
    (hsrc : ∀ x ∈ xs, A x.2) (hy : y.ReadsOwn fun f => A f ∨ ∃ x ∈ xs, x.1 = f) :
    (Code.moves xs ++ y).ReadsOwn A := by
  refine (moves hsrc).append (selfContained_moves hxs) ?_ hy
  intro s f hf
  rcases hf with hf | ⟨x, hx, rfl⟩
  · exact .inl hf
  · exact .inr (writes_moves hxs hx s)

end ReadsOwn

end Code

def Code.AvoidsScratch (code : Code) : Prop := ∀ f, code.mentions f = true → f.isScratch = false

theorem Code.avoidsScratch_of_any {code : Code}
    (h : [Field.vfPreUp, .vfUpRes, .savedInt, .savedIntTemp].any code.mentions = false) :
    code.AvoidsScratch := by
  simp only [List.any_cons, List.any_nil, Bool.or_false, Bool.or_eq_false_iff] at h
  intro f hf
  cases f with
  | vfPreUp | vfUpRes | savedInt | savedIntTemp => simp [hf] at h
  | _ => rfl

theorem Code.AvoidsScratch.unused {code : Code} (h : code.AvoidsScratch) {f : Field}
    (hf : f.isScratch = true) : code.pushes f = false ∧ code.pulls f = false := by
  have hm : code.mentions f = false := by
    apply Bool.eq_false_iff.2
    intro hm
    simp [h f hm] at hf
  simpa [mentions] using hm

namespace Pair

variable {isa : InstructionSet} {snapshot : Option Snapshot} {p : Pair} {t : Cycle} {A : Field → Prop}

theorem readsOwn_body (hA : ∀ f, f.isScratch = false → A f) (hcheck : p.check = .ok ())
    (hreg : ∀ n ∈ snapshot, n.reg.toNat < viCount)
    (hu : ((p.upperIssue t).code isa).SelfContained) (hl : ((p.lowerIssue t).code isa).SelfContained)
    (hus : ((p.upperIssue t).code isa).AvoidsScratch)
    (hls : ((p.lowerIssue t).code isa).AvoidsScratch)
    (hold : ∀ r ∈ Snapshot.usedAt snapshot p.address,
      A .savedInt ∨ ∃ q, q ∈ Snapshot.savedAt snapshot p.address) :
    (p.body isa snapshot t).ReadsOwn A := by
  have hup : ∀ f, ((p.upperIssue t).code isa).pushes f = true → A f :=
    fun f hf => hA f (hus f (by simp [Code.mentions, hf]))
  have hlp : ∀ f, ((p.lowerIssue t).code isa).pushes f = true → A f :=
    fun f hf => hA f (hls f (by simp [Code.mentions, hf]))
  have hkeeps := brackets_keeps.valid hcheck hreg
  have hswaps := brackets_swaps.valid hcheck hreg
  rw [body_eq_moves]
  refine .moves_append hkeeps ?_ (.then_same (.of_pushes fun f hf => .inl (hup f hf)) hu
    (.moves_append hswaps ?_ (.then_same (.of_pushes fun f hf => .inl (.inl (hlp f hf))) hl
      (.moves ?_))))
  · intro x hx
    simp only [keeps, List.mem_append, List.mem_map, Option.mem_toList] at hx
    rcases hx with ⟨r, hr, rfl⟩ | ⟨r, hr, rfl⟩
    · exact hA _ rfl
    · exact hA _ rfl
  · intro x hx
    simp only [swaps, List.mem_append, List.mem_flatMap, Option.mem_toList, List.mem_cons,
      List.not_mem_nil, or_false] at hx
    rcases hx with ⟨r, hr, rfl | rfl⟩ | ⟨r, hr, rfl | rfl⟩
    · exact .inl (hA _ rfl)
    · exact .inr ⟨(.vfPreUp, .vf r), by simp [keeps, hr], rfl⟩
    · exact .inl (hA _ rfl)
    · rcases hold r hr with hs | ⟨q, hq⟩
      · exact .inl hs
      · exact .inr ⟨(.savedInt, .vi q), by simpa [keeps] using hq, rfl⟩
  · intro x hx
    simp only [restores, List.mem_append, List.mem_map, Option.mem_toList] at hx
    rcases hx with ⟨r, hr, rfl⟩ | ⟨r, hr, rfl⟩
    · exact .inr ⟨(.savedIntTemp, .vi r), by simp [swaps, hr], rfl⟩
    · exact .inr ⟨(.vfUpRes, .vf r), by simp [swaps, hr], rfl⟩

theorem savedInt_body
    (hus : ((p.upperIssue t).code isa).AvoidsScratch)
    (hls : ((p.lowerIssue t).code isa).AvoidsScratch) :
    (p.body isa snapshot t).pulls .savedInt = (Snapshot.savedAt snapshot p.address).isSome ∧
      (p.body isa snapshot t).pushes .savedInt = (Snapshot.usedAt snapshot p.address).isSome := by
  have hu := hus.unused (f := .savedInt) rfl
  have hl := hls.unused (f := .savedInt) rfl
  cases hs : Snapshot.savedAt snapshot p.address <;> cases hr : Snapshot.usedAt snapshot p.address <;>
    simp [body_eq_moves, Code.pulls_moves, Code.pushes_moves, keeps, swaps, restores, hu, hl, hs, hr]

theorem body_of_saved {r : Register} (hs : Snapshot.savedAt snapshot p.address = some r)
    (hus : ((p.upperIssue t).code isa).AvoidsScratch)
    (hls : ((p.lowerIssue t).code isa).AvoidsScratch) :
    ∃ y : Code, p.body isa snapshot t =
        Code.moves (p.clash.toList.map fun q => (.vfPreUp, .vf q)) ++ (Code.moves [(.savedInt, .vi r)] ++ y) ∧
      y.pulls .savedInt = false := by
  have hu := (hus.unused (f := .savedInt) rfl).2
  have hl := (hls.unused (f := .savedInt) rfl).2
  refine ⟨(p.upperIssue t).code isa ++ (Code.moves (p.swaps snapshot) ++
    ((p.lowerIssue t).code isa ++ Code.moves (p.restores snapshot))), ?_, ?_⟩
  · simp [body_eq_moves, keeps, hs, Code.moves_append]
  · simp [Code.pulls_moves, swaps, restores, hu, hl]

end Pair

theorem Scoreboard.avoidsScratch_opening (s : Scoreboard) (lo hi : Effects) :
    (s.opening lo hi).AvoidsScratch := by
  apply Code.avoidsScratch_of_any
  cases hl : lo.writesQ <;> cases hh : hi.readsQ <;> simp only [opening, hl, hh] <;> rfl

theorem Scoreboard.avoidsScratch_closing (s : Scoreboard) (e : Extent) :
    (s.finish ++ e.jumpFixup).AvoidsScratch := by
  apply Code.avoidsScratch_of_any
  cases he : e.extended <;> simp only [Extent.jumpFixup, he] <;> rfl

theorem Scoreboard.readsOwn_closing (s : Scoreboard) (e : Extent) :
    (s.finish ++ e.jumpFixup).ReadsOwn (fun f => f.isScratch = false) := by
  apply Code.ReadsOwn.of_pushes
  intro f hf
  exact s.avoidsScratch_closing e f (by simp only [Code.mentions, hf, Bool.true_or])

def InstructionSet.AvoidsScratch (isa : InstructionSet) : Prop := ∀ a w t, (isa.code a w t).AvoidsScratch

namespace Progress

variable {isa : InstructionSet} {m : Memory} {snapshot : Option Snapshot} {A : Field → Prop}

theorem readsOwn_piece (hisa : isa.SelfContained) (hscratch : isa.AvoidsScratch)
    (hreg : ∀ n ∈ snapshot, n.reg.toNat < viCount) (hA : ∀ f, f.isScratch = false → A f)
    {a : Address} {p q : Progress} (adv : p.Advance isa m snapshot a q)
    (hold : ∀ r ∈ Snapshot.usedAt snapshot a, A .savedInt ∨ ∃ q, q ∈ Snapshot.savedAt snapshot a) :
    (p.scoreboard.opening (Pair.decode isa m a).lo (Pair.decode isa m a).hi ++
      (Pair.decode isa m a).body isa snapshot p.scoreboard.time).ReadsOwn A := by
  refine .then_same (.of_pushes ?_) (Scoreboard.disciplined_opening _ _ _).selfContained
    (Pair.readsOwn_body hA adv.check hreg (hisa _ _ _) (hisa _ _ _) (hscratch _ _ _) (hscratch _ _ _)
      hold)
  intro f hf
  exact hA f (Scoreboard.avoidsScratch_opening _ _ _ f (by rw [Code.mentions, hf, Bool.true_or]))

/-- A stretch of pairs reads what it wrote, or an old register saved before it, and touches the saved
register only at the pairs of the snapshot. -/
theorem readsOwn_of_run (hisa : isa.SelfContained) (hscratch : isa.AvoidsScratch)
    (hreg : ∀ n ∈ snapshot, n.reg.toNat < viCount) (hA : ∀ f, f.isScratch = false → A f)
    {xs : List Address} (hold : ∀ a ∈ xs, ∀ r ∈ Snapshot.usedAt snapshot a,
      A .savedInt ∨ ∃ q, q ∈ Snapshot.savedAt snapshot a) {p q : Progress}
    (h : xs.foldlM (step isa m snapshot) p = .ok q) :
    ∃ rest, q.draft.code = p.draft.code ++ rest ∧ rest.SelfContained ∧ rest.ReadsOwn A ∧
      ((∀ a ∈ xs, Snapshot.savedAt snapshot a = none) → rest.pulls .savedInt = false) ∧
      ((∀ a ∈ xs, Snapshot.usedAt snapshot a = none) → rest.pushes .savedInt = false) := by
  refine code_induction (P := fun rest => rest.SelfContained ∧ rest.ReadsOwn A ∧
    ((∀ a ∈ xs, Snapshot.savedAt snapshot a = none) → rest.pulls .savedInt = false) ∧
    ((∀ a ∈ xs, Snapshot.usedAt snapshot a = none) → rest.pushes .savedInt = false)) ?_ ?_ ?_ h
  · exact ⟨Code.selfContained_nil, .of_pushes (fun f hf => by cases hf), fun _ => rfl, fun _ => rfl⟩
  · intro x y hx hy
    rcases hx with ⟨hx1, hx2, hx3, hx4⟩
    rcases hy with ⟨hy1, hy2, hy3, hy4⟩
    refine ⟨hx1.append hy1, hx2.then_same hx1 hy2, ?_, ?_⟩
    · intro hs
      simp [hx3 hs, hy3 hs]
    · intro hs
      simp [hx4 hs, hy4 hs]
  · intro a ha p q adv
    have hopen := (p.scoreboard.avoidsScratch_opening (Pair.decode isa m a).lo
      (Pair.decode isa m a).hi).unused (f := .savedInt) rfl
    have hpulls : ((Pair.decode isa m a).body isa snapshot p.scoreboard.time).pulls .savedInt =
        (Snapshot.savedAt snapshot a).isSome :=
      (Pair.savedInt_body (hscratch _ _ _) (hscratch _ _ _)).1
    have hpushes : ((Pair.decode isa m a).body isa snapshot p.scoreboard.time).pushes .savedInt =
        (Snapshot.usedAt snapshot a).isSome :=
      (Pair.savedInt_body (hscratch _ _ _) (hscratch _ _ _)).2
    refine ⟨selfContained_piece hisa hreg adv, readsOwn_piece hisa hscratch hreg hA adv (hold a ha), ?_, ?_⟩
    · intro hs
      simp [hopen, hpulls, hs a ha]
    · intro hs
      simp [hopen, hpushes, hs a ha]

theorem piece_of_saved (hscratch : isa.AvoidsScratch) (hreg : ∀ n ∈ snapshot, n.reg.toNat < viCount)
    {a : Address} {r : Register} (hs : Snapshot.savedAt snapshot a = some r) {p q : Progress}
    (adv : p.Advance isa m snapshot a q) :
    ∃ x y : Code, p.scoreboard.opening (Pair.decode isa m a).lo (Pair.decode isa m a).hi ++
        (Pair.decode isa m a).body isa snapshot p.scoreboard.time =
          x ++ (Code.moves [(.savedInt, .vi r)] ++ y) ∧
      x.SelfContained ∧ x.mentions .savedInt = false ∧ y.pulls .savedInt = false := by
  let pair := Pair.decode isa m a
  obtain ⟨y, hbody, hy⟩ : ∃ y : Code, pair.body isa snapshot p.scoreboard.time =
      Code.moves (pair.clash.toList.map fun q => (.vfPreUp, .vf q)) ++ (Code.moves [(.savedInt, .vi r)] ++ y) ∧
      y.pulls .savedInt = false :=
    Pair.body_of_saved hs (hscratch _ _ _) (hscratch _ _ _)
  have hclash : (Code.moves (pair.clash.toList.map fun q => (.vfPreUp, .vf q))).SelfContained := by
    apply Code.selfContained_moves
    intro x hx
    exact Pair.brackets_keeps.valid adv.check hreg x (List.mem_append_left _ hx)
  have hopen := (p.scoreboard.avoidsScratch_opening pair.lo pair.hi).unused (f := .savedInt) rfl
  refine ⟨_, y, ?_, (Scoreboard.disciplined_opening p.scoreboard pair.lo pair.hi).selfContained.append
    hclash, ?_, hy⟩
  · rw [List.append_assoc, ← hbody]
  · simp [Code.mentions, hopen, Code.pushes_moves, Code.pulls_moves]

theorem snapshot_taken_of_run (hisa : isa.SelfContained) (hscratch : isa.AvoidsScratch) {n : Snapshot}
    (hreg : ∀ k ∈ some n, k.reg.toNat < viCount) {before behind : List Address}
    (hbefore : ∀ a ∈ before, a ≠ n.saveAt ∧ a ≠ n.useAt) (hbehind : ∀ a ∈ behind, a ≠ n.saveAt)
    {latency : Cycle} {p : Progress}
    (h : (before ++ n.saveAt :: behind).foldlM (step isa m (some n)) (.start latency) = .ok p) :
    p.draft.code.ReadsOwn (fun f => f.isScratch = false) ∧
      ∃ x y : Code, p.draft.code = x ++ (Code.moves [(.savedInt, .vi n.reg)] ++ y) ∧ x.SelfContained ∧
        x.mentions .savedInt = false ∧ y.pulls .savedInt = false := by
  have hsaved : Snapshot.savedAt (some n) n.saveAt = some n.reg := by simp [Snapshot.savedAt]
  have hunsaved : ∀ a, a ≠ n.saveAt → Snapshot.savedAt (some n) a = none := by
    intro a ha
    simp [Snapshot.savedAt, ha]
  have hunused : ∀ a, a ≠ n.useAt → Snapshot.usedAt (some n) a = none := by
    intro a ha
    simp [Snapshot.usedAt, ha]
  rw [List.foldlM_append, bind_eq_ok] at h
  obtain ⟨p₁, h₁, h⟩ := h
  rw [List.foldlM_cons, bind_eq_ok] at h
  obtain ⟨p₂, h₂, h₃⟩ := h
  have adv := advance_of_step h₂
  obtain ⟨u, hu, hus, hur, hupull, hupush⟩ := readsOwn_of_run hisa hscratch hreg
    (A := fun f => f.isScratch = false) (fun _ hf => hf) (by
      intro a ha r hr
      simp [hunused a (hbefore a ha).2] at hr) h₁
  obtain ⟨v, hv, -, hvr, hvpull, -⟩ := readsOwn_of_run hisa hscratch hreg
    (A := fun f => f.isScratch = false ∨ f = .savedInt) (fun _ => .inl) (fun _ _ _ _ => .inl (.inr rfl)) h₃
  have hpiece := readsOwn_piece hisa hscratch hreg (A := fun f => f.isScratch = false) (fun _ hf => hf)
    adv (fun _ _ => .inr ⟨_, hsaved⟩)
  have hpieces := selfContained_piece hisa hreg adv
  obtain ⟨x, y, hxy, hxs, hxm, hyp⟩ := piece_of_saved hscratch hreg hsaved adv
  rw [hxy] at hpiece hpieces
  have hcode : p.draft.code = u ++ (x ++ (Code.moves [(.savedInt, .vi n.reg)] ++ y) ++ v) := by
    rw [hv, (Draft.emit_eq_ok_iff.1 adv.emit).2, hxy, hu]
    simp [start, Draft.empty]
  have hwrites : ∀ s, (x ++ (Code.moves [(.savedInt, .vi n.reg)] ++ y)).Writes s .savedInt := by
    intro s
    obtain ⟨t, ht⟩ := hxs.runs s
    refine Code.Writes.behind ht (Code.Writes.append ?_ y)
    refine Code.writes_moves (x := (.savedInt, .vi n.reg)) ?_ (List.mem_singleton_self _) t
    intro z hz
    rw [List.mem_singleton] at hz
    subst hz
    exact ⟨rfl, trivial, hreg n rfl⟩
  constructor
  · rw [hcode]
    refine hur.then_same hus (hpiece.append hpieces ?_ hvr)
    intro s f hf
    rcases hf with hf | rfl
    · exact .inl hf
    · exact .inr (hwrites s)
  · refine ⟨u ++ x, y ++ v, by simp [hcode], hus.append hxs, ?_, ?_⟩
    · have h1 := hupull fun a ha => hunsaved a (hbefore a ha).1
      have h2 := hupush fun a ha => hunused a (hbefore a ha).2
      rw [Code.mentions_append, hxm, Bool.or_false]
      simp [Code.mentions, h1, h2]
    · simp [hyp, hvpull fun a ha => hunsaved a (hbehind a ha)]

end Progress

namespace Block.EndsAt

variable {b : Block} {last : Address}

theorem pairwise_addresses (h : b.EndsAt last) :
    (b.addresses last).Pairwise fun a c => a.toNat < c.toNat := by
  have hf := b.first_aligned
  have ha := h.aligned
  have hle := h.first_le
  unfold addresses
  rw [List.pairwise_map]
  refine List.pairwise_lt_range.imp_of_mem ?_
  intro j k hj hk hjk
  rw [List.mem_range, h.toNat_sub_first] at hj hk
  have hj' := h.toNat_address (k := j) (by omega)
  have hk' := h.toNat_address (k := k) (by omega)
  unfold address at hj' hk'
  omega

theorem split_addresses (h : b.EndsAt last) {a : Address} (ha : a ∈ b.addresses last) :
    ∃ before behind, b.addresses last = before ++ a :: behind ∧
      (∀ c ∈ before, c.toNat < a.toNat) ∧ ∀ c ∈ behind, a.toNat < c.toNat := by
  obtain ⟨before, behind, hsplit⟩ := List.append_of_mem ha
  have hpair := h.pairwise_addresses
  rw [hsplit, List.pairwise_append] at hpair
  rcases hpair with ⟨-, hbehind, hbefore⟩
  refine ⟨before, behind, hsplit, ?_, ?_⟩
  · intro c hc
    exact hbefore c hc a List.mem_cons_self
  · intro c hc
    exact (List.pairwise_cons.1 hbehind).1 c hc

end Block.EndsAt

section

variable {isa : InstructionSet} {options : Options} {m : Memory} {b : Block} {done : Compiled}

/-- The register is saved by exactly one pair, which every run comes to before the saved value is
used. -/
theorem snapshot_taken_of_compile (hisa : isa.SelfContained) (hscratch : isa.AvoidsScratch)
    (h : compile options isa m b = .ok done) {n : Snapshot} (hn : done.report.snapshot = some n) :
    done.draft.code.ReadsOwn (fun f => f.isScratch = false) ∧
      ∃ x y : Code, done.draft.code = x ++ (Code.move .savedInt (.vi n.reg) ++ y) ∧ x.SelfContained ∧
        x.mentions .savedInt = false ∧ y.pulls .savedInt = false := by
  obtain ⟨hreg, hfirst, huse, hsave⟩ := compile_snapshot h hn
  obtain ⟨delay, p, draft, -, hp, hdraft, rfl⟩ := compile_eq_ok_iff.1 h
  have hend := b.endsAt_extent isa m
  have ha := hend.aligned
  have hf := b.first_aligned
  have hmem : n.saveAt ∈ b.addresses (b.extent isa m).last := hend.mem_addresses_iff.2 (by omega)
  obtain ⟨before, behind, hsplit, hbefore, hbehind⟩ := hend.split_addresses hmem
  have hdelay : delay.snapshot? = some n := hn
  rw [hsplit, hdelay] at hp
  have hregs : ∀ k ∈ some n, k.reg.toNat < viCount := by
    intro k hk
    cases hk
    exact hreg
  obtain ⟨hreads, x, y, hcode, hxs, hxm, hyp⟩ := Progress.snapshot_taken_of_run hisa hscratch hregs
    (by
      intro a ha
      have hlt := hbefore a ha
      constructor <;> intro he <;> subst he <;> omega)
    (by
      intro a ha he
      have hlt := hbehind a ha
      subst he
      omega) hp
  have hclose := (p.scoreboard.avoidsScratch_closing (b.extent isa m)).unused (f := .savedInt) rfl
  have hdone := (Draft.emit_eq_ok_iff.1 hdraft).2
  refine ⟨?_, x, y ++ (p.scoreboard.finish ++ (b.extent isa m).jumpFixup), ?_, hxs, hxm, ?_⟩
  · rw [hdone]
    exact hreads.then_same (Progress.selfContained_of_run hisa hregs hp)
      (p.scoreboard.readsOwn_closing (b.extent isa m))
  · rw [hdone, hcode]
    simp [Code.moves]
  · rw [Code.pulls_append, hyp, hclose.2]
    rfl

theorem readsOwn_of_compile (hisa : isa.SelfContained) (hscratch : isa.AvoidsScratch)
    (h : compile options isa m b = .ok done) :
    done.draft.code.ReadsOwn (fun f => f.isScratch = false) := by
  cases hn : done.report.snapshot with
  | some n => exact (snapshot_taken_of_compile hisa hscratch h hn).1
  | none =>
    obtain ⟨delay, p, draft, -, hp, hdraft, rfl⟩ := compile_eq_ok_iff.1 h
    have hdelay : delay.snapshot? = none := hn
    rw [hdelay] at hp
    obtain ⟨rest, hrest, hs, hr, -⟩ := Progress.readsOwn_of_run hisa hscratch (by simp)
      (A := fun f => f.isScratch = false) (fun _ hf => hf) (by simp [Snapshot.usedAt]) hp
    have hcode : p.draft.code = rest := by simpa [Progress.start, Draft.empty] using hrest
    rw [(Draft.emit_eq_ok_iff.1 hdraft).2, hcode]
    exact hr.then_same hs (p.scoreboard.readsOwn_closing (b.extent isa m))

end

/-- Compiled code does not let out what the places for values set aside held when it started: from
states that agree elsewhere it comes to states that agree elsewhere. Whatever it reads from such a
place, it wrote there earlier in the same run. A snapshot is taken in every run, once, and before
the saved value is used. -/
theorem scratch_never_leaks {isa : InstructionSet} (hisa : isa.SelfContained)
    (hscratch : isa.AvoidsScratch) {options : Options} {m : Memory} {b : Block} {done : Compiled}
    (h : compile options isa m b = .ok done) :
    ∃ code, done.draft.finish = .ok code ∧
      (∀ s t : State, s.AgreeOutsideScratch t → ∃ s' t', code.run s = .ok s' ∧ code.run t = .ok t' ∧
        s'.AgreeOutsideScratch t') ∧
      (∀ (s : State) (x : Code) (a : Action) (y : Code) (f : Field), code = x ++ a :: y → x.Reaches s →
        a.pushes f = true → f.isScratch = true → x.Writes s f) ∧
      ∀ n, done.report.snapshot = some n → ∃ x y : Code,
        code = x ++ (Code.move .savedInt (.vi n.reg) ++ y) ∧ (∀ s, x.Reaches s) ∧
        x.mentions .savedInt = false ∧ y.pulls .savedInt = false := by
  have hreads := readsOwn_of_compile hisa hscratch h
  have hcode := selfContained_of_compile hisa h
  have hfinish := compile_finish (fun _ _ _ => ⟨(hisa _ _ _).closesRegions, (hisa _ _ _).closesRegions⟩) h
  refine ⟨done.draft.code, hfinish, ?_, ?_, ?_⟩
  · intro s t hst
    obtain ⟨s', hs'⟩ := hcode.runs s
    obtain ⟨t', ht', hagree⟩ := hreads.run_agree hst hs'
    exact ⟨s', t', hs', ht', hagree⟩
  · intro s x a y f hsplit hx ha hf
    rcases hreads s x a y f hsplit hx ha with hn | hw
    · simp [hn] at hf
    · exact hw
  · intro n hn
    obtain ⟨-, x, y, hsplit, hxs, hxm, hyp⟩ := snapshot_taken_of_compile hisa hscratch h hn
    refine ⟨x, y, hsplit, ?_, hxm, hyp⟩
    intro s
    obtain ⟨t, ht⟩ := hxs.runs s
    exact Code.reaches_of_run ht

namespace Sample

theorem avoidsScratch : isa.AvoidsScratch := by
  intro a w t
  simp only [isa]
  split
  · exact Code.avoidsScratch_of_any rfl
  · split
    · exact Code.avoidsScratch_of_any rfl
    · split
      · exact Code.avoidsScratch_of_any rfl
      · exact Code.avoidsScratch_of_any rfl

theorem scratch_stays_inside : ∃ b done code, Block.ofRange 0 20 = .ok b ∧
    compile {} isa memory b = .ok done ∧ done.report.snapshot = some ⟨1, 0, 16⟩ ∧
    done.draft.finish = .ok code ∧ code.mentions .vfPreUp = true ∧
    (∀ s t : State, s.AgreeOutsideScratch t → ∃ s' t', code.run s = .ok s' ∧ code.run t = .ok t' ∧
      s'.AgreeOutsideScratch t') ∧
    ∃ x y : Code, code = x ++ (Code.move .savedInt (.vi 1) ++ y) ∧ (∀ s, x.Reaches s) ∧
      x.mentions .savedInt = false ∧ y.pulls .savedInt = false := by
  have hdone : ∃ b done, Block.ofRange 0 20 = .ok b ∧ compile {} isa memory b = .ok done ∧
      done.report.snapshot = some ⟨1, 0, 16⟩ ∧ done.draft.finish = .ok done.draft.code ∧
      done.draft.code.mentions .vfPreUp = true := ⟨_, _, rfl, rfl, rfl, rfl, rfl⟩
  obtain ⟨b, done, hb, hcompile, hsnapshot, hfinish, hclash⟩ := hdone
  obtain ⟨code, hcode, hruns, -, htaken⟩ := scratch_never_leaks selfContained avoidsScratch hcompile
  rw [hfinish, Except.ok.injEq] at hcode
  subst hcode
  exact ⟨b, done, _, hb, hcompile, hsnapshot, hfinish, hclash, hruns, htaken _ hsnapshot⟩

end Sample

end DualIssue
