import DualIssue.Proofs.Coherence
import DualIssue.Proofs.Script

/-!
Moving the clock. The clock wraps, and so does the cycle at which Q is due, but the two are compared
as plain numbers: near the end of the counter a result is seen too early or too late. Main statement:
setting the clock and the due cycle ahead together makes no difference to the code of a block exactly
if every comparison that the code makes is between two cycles that both wrap or both do not.
-/

set_option autoImplicit false

namespace DualIssue

def State.shift (c : Cycle) (s : State) : State :=
  { s with pipeTime := s.pipeTime + c, qTarget := s.qTarget + c }

def Machine.shift (c : Cycle) (m : Machine) : Machine := { m with state := m.state.shift c }

/-- Setting the cycle `x` ahead by `c` takes it past the end of the counter. -/
def Carries (c x : Cycle) : Prop := 2 ^ 32 ≤ x.toNat + c.toNat

theorem toNat_shifted (c x : Cycle) :
    Carries c x ∧ (x + c).toNat + 2 ^ 32 = x.toNat + c.toNat ∨
      ¬Carries c x ∧ (x + c).toNat = x.toNat + c.toNat := by
  have hc := c.toNat_lt
  have hx := x.toNat_lt
  rw [Carries, UInt32.toNat_add]
  omega

theorem shifted_le_iff_iff_carries (c x y : Cycle) :
    (y + c ≤ x + c ↔ y ≤ x) ↔ (Carries c x ↔ Carries c y) := by
  have hx := x.toNat_lt
  have hy := y.toNat_lt
  have hxc := (x + c).toNat_lt
  have hyc := (y + c).toNat_lt
  rw [UInt32.le_iff_toNat_le, UInt32.le_iff_toNat_le]
  obtain ⟨h1, h1'⟩ | ⟨h1, h1'⟩ := toNat_shifted c x <;>
    obtain ⟨h2, h2'⟩ | ⟨h2, h2'⟩ := toNat_shifted c y <;>
    simp only [h1, h2, iff_true, iff_false, not_true_eq_false] <;> omega

/-- Whenever Q is checked, the shift takes the cycle of the check and the cycle at which Q is due past
the end of the counter, or neither. Q is checked `t` cycles after the start of the block for every `t`
in `checks`; it is due at `due`, or `h` cycles after the start for an `h` in `holds`. -/
def CarriesAlike (checks holds : Cycle → Prop) (clock due c : Cycle) : Prop :=
  ∀ t, checks t → ∀ d, (d = due ∨ ∃ h, holds h ∧ d = clock + h) →
    (Carries c (clock + t) ↔ Carries c d)

def Piece.TimedBy (checks holds : Cycle → Prop) : Piece → Prop
  | .action a => a.Untimed
  | .release => True
  | .releaseIfDue t => checks t
  | .hold t latency => holds (t + latency)

/-- The code leaves timing to the latch of Q, which it checks only at cycles in `checks` and makes due
only at cycles in `holds`. -/
def Code.TimedBy (checks holds : Cycle → Prop) (code : Code) : Prop :=
  ∃ script : Script, script.code = code ∧ ∀ piece ∈ script, piece.TimedBy checks holds

namespace State

theorem read_shift (c : Cycle) (s : State) (f : Field) :
    (s.shift c).read f =
      if f = .pipeTime then .ok (.word (s.pipeTime + c))
      else if f = .qTarget then .ok (.word (s.qTarget + c))
      else s.read f := by
  cases f <;> simp [shift, read, Field.width, word, quad, Except.map]

theorem close_shift (c : Cycle) (e : Extent) (t : Cycle) (s : State) :
    (s.shift c).close (s.shift c).pipeTime e t = (s.close s.pipeTime e t).shift c := by
  have hcomm : s.pipeTime + c + t = s.pipeTime + t + c := by ac_rfl
  cases h1 : e.extended <;> by_cases h2 : s.delayedJump = noJump <;>
    simp [close, shift, h1, h2, hcomm]

end State

namespace Machine

theorem step_shift {m n : Machine} {a : Action} (c : Cycle) (ha : a.Untimed) (h : m.step a = .ok n) :
    (m.shift c).step a = .ok (n.shift c) := by
  have hshift : m.Alike (fun f => f.isTiming = false) (m.shift c) := by
    refine ⟨rfl, rfl, fun f hf => ?_⟩
    rw [shift, State.read_shift, if_neg (by rintro rfl; cases hf), if_neg (by rintro rfl; cases hf)]
  obtain ⟨n', hn, hstack, hskip, hstate⟩ := hshift.step ha h
  have htime : ∀ f, f.isTiming = true → n.state.read f = m.state.read f := fun f hf =>
    read_step h (ha.pulls hf)
  have hp : n.state.pipeTime = m.state.pipeTime := State.eq_of_read (htime .pipeTime rfl) rfl rfl
  have hd : n.state.qTarget = m.state.qTarget := State.eq_of_read (htime .qTarget rfl) rfl rfl
  have hsame : n'.state = n.state.shift c := by
    apply State.ext_read
    intro f
    cases hf : f.isTiming with
    | false =>
      rw [← hstate f hf, State.read_shift, if_neg (by rintro rfl; cases hf),
        if_neg (by rintro rfl; cases hf)]
    | true =>
      rw [read_step hn (ha.pulls hf), shift, State.read_shift, State.read_shift, htime f hf, hp, hd]
  rw [hn]
  obtain ⟨state, stack, skip⟩ := n'
  cases hstack
  cases hskip
  cases hsame
  rfl

def showingHeld (m : Machine) : Machine := { m with state := { m.state with q := m.state.qHeld } }

theorem exec_release (m : Machine) : m.exec Latch.q.release =
    .ok (if m.skip = 0 then m.showingHeld else m) := by
  obtain ⟨state, stack, skip⟩ := m
  by_cases hs : skip = 0
  · subst hs
    rfl
  · simp [Latch.release, Code.move, Latch.q, Field.width, step, skipped, hs, bind, Except.bind]

theorem exec_releaseIfDue (m : Machine) (t : Cycle) : m.exec (Latch.q.releaseIfDue t) =
    .ok (if m.skip = 0 ∧ m.state.qTarget ≤ m.state.pipeTime + t then m.showingHeld else m) := by
  obtain ⟨state, stack, skip⟩ := m
  by_cases hs : skip = 0
  · subst hs
    by_cases hd : state.qTarget ≤ state.pipeTime + t
    · simp [Latch.releaseIfDue, Latch.release, Code.move, Latch.q, Field.width, Condition.holds, hd, step,
        perform, popWord, State.word, State.setWord, showingHeld, bind, Except.bind]
    · simp [Latch.releaseIfDue, Latch.release, Code.move, Latch.q, Field.width, Condition.holds, hd, step,
        perform, skipped, popWord, State.word, bind, Except.bind]
  · simp [Latch.releaseIfDue, Latch.release, Code.move, Latch.q, Field.width, step, skipped, hs, bind,
      Except.bind]

end Machine

/-- In the course of a block: the clock is where it was, and Q is due at one of the cycles expected. -/
structure State.DueAt (holds : Cycle → Prop) (clock due : Cycle) (s : State) : Prop where
  time : s.pipeTime = clock
  target : s.qTarget = due ∨ ∃ h, holds h ∧ s.qTarget = clock + h

section

variable {checks holds : Cycle → Prop} {clock due c : Cycle}

theorem CarriesAlike.shifted_le_iff (h : CarriesAlike checks holds clock due c) {t : Cycle}
    (ht : checks t) {s : State} (hs : s.DueAt holds clock due) :
    (s.shift c).qTarget ≤ (s.shift c).pipeTime + t ↔ s.qTarget ≤ s.pipeTime + t := by
  have hcomm : clock + c + t = clock + t + c := by ac_rfl
  simp only [State.shift, hs.time, hcomm]
  exact (shifted_le_iff_iff_carries c _ _).2 (h t ht _ hs.target)

theorem Piece.TimedBy.exec_shift {piece : Piece} (hp : piece.TimedBy checks holds)
    (halike : CarriesAlike checks holds clock due c) {m n : Machine}
    (hm : m.state.DueAt holds clock due) (h : m.exec piece.code = .ok n) :
    (m.shift c).exec piece.code = .ok (n.shift c) ∧ n.state.DueAt holds clock due := by
  cases piece with
  | action a =>
    have ha : a.Untimed := hp
    obtain ⟨k, hk, h⟩ := bind_eq_ok.1 h
    cases h
    have hclock := Machine.read_step hk (ha.pulls (f := .pipeTime) rfl)
    have hdue := Machine.read_step hk (ha.pulls (f := .qTarget) rfl)
    have hclock : n.state.pipeTime = m.state.pipeTime := State.eq_of_read hclock rfl rfl
    have hdue : n.state.qTarget = m.state.qTarget := State.eq_of_read hdue rfl rfl
    refine ⟨?_, hclock.trans hm.time, hdue ▸ hm.target⟩
    rw [code, Machine.exec_cons, Machine.step_shift c ha hk]
    rfl
  | release =>
    rw [code, Machine.exec_release] at h ⊢
    cases h
    by_cases hs : m.skip = 0
    · rw [if_pos hs, if_pos (c := (m.shift c).skip = 0) hs]
      exact ⟨rfl, hm.time, hm.target⟩
    · rw [if_neg hs, if_neg (c := (m.shift c).skip = 0) hs]
      exact ⟨rfl, hm⟩
  | releaseIfDue t =>
    rw [code, Machine.exec_releaseIfDue] at h ⊢
    cases h
    have hle := halike.shifted_le_iff hp hm
    by_cases hs : m.skip = 0 ∧ m.state.qTarget ≤ m.state.pipeTime + t
    · rw [if_pos hs, if_pos ⟨hs.1, hle.2 hs.2⟩]
      exact ⟨rfl, hm.time, hm.target⟩
    · rw [if_neg hs, if_neg fun hs' => hs ⟨hs'.1, hle.1 hs'.2⟩]
      exact ⟨rfl, hm⟩
  | hold t latency =>
    rw [code, Machine.exec_hold_eq_ok_iff] at h
    rw [code, Machine.exec_hold_eq_ok_iff]
    obtain ⟨hs, rfl⟩ | ⟨hs, w, rest, hstack, rfl⟩ := h
    · exact ⟨.inl ⟨hs, rfl⟩, hm⟩
    · refine ⟨.inr ⟨hs, w, rest, hstack, ?_⟩, hm.time, .inr ⟨t + latency, hp, ?_⟩⟩
      · have hcomm : m.state.pipeTime + (t + latency) + c = m.state.pipeTime + c + (t + latency) := by
          ac_rfl
        simp [Machine.shift, State.shift, hcomm]
      · rw [← hm.time]

namespace Code.TimedBy

variable {x y : Code}

theorem append (hx : x.TimedBy checks holds) (hy : y.TimedBy checks holds) :
    (x ++ y).TimedBy checks holds := by
  obtain ⟨sx, rfl, hsx⟩ := hx
  obtain ⟨sy, rfl, hsy⟩ := hy
  refine ⟨sx ++ sy, List.flatMap_append, fun piece hp => ?_⟩
  obtain hp | hp := List.mem_append.1 hp
  · exact hsx piece hp
  · exact hsy piece hp

theorem nil : TimedBy checks holds [] := ⟨[], rfl, by simp⟩

theorem piece {p : Piece} (h : p.TimedBy checks holds) : p.code.TimedBy checks holds :=
  ⟨[p], List.flatMap_singleton .., by simpa using h⟩

theorem of_mentions {code : Code} (h : ∀ f, code.mentions f = true → f.isTiming = false) :
    code.TimedBy checks holds := by
  refine ⟨code.map .action, ?_, ?_⟩
  · simp [Script.code, List.flatMap_map, Piece.code, List.flatMap_singleton']
  · simpa [Piece.TimedBy] using Action.untimed_of_mentions h

theorem exec_shift {code : Code} (hcode : code.TimedBy checks holds)
    (halike : CarriesAlike checks holds clock due c) {m n : Machine}
    (hm : m.state.DueAt holds clock due) (h : m.exec code = .ok n) :
    (m.shift c).exec code = .ok (n.shift c) := by
  obtain ⟨script, rfl, hscript⟩ := hcode
  induction script generalizing m with
  | nil =>
    cases h
    rfl
  | cons piece rest ih =>
    rw [Script.code, List.flatMap_cons, Machine.exec_append] at h ⊢
    obtain ⟨k, hk, h⟩ := bind_eq_ok.1 h
    obtain ⟨hshift, hdue⟩ := (hscript piece (by simp)).exec_shift halike hm hk
    rw [hshift]
    exact ih hdue (fun p hp => hscript p (by simp [hp])) h

theorem run_shift {code : Code} (hcode : code.TimedBy checks holds)
    (halike : CarriesAlike checks holds clock due c) {s t : State} (hs : s.DueAt holds clock due)
    (h : code.run s = .ok t) : code.run (s.shift c) = .ok (t.shift c) :=
  run_eq_ok_iff.2 (hcode.exec_shift halike hs (run_eq_ok_iff.1 h))

end Code.TimedBy

theorem Scoreboard.timedBy_opening {board : Scoreboard} {lo hi : Effects}
    (h : hi.readsQ = true → checks board.time) : (board.opening lo hi).TimedBy checks holds := by
  have hrelease : Latch.q.release.TimedBy checks holds := .piece (p := .release) trivial
  rw [opening]
  refine .append ?_ ?_
  · split
    · exact hrelease
    · exact .nil
  · split
    · rename_i hr
      exact .piece (p := .releaseIfDue board.time) (h hr)
    · exact .nil

theorem Pair.timedBy_body {isa : InstructionSet} {snapshot : Option Snapshot} {p : Pair} {t : Cycle}
    (hu : ((p.upperIssue t).code isa).TimedBy checks holds)
    (hl : ((p.lowerIssue t).code isa).TimedBy checks holds) :
    (p.body isa snapshot t).TimedBy checks holds := by
  have hmoves : ∀ {xs}, p.Brackets snapshot xs → (Code.moves xs).TimedBy checks holds := fun hxs =>
    .of_mentions fun f hf => (hxs.bracketed_of_mentions hf).untimed.1
  rw [body_eq_moves]
  exact (hmoves brackets_keeps).append (hu.append ((hmoves brackets_swaps).append
    (hl.append (hmoves brackets_restores))))

/-- The instruction leaves timing to the latch of Q, and if it reads Q, the check before it is one of
those expected. -/
structure Issue.TimedBy (isa : InstructionSet) (checks holds : Cycle → Prop) (i : Issue) : Prop where
  code : (i.code isa).TimedBy checks holds
  check : (isa.effects i.address i.opcode).readsQ = true → checks i.time

theorem Progress.timedBy_of_run {isa : InstructionSet} {m : Memory} {snapshot : Option Snapshot}
    {latency : Cycle} {xs : List Address} {p : Progress}
    (h : xs.foldlM (step isa m snapshot) (.start latency) = .ok p)
    (hissued : ∀ i ∈ p.issued, i.TimedBy isa checks holds) : p.draft.code.TimedBy checks holds := by
  refine foldlM_induction (P := fun p : Progress =>
    (∀ i ∈ p.issued, i.TimedBy isa checks holds) → p.draft.code.TimedBy checks holds) ?_ ?_ h hissued
  · intro p a q _ hp hq hissued
    have adv := advance_of_step hq
    rw [adv.issued] at hissued
    have hu := hissued ((Pair.decode isa m a).upperIssue p.scoreboard.time) (by simp)
    have hl := hissued ((Pair.decode isa m a).lowerIssue p.scoreboard.time) (by simp)
    rw [(Draft.emit_eq_ok_iff.1 adv.emit).2]
    exact (hp fun i hi => hissued i (by simp [hi])).append
      ((Scoreboard.timedBy_opening hu.check).append (Pair.timedBy_body hu.code hl.code))
  · intro _
    exact .nil

theorem run_shift_of_compile {isa : InstructionSet} {options : Options} {m : Memory} {b : Block}
    {done : Compiled} (hisa : isa.SelfContained) (h : compile options isa m b = .ok done)
    (hissued : ∀ i ∈ done.issued, i.TimedBy isa checks holds)
    (halike : CarriesAlike checks holds clock due c) {s : State} (hclock : s.pipeTime = clock)
    (hdue : s.qTarget = due) :
    ∃ t, done.draft.code.run s = .ok t ∧ done.draft.code.run (s.shift c) = .ok (t.shift c) := by
  have hreg := fun n hn => (compile_snapshot h (n := n) hn).1
  obtain ⟨delay, p, draft, -, hp, hdraft, rfl⟩ := compile_eq_ok_iff.1 h
  obtain ⟨u, hu⟩ := (Progress.selfContained_of_run hisa hreg hp).runs s
  have hshift := (Progress.timedBy_of_run hp hissued).run_shift halike ⟨hclock, .inl hdue⟩ hu
  rw [(Draft.emit_eq_ok_iff.1 hdraft).2]
  refine ⟨_, by rw [Code.run_append hu, State.run_closing], ?_⟩
  rw [Code.run_append hshift, State.run_closing, State.close_shift]

end

namespace Probe

/-- Check Q at cycle `t`, after queueing a one that is due at cycle `d` if there is such a cycle. -/
def script (d : Option Cycle) (t : Cycle) : Script :=
  d.elim [] (fun h => [.action (.const 1), .hold 0 h]) ++ [.releaseIfDue t]

def isa (d : Option Cycle) (t : Cycle) : InstructionSet where
  branch _ _ := .straight
  effects _ _ := .idle
  target _ _ := 0
  code a _ _ := if a = 0 then (script d t).code else []

def memory : Memory := ⟨fun _ => 0⟩

def block : Block := .zero

variable {checks holds : Cycle → Prop} {d : Option Cycle} {t : Cycle}

theorem disciplined : (script d t).code.Disciplined where
  follows := by cases d <;> rfl
  valid f hf := by
    cases f with
    | vf r | vi r => cases d <;> cases hf
    | _ => trivial

theorem selfContained : (isa d t).SelfContained := by
  intro a w time
  simp only [isa]
  split
  · exact disciplined.selfContained
  · exact Code.selfContained_nil

theorem timedBy (ht : checks t) (hd : ∀ h ∈ d, holds h) (i : Issue) :
    i.TimedBy (isa d t) checks holds where
  code := by
    simp only [Issue.code, isa]
    split
    · refine ⟨script d t, rfl, ?_⟩
      cases d with
      | none => simpa [script, Piece.TimedBy] using ht
      | some h => simpa [script, Piece.TimedBy, Action.Untimed, Action.pushes, Action.pulls, ht] using hd
    · exact .nil
  check := by rintro ⟨⟩

theorem exists_compiled (d : Option Cycle) (t : Cycle) :
    ∃ m b done board e, compile {} (isa d t) m b = .ok done ∧
      done.draft.code = (script d t).code ++ (Scoreboard.finish board ++ Extent.jumpFixup e) := by
  let p : Progress := ⟨⟨(script d t).code, .empty⟩, ⟨macLatency, 1, .fill vfCount 0⟩, 1,
    [⟨4, 0, 0⟩, ⟨0, 0, 0⟩]⟩
  have hstep : (Progress.start macLatency).step (isa d t) memory none 0 = .ok p := by cases d <;> rfl
  have hrun : (block.addresses 4).foldlM (Progress.step (isa d t) memory none) (.start macLatency) =
      .ok p := by
    show [0].foldlM _ _ = _
    rw [List.foldlM_cons]
    exact congrArg (· >>= fun p => .ok p) hstep
  have hdelay : ({} : Options).delayOf (isa d t) memory block 4 = .ok .absent := rfl
  exact ⟨memory, block, _, p.scoreboard, _, compile_eq_ok_iff.2 ⟨.absent, p, _, hdelay, hrun,
    Draft.emit_of_balanced rfl (p.scoreboard.disciplined_closing _).selfContained.balanced, rfl⟩, rfl⟩

theorem run_releaseIfDue {s : State} (hq : s.q = 0) (hheld : s.qHeld = 1) :
    ∃ u, (Latch.q.releaseIfDue t).run s = .ok u ∧ (u.q = 1 ↔ s.qTarget ≤ s.pipeTime + t) := by
  rw [Code.run, Machine.exec_releaseIfDue]
  by_cases hs : s.qTarget ≤ s.pipeTime + t
  · refine ⟨{ s with q := s.qHeld }, ?_, by simp [hs, hheld]⟩
    simp [Machine.start, Machine.showingHeld, Machine.finish, hs, bind, Except.bind]
  · refine ⟨s, ?_, by simp [hs, hq]⟩
    simp [Machine.start, Machine.finish, hs, bind, Except.bind]

theorem run_script {s : State} (hq : s.q = 0) (hheld : s.qHeld = 1) :
    ∃ u, (script d t).code.run s = .ok u ∧
      (u.q = 1 ↔ d.elim s.qTarget (s.pipeTime + ·) ≤ s.pipeTime + t) := by
  cases d with
  | none => exact run_releaseIfDue hq hheld
  | some h =>
    have hhold : Code.run (.const 1 :: Latch.q.hold 0 h) s =
        .ok { s with qHeld := 1, qTarget := s.pipeTime + h } := by
      rw [Code.run_eq_ok_iff, Machine.exec_cons]
      refine (Machine.exec_hold_eq_ok_iff (m := ⟨s, [.word 1], 0⟩)).2 (.inr ⟨rfl, 1, [], rfl, ?_⟩)
      rw [UInt32.zero_add]
      rfl
    obtain ⟨u, hu, huq⟩ := run_releaseIfDue (t := t)
      (s := { s with qHeld := 1, qTarget := s.pipeTime + h }) hq rfl
    rw [← Code.run_append hhold] at hu
    exact ⟨u, hu, huq⟩

theorem run_compiled {done : Compiled} {board : Scoreboard} {e : Extent}
    (h : done.draft.code = (script d t).code ++ (board.finish ++ e.jumpFixup)) {s : State} (hq : s.q = 0)
    (hheld : s.qHeld = 1) : ∃ u, done.draft.code.run s = .ok u ∧
      (u.q = 1 ↔ d.elim s.qTarget (s.pipeTime + ·) ≤ s.pipeTime + t) := by
  obtain ⟨u, hu, huq⟩ := run_script (d := d) (t := t) hq hheld
  refine ⟨_, by rw [h, Code.run_append hu, State.run_closing], ?_⟩
  have hread : (u.close u.pipeTime e board.time).read .q = u.read .q := by simp [State.read_close]
  have hsame : (u.close u.pipeTime e board.time).q = u.q := State.eq_of_read hread rfl rfl
  rw [hsame, huq]

end Probe

/-- Setting the clock and the due cycle ahead by `c` before a block runs sets them ahead by `c` in the
state that it ends in and changes nothing else, for every block whose checks and due cycles are among
those given, exactly if every check and the due cycle it looks at wrap alike. -/
theorem run_shift_iff_carriesAlike (checks holds : Cycle → Prop) (clock due c : Cycle) :
    (∀ (isa : InstructionSet) (options : Options) (m : Memory) (b : Block) (done : Compiled),
      isa.SelfContained → compile options isa m b = .ok done →
      (∀ i ∈ done.issued, i.TimedBy isa checks holds) →
      ∀ s : State, s.pipeTime = clock → s.qTarget = due →
        ∃ t, done.draft.code.run s = .ok t ∧ done.draft.code.run (s.shift c) = .ok (t.shift c)) ↔
      CarriesAlike checks holds clock due c := by
  constructor
  · intro hlaw t ht due' hd'
    -- a block that holds a result until the cycle in question, if need be, and checks it
    obtain ⟨d, hd, hdue⟩ : ∃ d : Option Cycle, (∀ h ∈ d, holds h) ∧ due' = d.elim due (clock + ·) := by
      obtain rfl | ⟨h, hh, rfl⟩ := hd'
      · exact ⟨none, by simp, rfl⟩
      · exact ⟨some h, by simpa using hh, rfl⟩
    obtain ⟨m, b, done, board, e, hdone, hcode⟩ := Probe.exists_compiled d t
    let s : State := { State.initial with pipeTime := clock, qTarget := due, qHeld := 1 }
    obtain ⟨u, hu, hlater⟩ := hlaw _ _ m b done Probe.selfContained hdone
      (fun i _ => Probe.timedBy ht hd i) s rfl rfl
    obtain ⟨v, hv, hvq⟩ := Probe.run_compiled hcode (s := s) rfl rfl
    obtain ⟨w, hw, hwq⟩ := Probe.run_compiled hcode (s := s.shift c) rfl rfl
    rw [hu, Except.ok.injEq] at hv
    rw [hlater, Except.ok.injEq] at hw
    subst hv hw
    rw [← shifted_le_iff_iff_carries, hdue]
    have hq : (u.shift c).q = u.q := rfl
    rw [hq, hvq] at hwq
    have hpast : clock + c + t = clock + t + c := by ac_rfl
    have htarget : d.elim (due + c) (clock + c + ·) = d.elim due (clock + ·) + c := by
      cases d with
      | none => rfl
      | some h =>
        have hcomm : clock + c + h = clock + h + c := by ac_rfl
        exact hcomm
    simp only [State.shift, s, hpast, htarget] at hwq
    exact hwq.symm
  · intro halike isa options m b done hisa h hissued s hclock hdue
    exact run_shift_of_compile hisa h hissued halike hclock hdue

namespace Sample

theorem division_timedBy {checks holds : Cycle → Prop} {i : Issue}
    (hhold : i.opcode = 1 → holds (i.time + divLatency)) (hcheck : i.opcode = 1 → checks i.time) :
    i.TimedBy division checks holds where
  code := by
    refine ⟨divisionScript i, rfl, ?_⟩
    simp only [divisionScript]
    split
    · rename_i hw
      split <;> simp [Piece.TimedBy, Action.Untimed, Action.pushes, Action.pulls, Field.isTiming, hhold hw]
    · simp
  check h := by
    simp only [division, decide_eq_true_eq] at h
    exact hcheck h.1

theorem quotient_seen_alike : ∃ b done t, Block.ofRange 0 12 = .ok b ∧
    compile {} division quotient b = .ok done ∧ done.draft.code.run (registersOf 5) = .ok t ∧
    done.draft.code.run ((registersOf 5).shift 1000) = .ok (t.shift 1000) := by
  have hdone : ∃ b done, Block.ofRange 0 12 = .ok b ∧ compile {} division quotient b = .ok done ∧
      ∀ i ∈ done.issued, i.opcode = 1 → i.time ≤ 1 := ⟨_, _, rfl, rfl, by decide⟩
  obtain ⟨b, done, hb, hdone, htime⟩ := hdone
  have hnever : ∀ x : Cycle, x ≤ 8 → ¬Carries 1000 x := by
    intro x hx
    have hx : x.toNat ≤ 8 := hx
    rw [Carries]
    simp; omega
  have halike : CarriesAlike (· ≤ 1) (· ≤ 8) 0 0 1000 := by
    intro t ht d hd
    rw [UInt32.zero_add, iff_false_left (hnever t (UInt32.le_trans ht (by decide)))]
    obtain rfl | ⟨h, hh, rfl⟩ := hd
    · exact hnever 0 (by decide)
    · rw [UInt32.zero_add]
      exact hnever h hh
  have hhold : ∀ t : Cycle, t ≤ 1 → t + divLatency ≤ 8 := by
    intro t ht
    have ht : t.toNat ≤ 1 := ht
    rw [UInt32.le_iff_toNat_le, UInt32.toNat_add]
    simp [divLatency]; omega
  obtain ⟨t, ht, hshift⟩ := (run_shift_iff_carriesAlike _ _ 0 0 1000).2 halike _ _ _ b done
    division_selfContained hdone
    (fun i hi => division_timedBy (fun hw => hhold _ (htime i hi hw)) (htime i hi)) (registersOf 5) rfl rfl
  exact ⟨b, done, t, hb, hdone, ht, hshift⟩

/-- Close to the end of the counter the quotient is seen one cycle after the division, and not seven:
it is due after the counter has wrapped, at a cycle with a small number. -/
theorem quotient_seen_early : division.SelfContained ∧
    (∀ i : Issue, i.TimedBy division (fun _ => True) (fun _ => True)) ∧
    ∃ b done t u, Block.ofRange 0 12 = .ok b ∧ compile {} division quotient b = .ok done ∧
      done.draft.code.run (registersOf 5) = .ok t ∧
      done.draft.code.run ((registersOf 5).shift 0xFFFFFFFE) = .ok u ∧
      t.i = 0 ∧ u.i = 5 ∧ u ≠ t.shift 0xFFFFFFFE := by
  have hruns : ∃ b done t u, Block.ofRange 0 12 = .ok b ∧ compile {} division quotient b = .ok done ∧
      done.draft.code.run (registersOf 5) = .ok t ∧
      done.draft.code.run ((registersOf 5).shift 0xFFFFFFFE) = .ok u ∧ t.i = 0 ∧ u.i = 5 :=
    ⟨_, _, _, _, rfl, rfl, rfl, rfl, rfl, rfl⟩
  obtain ⟨b, done, t, u, hb, hdone, ht, hu, hti, hui⟩ := hruns
  refine ⟨division_selfContained, fun i => division_timedBy (fun _ => trivial) (fun _ => trivial), b, done,
    t, u, hb, hdone, ht, hu, hti, hui, ?_⟩
  rintro rfl
  simp only [State.shift, hti] at hui
  exact absurd hui (by decide)

end Sample

end DualIssue
