import DualIssue.Proofs.Script

/-!
When a result for Q is seen. A block knows only the cycles since its own start, the clock is brought
up to date when the block ends, and a check may have made a result visible long before it is looked
at. Main statement: over any sequence of blocks, a pair that reads Q sees the result queued last
before it if that is due or has to make room for a new one, and else the result queued before that.
-/

set_option autoImplicit false

namespace DualIssue

/-- The part of a state that decides about Q. -/
structure Timing where
  clock : Word
  value : Word
  held : Word
  due : Word

def State.timing (s : State) : Timing := ⟨s.pipeTime, s.q, s.qHeld, s.qTarget⟩

structure Result where
  value : Word
  due : Nat
  deriving DecidableEq, Repr

namespace Timing

def queue (t : Cycle) (x : Timing) (r : Word × Cycle) : Timing :=
  { x with held := r.1, due := x.clock + (t + r.2) }

variable (x : Timing)

def opened (lo hi : Effects) (t : Cycle) : Timing :=
  { x with value := if lo.writesQ ∨ hi.readsQ ∧ x.due ≤ x.clock + t then x.held else x.value }

def heldAfter : List Result → Word
  | [] => x.held
  | r :: _ => r.value

def dueAfter : List Result → Nat
  | [] => x.due.toNat
  | r :: _ => r.due

def shownBefore : List Result → Word
  | [] => x.value
  | _ :: rs => x.heldAfter rs

/-- What is to be seen of the results `rs` at a cycle. A pair that queues a result itself sees the last
one, due or not. -/
def visible (rs : List Result) (cycle : Nat) (queues : Bool) : Word :=
  if queues ∨ x.dueAfter rs ≤ cycle then x.heldAfter rs else x.shownBefore rs

/-- The latch holds the last result, and Q shows the one before, or the last one if it was due by the
cycle `now`. -/
structure Tracks (rs : List Result) (now : Nat) (y : Timing) : Prop where
  held : y.held = x.heldAfter rs
  due : y.due.toNat = x.dueAfter rs
  value : y.value = x.shownBefore rs ∨ y.value = x.heldAfter rs ∧ x.dueAfter rs ≤ now

variable {x} {y : Timing} {rs : List Result} {now cycle : Nat} {lo hi : Effects} {t : Cycle}

theorem Tracks.start : x.Tracks [] now x := ⟨rfl, rfl, .inl rfl⟩

theorem Tracks.mono (h : x.Tracks rs now y) (hle : now ≤ cycle) : x.Tracks rs cycle y :=
  ⟨h.held, h.due, h.value.imp_right fun ⟨hv, hd⟩ => ⟨hv, by omega⟩⟩

theorem Tracks.value_opened (h : x.Tracks rs now y) (hnow : now ≤ cycle)
    (hcycle : (y.clock + t).toNat = cycle) (hr : hi.readsQ = true) :
    (y.opened lo hi t).value = x.visible rs cycle lo.writesQ := by
  have hdue : y.due ≤ y.clock + t ↔ x.dueAfter rs ≤ cycle := by
    rw [UInt32.le_iff_toNat_le, hcycle, h.due]
  simp only [Timing.opened, visible, hr, hdue, true_and, h.held]
  by_cases hs : lo.writesQ = true ∨ x.dueAfter rs ≤ cycle
  · rw [if_pos hs, if_pos hs]
  · rw [if_neg hs, if_neg hs]
    obtain hv | ⟨-, hd⟩ := h.value
    · exact hv
    · exact absurd (.inr (by omega)) hs

theorem Tracks.opened (h : x.Tracks rs now y) (hnow : now ≤ cycle)
    (hcycle : (y.clock + t).toNat = cycle) (hw : lo.writesQ = false) :
    x.Tracks rs cycle (y.opened lo hi t) := by
  refine ⟨h.held, h.due, ?_⟩
  simp only [Timing.opened, hw, Bool.false_eq_true, false_or]
  by_cases hs : hi.readsQ = true ∧ y.due ≤ y.clock + t
  · rw [if_pos hs, h.held]
    rw [UInt32.le_iff_toNat_le, hcycle, h.due] at hs
    exact .inr ⟨rfl, hs.2⟩
  · rw [if_neg hs]
    exact (h.mono hnow).value

theorem Tracks.queued (h : x.Tracks rs now y) (hw : lo.writesQ = true) {r : Word × Cycle} {due : Nat}
    (hdue : (y.clock + (t + r.2)).toNat = due) :
    x.Tracks (⟨r.1, due⟩ :: rs) cycle ((y.opened lo hi t).queue t r) := by
  refine ⟨rfl, hdue, .inl ?_⟩
  simp only [queue, Timing.opened, hw, true_or, if_true]
  exact h.held

end Timing

namespace State

theorem timing_eq_of_read {s t : State} (h : ∀ f, f.isTiming = true ∨ f = .q → t.read f = s.read f) :
    t.timing = s.timing := by
  simp only [timing, Timing.mk.injEq]
  exact ⟨eq_of_read (h .pipeTime (.inl rfl)) rfl rfl, eq_of_read (h .q (.inr rfl)) rfl rfl,
    eq_of_read (h .qHeld (.inl rfl)) rfl rfl, eq_of_read (h .qTarget (.inl rfl)) rfl rfl⟩

theorem timing_of_run {code : Code} {s t : State} (h : code.run s = .ok t)
    (hcode : ∀ f, f.isTiming = true ∨ f = .q → code.pulls f = false) : t.timing = s.timing :=
  timing_eq_of_read fun f hf => Code.read_run h (hcode f hf)

theorem timing_openQ (lo hi : Effects) (t : Cycle) (s : State) :
    (s.openQ s.pipeTime lo hi t).timing = s.timing.opened lo hi t := by
  cases hw : lo.writesQ <;> cases hr : hi.readsQ <;> by_cases hd : s.qTarget ≤ s.pipeTime + t <;>
    simp [openQ, timing, Timing.opened, hw, hr, hd]

theorem timing_close (clock : Word) (e : Extent) (t : Cycle) (s : State) :
    (s.close clock e t).timing = { s.timing with clock := clock + t } := by
  cases he : e.extended <;> by_cases hj : s.delayedJump = noJump <;> simp [close, timing, he, hj]

end State

def Piece.queued (m : Machine) (piece : Piece) : List (Word × Cycle) :=
  match piece, m.skip, m.stack with
  | .hold _ latency, 0, .word w :: _ => [(w, latency)]
  | _, _, _ => []

/-- What a script queues from where the machine is, the first result first. -/
def Script.queued : Script → Machine → List (Word × Cycle)
  | [], _ => []
  | piece :: rest, m =>
    piece.queued m ++
      match m.exec piece.code with
      | .ok n => queued rest n
      | .error _ => []

def Piece.Queues (t : Cycle) : Piece → Prop
  | .action a => a.Untimed ∧ a.pulls .q = false
  | .hold time _ => time = t
  | .release | .releaseIfDue _ => False

theorem Piece.Queues.timing_of_exec {t : Cycle} {piece : Piece} (hp : piece.Queues t) {m n : Machine}
    (h : m.exec piece.code = .ok n) :
    n.state.timing = (piece.queued m).foldl (Timing.queue t) m.state.timing := by
  cases piece with
  | action a =>
    obtain ⟨k, hk, h⟩ := bind_eq_ok.1 h
    cases h
    refine State.timing_eq_of_read fun f hf => Machine.read_step hk ?_
    obtain hf | rfl := hf
    · exact hp.1.pulls hf
    · exact hp.2
  | release | releaseIfDue t => exact hp.elim
  | hold time latency =>
    cases hp
    obtain ⟨hs, rfl⟩ | ⟨hs, w, rest, hstack, rfl⟩ := Machine.exec_hold_eq_ok_iff.1 h
    · have hnone : queued n (.hold t latency) = [] := by
        simp only [queued]
        split
        · rename_i h0 _
          exact absurd h0 hs
        · rfl
      rw [hnone]
      rfl
    · simp only [queued, hs, hstack]
      rfl

theorem Script.timing_of_exec {t : Cycle} {script : Script} (hs : ∀ piece ∈ script, piece.Queues t)
    {m n : Machine} (h : m.exec script.code = .ok n) :
    n.state.timing = (script.queued m).foldl (Timing.queue t) m.state.timing := by
  induction script generalizing m with
  | nil =>
    cases h
    rfl
  | cons piece rest ih =>
    rw [Script.code, List.flatMap_cons, Machine.exec_append] at h
    obtain ⟨k, hk, h⟩ := bind_eq_ok.1 h
    rw [queued, hk, List.foldl_append, ← (hs piece (by simp)).timing_of_exec hk]
    exact ih (fun p hp => hs p (by simp [hp])) h

/-- The instructions stand on their own and use the latch of Q for nothing but to queue results. A lower
half that is said to write Q queues one result whenever it runs, every other instruction none. -/
structure InstructionSet.QueuesBy (isa : InstructionSet) (script : Issue → Script) : Prop where
  alone : isa.SelfContained
  code : ∀ i : Issue, i.code isa = (script i).code
  pieces : ∀ i, ∀ piece ∈ script i, piece.Queues i.time
  once : ∀ i s, ((script i).queued (.start s)).length =
    if i.address.toNat % 8 = 0 ∧ (isa.effects i.address i.opcode).writesQ then 1 else 0

theorem InstructionSet.QueuesBy.timing_of_run {isa : InstructionSet} {script : Issue → Script}
    (h : isa.QueuesBy script) {i : Issue} {s t : State} (hr : (i.code isa).run s = .ok t) :
    t.timing = ((script i).queued (.start s)).foldl (Timing.queue i.time) s.timing := by
  rw [h.code, Code.run_eq_ok_iff] at hr
  exact Script.timing_of_exec (h.pieces i) hr

/-- What is observed of one pair as it runs. -/
structure Visit where
  pair : Pair
  start : Word
  time : Cycle
  /-- When it issues in all, counted on without wrapping. -/
  cycle : Nat
  seen : Word
  queued : List Result

def Visit.issues (v : Visit) : List Issue := [v.pair.upperIssue v.time, v.pair.lowerIssue v.time]

def Visit.InRange (v : Visit) : Prop := v.cycle < 2 ^ 32 ∧ ∀ r ∈ v.queued, r.due < 2 ^ 32

instance (v : Visit) : Decidable v.InRange := inferInstanceAs (Decidable (_ ∧ _))

def resultsOf (visits : List Visit) : List Result := (visits.flatMap (·.queued)).reverse

structure Watch where
  state : State
  clock : Nat
  board : Scoreboard
  visits : List Visit

namespace Watch

def visit (w : Watch) (start : Word) (p : Pair) (seen : Word) (queue : List (Word × Cycle)) : Visit where
  pair := p
  start := start
  time := w.board.time
  cycle := w.clock + w.board.time.toNat
  seen := seen
  queued := queue.map fun r => ⟨r.1, w.clock + w.board.time.toNat + r.2.toNat⟩

def pass (isa : InstructionSet) (script : Issue → Script) (snapshot : Option Snapshot) (start : Word)
    (w : Watch) (p : Pair) : Except Fault Watch := do
  let upper := p.upperIssue w.board.time
  let lower := p.lowerIssue w.board.time
  let found ← (w.board.opening p.lo p.hi ++ Code.moves (p.keeps snapshot)).run w.state
  let shown ← (upper.code isa ++ Code.moves (p.swaps snapshot)).run found
  let left ← (lower.code isa ++ Code.moves (p.restores snapshot)).run shown
  let board ← w.board.retire p.lo p.hi
  let v := w.visit start p found.q ((script lower).queued (.start shown))
  .ok { w with state := left, board, visits := w.visits ++ [v] }

end Watch

section

variable {isa : InstructionSet} {script : Issue → Script} {snapshot : Option Snapshot} {p : Pair}

theorem Pair.Brackets.timing_of_run {xs : List (Field × Field)} (h : p.Brackets snapshot xs)
    {s t : State} (hr : (Code.moves xs).run s = .ok t) : t.timing = s.timing := by
  refine State.timing_of_run hr fun f hf => Bool.eq_false_iff.2 fun hp => ?_
  have hb := (h.bracketed_of_mentions (f := f) (by simp [Code.mentions, hp])).untimed
  obtain hf | hf := hf
  · simp [hb.1] at hf
  · exact hb.2 hf

namespace InstructionSet.QueuesBy

theorem runs (h : isa.QueuesBy script) (i : Issue) (s : State) : ∃ t, (i.code isa).run s = .ok t :=
  (h.alone i.address i.opcode i.time).runs s

theorem timing_of_upper (h : isa.QueuesBy script) (ha : p.address.toNat % 8 = 0) {t : Cycle}
    {s u : State} (hr : ((p.upperIssue t).code isa).run s = .ok u) : u.timing = s.timing := by
  have hfour : (p.upperIssue t).address.toNat % 8 ≠ 0 := by
    have := toNat_add_four ha
    simp only [Pair.upperIssue]
    omega
  have hnone := h.once (p.upperIssue t) s
  rw [if_neg fun hh => hfour hh.1, List.length_eq_zero_iff] at hnone
  rw [h.timing_of_run hr, hnone]
  rfl

end InstructionSet.QueuesBy

theorem Watch.exists_pass (hisa : isa.QueuesBy script) (ha : p.address.toNat % 8 = 0)
    (hlo : p.lo = isa.effects p.address p.lower) (hcheck : p.check = .ok ())
    (hreg : ∀ n ∈ snapshot, n.reg.toNat < viCount) (start : Word) {w : Watch} {board : Scoreboard}
    (hboard : w.board.retire p.lo p.hi = .ok board) :
    ∃ left queue, w.pass isa script snapshot start p = .ok ⟨left, w.clock, board, w.visits ++
        [w.visit start p (w.state.timing.opened p.lo p.hi w.board.time).value queue]⟩ ∧
      (w.board.opening p.lo p.hi ++ p.body isa snapshot w.board.time).run w.state = .ok left ∧
      queue.length = p.lo.writesQ.toNat ∧
      left.timing = queue.foldl (Timing.queue w.board.time)
        (w.state.timing.opened p.lo p.hi w.board.time) := by
  have hopen := State.run_opening w.board p.lo p.hi w.state
  obtain ⟨found, hfound⟩ := (Pair.brackets_keeps.selfContained hcheck hreg).runs
    (w.state.openQ w.state.pipeTime p.lo p.hi w.board.time)
  obtain ⟨between, hupper⟩ := hisa.runs (p.upperIssue w.board.time) found
  obtain ⟨shown, hshown⟩ := (Pair.brackets_swaps.selfContained hcheck hreg).runs between
  obtain ⟨behind, hlower⟩ := hisa.runs (p.lowerIssue w.board.time) shown
  obtain ⟨left, hleft⟩ := (Pair.brackets_restores.selfContained hcheck hreg).runs behind
  have htfound : found.timing = w.state.timing.opened p.lo p.hi w.board.time := by
    rw [Pair.brackets_keeps.timing_of_run hfound, State.timing_openQ]
  have htshown : shown.timing = found.timing := by
    rw [Pair.brackets_swaps.timing_of_run hshown, hisa.timing_of_upper ha hupper]
  refine ⟨left, (script (p.lowerIssue w.board.time)).queued (.start shown), ?_, ?_, ?_, ?_⟩
  · rw [← htfound]
    simp only [pass, Code.run_append hopen, hfound, Code.run_append hupper, hshown,
      Code.run_append hlower, hleft, hboard, bind, Except.bind]
    rfl
  · rw [Code.run_append hopen, Pair.body_eq_moves, Code.run_append hfound, Code.run_append hupper,
      Code.run_append hshown, Code.run_append hlower, hleft]
  · rw [hisa.once]
    cases hw : p.lo.writesQ <;> rw [hlo] at hw <;> simp [Pair.lowerIssue, ha, hw]
  · rw [Pair.brackets_restores.timing_of_run hleft, hisa.timing_of_run hlower, htshown, htfound]
    rfl

end

theorem resultsOf_concat (visits : List Visit) (v : Visit) :
    resultsOf (visits ++ [v]) = v.queued.reverse ++ resultsOf visits := by
  simp [resultsOf]

theorem Timing.clock_queues (t : Cycle) (queue : List (Word × Cycle)) (x : Timing) :
    (queue.foldl (Timing.queue t) x).clock = x.clock := by
  induction queue generalizing x with
  | nil => rfl
  | cons r queue ih => exact ih _

theorem toNat_ofNat_add {n : Nat} {t : Cycle} (h : n + t.toNat < 2 ^ 32) :
    (UInt32.ofNat n + t).toNat = n + t.toNat := by
  rw [UInt32.toNat_add, UInt32.toNat_ofNat']
  omega

/-- The visit is as it should be if those in `before` came before it. -/
structure Visit.Expected (x : Timing) (before : List Visit) (v : Visit) : Prop where
  cycle : v.cycle = v.start.toNat + v.time.toNat
  seen : v.pair.hi.readsQ = true → v.seen = x.visible (resultsOf before) v.cycle v.pair.lo.writesQ

namespace Watch

/-- Everything watched so far is as it should be, if it can be told by the clock, and `now` is the cycle
up to which results may have become visible. -/
structure Sound (x : Timing) (now : Nat) (w : Watch) : Prop where
  clock : w.state.timing.clock = UInt32.ofNat w.clock
  once : ∀ v ∈ w.visits, v.queued.length = v.pair.lo.writesQ.toNat
  tracks : (∀ v ∈ w.visits, v.InRange) → x.Tracks (resultsOf w.visits) now w.state.timing
  expected : (∀ v ∈ w.visits, v.InRange) →
    ∀ before v after, w.visits = before ++ v :: after → v.Expected x before

variable {x : Timing} {now : Nat} {w : Watch} {start : Word} {p : Pair} {left : State}
  {queue : List (Word × Cycle)}

theorem Sound.mono (h : w.Sound x now) {later : Nat} (hle : now ≤ later) : w.Sound x later :=
  ⟨h.clock, h.once, fun hrange => (h.tracks hrange).mono hle, h.expected⟩

theorem Sound.close (h : w.Sound x (w.clock + w.board.time.toNat)) (e : Extent) :
    Sound x (w.clock + w.board.time.toNat) { w with
      state := w.state.close w.state.pipeTime e w.board.time
      clock := w.clock + w.board.time.toNat } where
  clock := by
    have hclock : w.state.pipeTime = UInt32.ofNat w.clock := h.clock
    simp only [State.timing_close]
    rw [hclock, UInt32.ofNat_add, UInt32.ofNat_toNat]
  once := h.once
  tracks hrange := by
    have htracks := h.tracks hrange
    simp only [State.timing_close]
    exact ⟨htracks.held, htracks.due, htracks.value⟩
  expected := h.expected

theorem Sound.tracks_visit (h : w.Sound x (w.clock + w.board.time.toNat))
    (hlength : queue.length = p.lo.writesQ.toNat)
    (hleft : left.timing = queue.foldl (Timing.queue w.board.time)
      (w.state.timing.opened p.lo p.hi w.board.time))
    (hold : ∀ v ∈ w.visits, v.InRange) {seen : Word} (hnew : (w.visit start p seen queue).InRange) :
    x.Tracks (resultsOf (w.visits ++ [w.visit start p seen queue])) (w.clock + w.board.time.toNat)
      left.timing := by
  have htracks := h.tracks hold
  have hcycle := toNat_ofNat_add hnew.1
  rw [← h.clock] at hcycle
  rw [resultsOf_concat, hleft]
  cases hw : p.lo.writesQ with
  | false =>
    rw [hw] at hlength
    rw [List.length_eq_zero_iff.1 hlength]
    exact htracks.opened (Nat.le_refl _) hcycle hw
  | true =>
    rw [hw] at hlength
    obtain ⟨r, rfl⟩ := List.length_eq_one_iff.1 hlength
    have hdue : (w.state.timing.clock + (w.board.time + r.2)).toNat =
        w.clock + w.board.time.toNat + r.2.toNat := by
      have hr : w.clock + w.board.time.toNat + r.2.toNat < 2 ^ 32 := hnew.2 ⟨r.1, _⟩ (by simp [visit])
      rw [h.clock, UInt32.toNat_add, UInt32.toNat_add, UInt32.toNat_ofNat']
      omega
    exact htracks.queued hw hdue

theorem Sound.visit (h : w.Sound x (w.clock + w.board.time.toNat))
    (hstart : start = UInt32.ofNat w.clock) (hlength : queue.length = p.lo.writesQ.toNat)
    (hleft : left.timing = queue.foldl (Timing.queue w.board.time)
      (w.state.timing.opened p.lo p.hi w.board.time)) (board : Scoreboard) :
    Sound x (w.clock + w.board.time.toNat) ⟨left, w.clock, board, w.visits ++
      [w.visit start p (w.state.timing.opened p.lo p.hi w.board.time).value queue]⟩ where
  clock := by
    show left.timing.clock = _
    rw [hleft, Timing.clock_queues]
    exact h.clock
  once v hv := by
    obtain hv | hv := List.mem_append.1 hv
    · exact h.once v hv
    · obtain rfl := List.mem_singleton.1 hv
      simpa [Watch.visit] using hlength
  tracks hrange := h.tracks_visit hlength hleft (fun v hv => hrange v (by simp [hv]))
    (hrange _ (by simp))
  expected hrange before v after hvisits := by
    have hold : ∀ v ∈ w.visits, v.InRange := fun v hv => hrange v (by simp [hv])
    obtain rfl | ⟨after, last, rfl⟩ := List.eq_nil_or_concat after
    · obtain ⟨rfl, hlast⟩ := List.append_inj' hvisits rfl
      obtain rfl := (List.cons.inj hlast).1
      have hcycle : w.clock + w.board.time.toNat < 2 ^ 32 :=
        (hrange _ (List.mem_append_right _ (List.mem_singleton_self _))).1
      refine ⟨?_, fun hr => ?_⟩
      · have hclock := toNat_ofNat_add (n := w.clock) (t := 0) (by simp; omega)
        rw [UInt32.add_zero] at hclock
        simp [Watch.visit, hstart, hclock]
      · refine (h.tracks hold).value_opened (Nat.le_refl _) ?_ hr
        rw [h.clock, toNat_ofNat_add hcycle]
        rfl
    · rw [List.concat_eq_append, ← List.cons_append, ← List.append_assoc] at hvisits
      exact h.expected hold before v after (List.append_inj' hvisits rfl).1

end Watch

/-- A block that was compiled without its count of cycles overflowing. -/
structure Compilation (isa : InstructionSet) where
  options : Options
  memory : Memory
  block : Block
  done : Compiled
  compiled : compile options isa memory block = .ok done
  counted : ∀ i ∈ done.issued, i.time.toNat + 1 < 2 ^ 32

namespace Compilation

variable {isa : InstructionSet}

def watch (script : Issue → Script) (w : Watch) (c : Compilation isa) : Except Fault Watch := do
  let extent := c.block.extent isa c.memory
  let w ← (c.block.addresses extent.last).foldlM
    (fun y a => y.pass isa script c.done.report.snapshot w.state.pipeTime (Pair.decode isa c.memory a))
    { w with board := .start c.options.latency }
  let state ← (w.board.finish ++ extent.jumpFixup).run w.state
  .ok { w with state, clock := w.clock + w.board.time.toNat }

/-- The code that the pairs up to here compiled to has done what was watched. -/
structure Follows (x : Timing) (before : Watch) (p : Progress) (w : Watch) : Prop where
  board : w.board = p.scoreboard
  run : p.draft.code.run before.state = .ok w.state
  clock : w.clock = before.clock
  issued : w.visits.flatMap Visit.issues = before.visits.flatMap Visit.issues ++ p.issued
  sound : (∀ i ∈ p.issued, i.time.toNat + 1 < 2 ^ 32) → w.Sound x (w.clock + w.board.time.toNat)

variable {script : Issue → Script} {x : Timing} {before w : Watch}

theorem Follows.pass (hisa : isa.QueuesBy script) {m : Memory} {snapshot : Option Snapshot}
    (hreg : ∀ n ∈ snapshot, n.reg.toNat < viCount) {a : Address} (ha : a.toNat % 8 = 0)
    (hclock : before.state.pipeTime = UInt32.ofNat before.clock) {p q : Progress}
    (h : Follows x before p w) (hq : p.step isa m snapshot a = .ok q) :
    ∃ next, w.pass isa script snapshot before.state.pipeTime (Pair.decode isa m a) = .ok next ∧
      Follows x before q next := by
  have adv := Progress.advance_of_step hq
  have hretire := adv.retire
  have hemit := (Draft.emit_eq_ok_iff.1 adv.emit).2
  rw [← h.board] at hretire hemit
  obtain ⟨left, queue, hpass, hrun, hlength, hleft⟩ := Watch.exists_pass hisa
    (p := Pair.decode isa m a) ha rfl adv.check hreg before.state.pipeTime hretire
  refine ⟨_, hpass, rfl, ?_, h.clock, ?_, ?_⟩
  · rw [hemit, Code.run_append h.run, hrun]
  · rw [List.flatMap_append, h.issued, adv.issued, List.append_assoc, ← h.board]
    rfl
  · intro hroom
    rw [adv.issued] at hroom
    have hbefore := h.sound fun i hi => hroom i (by simp [hi])
    have hlater := Scoreboard.time_lt_of_retire hretire (by
      rw [h.board]
      exact hroom ((Pair.decode isa m a).upperIssue p.scoreboard.time) (by simp))
    exact (hbefore.visit (by rw [hclock, h.clock]) hlength hleft _).mono
      (Nat.add_le_add_left (Nat.le_of_lt hlater) _)

theorem exists_watch (hisa : isa.QueuesBy script) (c : Compilation isa) (hw : w.Sound x w.clock) :
    ∃ next, c.watch script w = .ok next ∧ c.done.draft.code.run w.state = .ok next.state ∧
      next.visits.flatMap Visit.issues = w.visits.flatMap Visit.issues ++ c.done.issued ∧
      next.Sound x next.clock := by
  have hreg := fun n hn => (compile_snapshot c.compiled (n := n) hn).1
  have hend := c.block.endsAt_extent isa c.memory
  obtain ⟨delay, p, draft, -, hp, hdraft, hdone⟩ := compile_eq_ok_iff.1 c.compiled
  have hsnapshot : c.done.report.snapshot = delay.snapshot? := by rw [hdone]
  have hissued : c.done.issued = p.issued := by rw [hdone]
  have hcode : c.done.draft.code = draft.code := by rw [hdone]
  rw [← hsnapshot] at hp
  have hstart : Follows x w (.start c.options.latency) { w with board := .start c.options.latency } :=
    ⟨rfl, rfl, rfl, by simp [Progress.start], fun _ => ⟨hw.clock, hw.once, hw.tracks, hw.expected⟩⟩
  obtain ⟨y, hy, hfollows⟩ := foldlM_simulates
    (fun p y a q ha h hq => h.pass hisa hreg (hend.mem_addresses_iff.1 ha).1 hw.clock hq) hstart hp
  have hclose := State.run_closing y.board (c.block.extent isa c.memory) y.state
  refine ⟨{ y with
    state := y.state.close y.state.pipeTime (c.block.extent isa c.memory) y.board.time
    clock := y.clock + y.board.time.toNat }, ?_, ?_, ?_, ?_⟩
  · simp only [watch, hy, hclose, bind, Except.bind]
  · rw [hcode, (Draft.emit_eq_ok_iff.1 hdraft).2, Code.run_append hfollows.run, ← hfollows.board, hclose]
  · rw [hissued, ← hfollows.issued]
  · exact (hfollows.sound (hissued ▸ c.counted)).close _

def runAll (blocks : List (Compilation isa)) (s : State) : Except Fault State :=
  blocks.foldlM (fun s c => c.done.draft.code.run s) s

def watchAll (script : Issue → Script) (blocks : List (Compilation isa)) (w : Watch) :
    Except Fault Watch :=
  blocks.foldlM (watch script) w

theorem exists_watchAll (hisa : isa.QueuesBy script) (blocks : List (Compilation isa))
    (hw : w.Sound x w.clock) :
    ∃ next, watchAll script blocks w = .ok next ∧ runAll blocks w.state = .ok next.state ∧
      next.visits.flatMap Visit.issues =
        w.visits.flatMap Visit.issues ++ blocks.flatMap (·.done.issued) ∧
      next.Sound x next.clock := by
  induction blocks generalizing w with
  | nil => exact ⟨w, rfl, rfl, by simp, hw⟩
  | cons c blocks ih =>
    obtain ⟨u, hu, hrun, hissued, hsound⟩ := c.exists_watch hisa hw
    obtain ⟨next, hnext, hrest, hissued', hsound'⟩ := ih hsound
    refine ⟨next, ?_, ?_, ?_, hsound'⟩
    · rw [watchAll, List.foldlM_cons, hu]
      exact hnext
    · rw [runAll, List.foldlM_cons, hrun]
      exact hrest
    · rw [hissued', hissued, List.flatMap_cons, List.append_assoc]

end Compilation

def Watch.start (s : State) : Watch := ⟨s, s.pipeTime.toNat, .start macLatency, []⟩

theorem Watch.sound_start (s : State) : (start s).Sound s.timing (start s).clock where
  clock := (UInt32.ofNat_toNat).symm
  once := by simp [start]
  tracks _ := .start
  expected _ before v after h := by simp [start] at h

/-- Compiled blocks run one after the other, every pair issuing as it was scheduled, and as long as the
clock does not wrap, every upper half that reads Q sees what is to be seen of the results queued before
it. -/
theorem q_seen_in_time {isa : InstructionSet} {script : Issue → Script} (hisa : isa.QueuesBy script)
    (blocks : List (Compilation isa)) (s : State) :
    ∃ w, Compilation.watchAll script blocks (.start s) = .ok w ∧
      Compilation.runAll blocks s = .ok w.state ∧
      w.visits.flatMap Visit.issues = blocks.flatMap (·.done.issued) ∧
      (∀ v ∈ w.visits, v.queued.length = v.pair.lo.writesQ.toNat) ∧
      ((∀ v ∈ w.visits, v.InRange) → ∀ before v after, w.visits = before ++ v :: after →
        v.cycle = v.start.toNat + v.time.toNat ∧
        (v.pair.hi.readsQ = true →
          v.seen = s.timing.visible (resultsOf before) v.cycle v.pair.lo.writesQ)) := by
  obtain ⟨w, hw, hrun, hissued, hsound⟩ := Compilation.exists_watchAll hisa blocks (Watch.sound_start s)
  refine ⟨w, hw, hrun, ?_, hsound.once, fun hrange before v after hv => ?_⟩
  · simpa [Watch.start] using hissued
  · have hexpected := hsound.expected hrange before v after hv
    exact ⟨hexpected.cycle, hexpected.seen⟩

namespace Sample

theorem division_queuesBy : division.QueuesBy divisionScript where
  alone := division_selfContained
  code _ := rfl
  pieces i piece hp := by
    simp only [divisionScript] at hp
    split at hp
    · split at hp
      · obtain rfl | rfl : piece = .action (.push (.vi 1)) ∨ piece = .hold i.time divLatency := by
          simpa using hp
        · exact ⟨by simp [Action.Untimed, Action.pushes, Action.pulls, Field.isTiming], rfl⟩
        · exact rfl
      · obtain rfl | rfl : piece = .action (.push .q) ∨ piece = .action (.pull .i) := by simpa using hp
        · exact ⟨by simp [Action.Untimed, Action.pushes, Action.pulls, Field.isTiming], rfl⟩
        · exact ⟨by simp [Action.Untimed, Action.pushes, Action.pulls, Field.isTiming], rfl⟩
    · simp at hp
  once i s := by
    by_cases hw : i.opcode = 1 <;> by_cases ha : i.address.toNat % 8 = 0 <;>
      simp only [divisionScript, division, hw, ha, if_true, if_false] <;> rfl

def beforeDivision : State := { registersOf 5 with q := 1, qHeld := 2 }

theorem quotient_seen_in_time : ∃ (first second : Compilation division) (w : Watch),
    Compilation.watchAll divisionScript [first, second] (.start beforeDivision) = .ok w ∧
      (∀ v ∈ w.visits, v.InRange) ∧
      w.visits.map (fun v => (v.cycle, v.seen)) =
        [(0, 2), (1, 2), (2, 2), (3, 2), (4, 2), (5, 2), (6, 2), (7, 5)] ∧
      ∀ before v after, w.visits = before ++ v :: after → v.pair.hi.readsQ = true →
        v.seen = beforeDivision.timing.visible (resultsOf before) v.cycle v.pair.lo.writesQ := by
  have hwatch : ∃ (first second : Compilation division) (w : Watch),
      Compilation.watchAll divisionScript [first, second] (.start beforeDivision) = .ok w ∧
        (∀ v ∈ w.visits, v.InRange) ∧
        w.visits.map (fun v => (v.cycle, v.seen)) =
          [(0, 2), (1, 2), (2, 2), (3, 2), (4, 2), (5, 2), (6, 2), (7, 5)] :=
    ⟨⟨{}, quotient, ⟨0, 4, rfl, rfl, by decide, by decide⟩, _, rfl, by decide⟩,
      ⟨{}, quotient, ⟨8, 60, rfl, rfl, by decide, by decide⟩, _, rfl, by decide⟩, _, rfl, by decide,
      by decide⟩
  obtain ⟨first, second, w, hw, hrange, hseen⟩ := hwatch
  obtain ⟨u, hu, -, -, -, hexpected⟩ := q_seen_in_time division_queuesBy [first, second] beforeDivision
  rw [hw, Except.ok.injEq] at hu
  subst hu
  exact ⟨first, second, w, hw, hrange, hseen,
    fun before v after hv => (hexpected hrange before v after hv).2⟩

end Sample

end DualIssue
