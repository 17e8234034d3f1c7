import DualIssue.Proofs.Runnable

set_option autoImplicit false

namespace DualIssue

namespace Shape

theorem follow_append_of_ok {s t : Shape} {x : Code} (h : s.follow x = .ok t) (y : Code) :
    s.follow (x ++ y) = t.follow y := by
  rw [follow_append, h]
  rfl

def above (s : Shape) (below : List Width) : Shape :=
  ⟨s.stack ++ below, s.regions.map (· + below.length)⟩

theorem empty_above {s : Shape} (h : s.regions = []) : empty.above s.stack = s := by
  cases s
  cases h
  rfl

theorem popped_above {s t : Shape} {w : Width} (h : s.popped w = .ok t) (below : List Width) :
    (s.above below).popped w = .ok (t.above below) := by
  rcases popped_eq_ok_iff.1 h with ⟨hs, hr⟩
  apply popped_eq_ok_iff.2
  simp [above, hs, hr]

theorem step_above {s t : Shape} {a : Action} (h : s.step a = .ok t) (below : List Width) :
    (s.above below).step a = .ok (t.above below) := by
  cases a with
  | push f | pushVec f =>
    rcases bind_eq_ok.1 h with ⟨_, hf, h⟩
    cases h
    exact bind_eq_ok.2 ⟨_, hf, rfl⟩
  | pull f | pullVec f =>
    rcases bind_eq_ok.1 h with ⟨_, hf, h⟩
    exact bind_eq_ok.2 ⟨_, hf, popped_above h below⟩
  | const w =>
    cases h
    rfl
  | add | addVec =>
    rcases bind_eq_ok.1 h with ⟨u, hu, h⟩
    rcases bind_eq_ok.1 h with ⟨v, hv, h⟩
    cases h
    exact bind_eq_ok.2 ⟨_, popped_above hu below, bind_eq_ok.2 ⟨_, popped_above hv below, rfl⟩⟩
  | enter c =>
    rcases bind_eq_ok.1 h with ⟨u, hu, h⟩
    rcases bind_eq_ok.1 h with ⟨v, hv, h⟩
    cases h
    refine bind_eq_ok.2 ⟨_, popped_above hu below, bind_eq_ok.2 ⟨_, popped_above hv below, ?_⟩⟩
    simp [above]
  | leave =>
    rcases s with ⟨stack, regions⟩
    cases regions with
    | nil => cases h
    | cons depth rest =>
      by_cases hd : depth = stack.length
      · simp only [step, hd, if_true, Except.ok.injEq] at h
        subst h
        simp [step, above, hd]
      · simp [step, hd] at h

theorem follow_above {s t : Shape} {code : Code} (h : s.follow code = .ok t) (below : List Width) :
    (s.above below).follow code = .ok (t.above below) := by
  induction code generalizing s with
  | nil =>
    cases h
    rfl
  | cons a code ih =>
    rcases bind_eq_ok.1 h with ⟨u, hu, h⟩
    exact bind_eq_ok.2 ⟨_, step_above hu below, ih h⟩

end Shape

theorem Code.Balanced.follow {code : Code} (h : code.Balanced) {s : Shape} (hs : s.regions = []) :
    s.follow code = .ok s := by
  have habove := Shape.follow_above h s.stack
  rwa [Shape.empty_above hs] at habove

/-- Something that a pair may fail, and how the block is refused then. -/
structure Test where
  fails : Bool
  refusal : Refusal
  deriving DecidableEq, Repr

namespace Test

def first (tests : List Test) : Option Refusal := (tests.find? (·.fails)).map (·.refusal)

theorem first_append (xs ys : List Test) : first (xs ++ ys) = (first xs).or (first ys) := by
  simp [first, List.find?_append, Option.map_or]

theorem first_cons (x : Test) (xs : List Test) :
    first (x :: xs) = if x.fails then some x.refusal else first xs := by
  cases h : x.fails <;> simp [first, h]

theorem first_map {α : Type} (xs : List α) (fails : α → Bool) (refusal : α → Refusal) :
    first (xs.map fun x => ⟨fails x, refusal x⟩) = (xs.find? fails).map refusal := by
  simp [first, List.find?_map, Function.comp_def]

theorem mem_of_first {tests : List Test} {r : Refusal} (h : first tests = some r) :
    ∃ x ∈ tests, x.fails = true ∧ x.refusal = r := by
  rcases Option.map_eq_some_iff.1 h with ⟨x, hx, hr⟩
  exact ⟨x, List.mem_of_find?_eq_some hx, List.find?_some hx, hr⟩

end Test

def Effects.tests (a : Address) (e : Effects) : List Test :=
  [e.srcF0, e.srcF1, e.destF].map (fun r => ⟨decide (32 ≤ r.toNat), .registerOutOfRange a r⟩) ++
    [e.srcI0, e.srcI1, e.destI].map fun r => ⟨decide (16 ≤ r.toNat), .registerOutOfRange a r⟩

theorem Effects.first_tests (a : Address) (e : Effects) :
    Test.first (e.tests a) = e.missing.map (.registerOutOfRange a) := by
  rw [tests, Test.first_append, Test.first_map, Test.first_map, ← Option.map_or, missing]
  simp only [Option.orElse_eq_orElse, Option.orElse_eq_or]
  rfl

namespace Pair

def leavesValues (isa : InstructionSet) (p : Pair) (t : Cycle) : Bool :=
  match Shape.empty.follow ((p.upperIssue t).code isa ++ (p.lowerIssue t).code isa) with
  | .ok s => !s.stack.isEmpty
  | .error _ => false

def writesTwice (p : Pair) : Bool := p.hi.destF != 0 && p.hi.destF == p.lo.destF

/-- What a pair issued at cycle `t` has to pass, in the order in which it is looked at. -/
def tests (isa : InstructionSet) (p : Pair) (t : Cycle) : List Test :=
  p.lo.tests p.address ++ p.hi.tests (p.address + 4) ++ [
    ⟨p.hi.writesQ, .upperWritesQ (p.address + 4)⟩,
    ⟨p.lo.readsQ, .lowerReadsQ p.address⟩,
    ⟨p.writesTwice, .doubleWrite p.address p.hi.destF⟩,
    ⟨p.leavesValues isa t, .unbalancedStack p.address⟩]

def refusal? (isa : InstructionSet) (p : Pair) (t : Cycle) : Option Refusal := Test.first (p.tests isa t)

/-- The code of the halves is taken without a fault, the lower half going on with the stack that the
upper one leaves, and each half leaves the regions that it enters. -/
def Accepted (isa : InstructionSet) (p : Pair) (t : Cycle) : Prop :=
  ∃ mid last : Shape, Shape.empty.follow ((p.upperIssue t).code isa) = .ok mid ∧ mid.regions = [] ∧
    mid.follow ((p.lowerIssue t).code isa) = .ok last ∧ last.regions = []

variable {isa : InstructionSet} {p : Pair} {t : Cycle}

theorem check_eq (p : Pair) :
    p.check = match (Test.first (p.lo.tests p.address)).or (Test.first (p.hi.tests (p.address + 4))) with
      | some r => .error r
      | none => .ok () := by
  rw [Effects.first_tests, Effects.first_tests]
  cases hlo : p.lo.missing <;> cases hhi : p.hi.missing <;>
    simp [check, checkRegisters, hlo, hhi, bind, Except.bind]

theorem checkWrites_eq (p : Pair) : p.checkWrites =
    if p.writesTwice then .error (.doubleWrite p.address p.hi.destF) else .ok () := by
  simp [checkWrites, writesTwice]

theorem Accepted.follow_piece (h : p.Accepted isa t) (s : Scoreboard) (snapshot : Option Snapshot) :
    ∃ last, Shape.empty.follow (s.opening p.lo p.hi ++ p.body isa snapshot t) = .ok last ∧
      last.regions = [] ∧ last.stack.isEmpty = !p.leavesValues isa t := by
  rcases h with ⟨mid, last, hupper, hmid, hlower, hlast⟩
  refine ⟨last, ?_, hlast, ?_⟩
  · have hopening : (s.opening p.lo p.hi).Balanced :=
      (s.disciplined_opening p.lo p.hi).selfContained.balanced
    rw [body_eq_moves, Shape.follow_append_of_ok (hopening.follow rfl),
      Shape.follow_append_of_ok (brackets_keeps.balanced.follow rfl), Shape.follow_append_of_ok hupper,
      Shape.follow_append_of_ok (brackets_swaps.balanced.follow hmid), Shape.follow_append_of_ok hlower]
    exact brackets_restores.balanced.follow hlast
  · have hboth : Shape.empty.follow ((p.upperIssue t).code isa ++ (p.lowerIssue t).code isa) = .ok last := by
      rw [Shape.follow_append_of_ok hupper, hlower]
    simp [leavesValues, hboth]

end Pair

namespace Progress

variable {isa : InstructionSet} {m : Memory} {p : Progress} {a : Address}

theorem step_of_checks (snapshot : Option Snapshot) (hp : p.draft.shape = .empty)
    (hpair : (Pair.decode isa m a).Accepted isa p.scoreboard.time)
    (hcheck : (Pair.decode isa m a).check = .ok ())
    (hupper : (Pair.decode isa m a).hi.writesQ = false)
    (hlower : (Pair.decode isa m a).lo.readsQ = false)
    (hwrites : (Pair.decode isa m a).writesTwice = false) :
    if (Pair.decode isa m a).leavesValues isa p.scoreboard.time then
      p.step isa m snapshot a = .error (.refused (.unbalancedStack a))
    else ∃ q, p.step isa m snapshot a = .ok q ∧ q.draft.shape = .empty ∧
      q.scoreboard = p.scoreboard.next (Pair.decode isa m a) := by
  rcases Pair.check_eq_ok_iff.1 hcheck with ⟨hlo, hhi⟩
  rcases p.scoreboard.exists_retire hlo hhi with ⟨board, hretire⟩
  rcases hpair.follow_piece p.scoreboard snapshot with ⟨last, hfollow, hregions, hstack⟩
  have hissue : p.scoreboard.issue a (Pair.decode isa m a).lo (Pair.decode isa m a).hi = .ok _ :=
    Scoreboard.issue_eq_ok_iff.2 ⟨hupper, hlower, rfl⟩
  have hemit : p.draft.emit _ = .ok ⟨_, last⟩ := Draft.emit_eq_ok_iff.2 ⟨hp ▸ hfollow, rfl⟩
  simp only [step, hcheck, hissue, Pair.checkWrites_eq, hwrites, hemit, hretire, mapError_ok, bind,
    Except.bind, Draft.isStackEmpty, hstack]
  cases hv : (Pair.decode isa m a).leavesValues isa p.scoreboard.time with
  | true => rfl
  | false =>
    rw [hv] at hstack
    refine ⟨_, rfl, ?_, ?_⟩
    · show last = .empty
      rw [← Shape.empty_above hregions, List.isEmpty_iff.1 hstack]
      rfl
    · exact (Scoreboard.next_of_retire hretire).symm

/-- One pair is refused by its first failing test; a pair that passes them all is got past. -/
theorem step_decided (snapshot : Option Snapshot) (hp : p.draft.shape = .empty)
    (hpair : (Pair.decode isa m a).Accepted isa p.scoreboard.time) :
    match (Pair.decode isa m a).refusal? isa p.scoreboard.time with
    | some r => p.step isa m snapshot a = .error (.refused r)
    | none => ∃ q, p.step isa m snapshot a = .ok q ∧ q.draft.shape = .empty ∧
        q.scoreboard = p.scoreboard.next (Pair.decode isa m a) := by
  have hcheck := Pair.check_eq (Pair.decode isa m a)
  unfold Pair.refusal? Pair.tests
  rw [Test.first_append, Test.first_append]
  cases hregs : (Test.first ((Pair.decode isa m a).lo.tests (Pair.decode isa m a).address)).or
      (Test.first ((Pair.decode isa m a).hi.tests ((Pair.decode isa m a).address + 4))) with
  | some r =>
    rw [hregs] at hcheck
    simp only [step, hcheck]
    rfl
  | none =>
    rw [hregs] at hcheck
    simp only [Option.none_or, Test.first_cons]
    cases hupper : (Pair.decode isa m a).hi.writesQ with
    | true =>
      simp only [step, hcheck, Scoreboard.issue, hupper]
      rfl
    | false =>
      cases hlower : (Pair.decode isa m a).lo.readsQ with
      | true =>
        simp only [step, hcheck, Scoreboard.issue, hupper, hlower]
        rfl
      | false =>
        cases hwrites : (Pair.decode isa m a).writesTwice with
        | true =>
          simp only [step, hcheck, Scoreboard.issue, hupper, hlower, Pair.checkWrites_eq, hwrites]
          rfl
        | false =>
          have hlast := step_of_checks snapshot hp hpair hcheck hupper hlower hwrites
          cases hv : (Pair.decode isa m a).leavesValues isa p.scoreboard.time with
          | true | false =>
            rw [hv] at hlast
            exact hlast

end Progress

namespace Block

variable (isa : InstructionSet) (m : Memory) (latency : Cycle) (b : Block)

def timing : Nat → Scoreboard
  | 0 => .start latency
  | k + 1 => (timing k).next (Pair.decode isa m (b.address k))

def refusal? (k : Nat) : Option Refusal :=
  (Pair.decode isa m (b.address k)).refusal? isa (b.timing isa m latency k).time

/-- Of the first `n` pairs some are refused, the lowest of them in this way. -/
def LowestRefusal (n : Nat) (r : Refusal) : Prop :=
  ∃ k < n, b.refusal? isa m latency k = some r ∧ ∀ j < k, b.refusal? isa m latency j = none

variable {isa : InstructionSet} {m : Memory} {latency : Cycle} {b : Block}

theorem LowestRefusal.unique {n : Nat} {q r : Refusal} (hq : b.LowestRefusal isa m latency n q)
    (hr : b.LowestRefusal isa m latency n r) : q = r := by
  rcases hq with ⟨j, -, hj, hjpass⟩
  rcases hr with ⟨k, -, hk, hkpass⟩
  rcases Nat.lt_trichotomy j k with h | rfl | h
  · rw [hkpass j h] at hj
    cases hj
  · rw [hj] at hk
    exact Option.some.inj hk
  · rw [hjpass k h] at hk
    cases hk

end Block

structure Progress.Passed (isa : InstructionSet) (m : Memory) (latency : Cycle) (b : Block) (n : Nat)
    (p : Progress) : Prop where
  shape : p.draft.shape = .empty
  board : p.scoreboard = b.timing isa m latency n
  pass : ∀ k < n, b.refusal? isa m latency k = none

namespace Block

variable {isa : InstructionSet} {m : Memory} {latency : Cycle} {b : Block}

theorem step_ends (snapshot : Option Snapshot) {n k : Nat} (hk : k < n) {p : Progress}
    (hpair : ∀ t, (Pair.decode isa m (b.address k)).Accepted isa t)
    (hp : p.Passed isa m latency b k) :
    Ends (Progress.Passed isa m latency b (k + 1))
      (fun stop => ∃ r, stop = .refused r ∧ b.LowestRefusal isa m latency n r)
      (p.step isa m snapshot (b.address k)) := by
  have hstep := Progress.step_decided snapshot hp.shape (hpair p.scoreboard.time)
  rw [hp.board, ← refusal?] at hstep
  cases hr : b.refusal? isa m latency k with
  | some r =>
    rw [hr] at hstep
    rw [hstep]
    exact ⟨r, rfl, k, hk, hr, hp.pass⟩
  | none =>
    rw [hr] at hstep
    rcases hstep with ⟨q, hq, hshape, hnext⟩
    refine .of_ok hq ⟨hshape, hnext, ?_⟩
    intro j hj
    rcases Nat.lt_succ_iff_lt_or_eq.1 hj with hj | rfl
    · exact hp.pass j hj
    · exact hr

theorem run_ends (snapshot : Option Snapshot) {n : Nat}
    (hpairs : ∀ k < n, ∀ t, (Pair.decode isa m (b.address k)).Accepted isa t) :
    Ends (Progress.Passed isa m latency b n)
      (fun stop => ∃ r, stop = .refused r ∧ b.LowestRefusal isa m latency n r)
      ((List.range n).foldlM (fun p k => Progress.step isa m snapshot p (b.address k))
        (.start latency)) :=
  Ends.foldlM_range (fun k hk _ => step_ends snapshot hk (hpairs k hk)) ⟨rfl, rfl, by simp⟩

end Block

def Refusal.OfPair (r : Refusal) : Prop :=
  (∀ first last, r ≠ .misaligned first last) ∧ (∀ first last, r ≠ .addressOverflow first last) ∧
    ∀ a w, r ≠ .notConditionalBranch a w

theorem Pair.ofPair_of_refusal {isa : InstructionSet} {p : Pair} {t : Cycle} {r : Refusal}
    (h : p.refusal? isa t = some r) : r.OfPair := by
  rcases Test.mem_of_first h with ⟨x, hx, -, rfl⟩
  have hall : ∀ x ∈ p.tests isa t, x.refusal.OfPair := by simp [tests, Effects.tests, Refusal.OfPair]
  exact hall x hx

def Block.Accepted (isa : InstructionSet) (m : Memory) (b : Block) : Prop :=
  ∀ k < b.count isa m, ∀ t, (Pair.decode isa m (b.address k)).Accepted isa t

section

variable {options : Options} {isa : InstructionSet} {m : Memory} {b : Block}

theorem compile_ends_by_tests (h : b.Accepted isa m) :
    Ends (fun _ => ∀ k < b.count isa m, b.refusal? isa m options.latency k = none)
      (fun stop => ∃ r, stop = .refused r ∧ b.LowestRefusal isa m options.latency (b.count isa m) r)
      (compile options isa m b) := by
  rcases (b.endsAt_extent isa m).exists_delayOf isa m options with ⟨_, hdelay⟩
  refine (Ends.of_ok (P := fun _ => True) hdelay trivial).bind fun delay _ => ?_
  rw [Block.foldlM_addresses]
  refine (Block.run_ends delay.snapshot? h).bind fun p hp => ?_
  have hclose : (p.scoreboard.finish ++ (b.extent isa m).jumpFixup).Balanced :=
    (p.scoreboard.disciplined_closing _).selfContained.balanced
  simp only [Draft.emit_of_balanced hp.shape hclose]
  exact hp.pass

theorem compile_of_pass (h : b.Accepted isa m)
    (hpass : ∀ k < b.count isa m, b.refusal? isa m options.latency k = none) :
    ∃ done, compile options isa m b = .ok done := by
  cases hc : compile options isa m b with
  | ok done => exact ⟨done, rfl⟩
  | error stop =>
    rcases (compile_ends_by_tests h).error hc with ⟨r, -, k, hk, hr, -⟩
    rw [hpass k hk] at hr
    cases hr

theorem compile_of_refusal (h : b.Accepted isa m) {r : Refusal}
    (hr : b.LowestRefusal isa m options.latency (b.count isa m) r) :
    compile options isa m b = .error (.refused r) := by
  cases hc : compile options isa m b with
  | ok done =>
    rcases hr with ⟨k, hk, hr, -⟩
    rw [(compile_ends_by_tests h).ok hc k hk] at hr
    cases hr
  | error stop =>
    rcases (compile_ends_by_tests h).error hc with ⟨q, rfl, hq⟩
    rw [hq.unique hr]

end

/-- A block whose instructions compile to code that is taken is compiled exactly if every pair passes
its tests, and otherwise refused by the first failing test of the lowest failing pair. Whether its
last branch sees an old register can always be decided. -/
theorem compile_decided_by_tests (options : Options) {isa : InstructionSet} {m : Memory} {b : Block}
    (h : b.Accepted isa m) :
    let n := ((b.extent isa m).last.toNat - b.first.toNat) / 8 + 1
    ((∃ done, compile options isa m b = .ok done) ↔
      ∀ k < n, b.refusal? isa m options.latency k = none) ∧
    (∀ stop, compile options isa m b = .error stop ↔ ∃ r, stop = .refused r ∧
      b.LowestRefusal isa m options.latency n r) ∧
    (∀ k < n, (b.address k).toNat = b.first.toNat + 8 * k) ∧
    (∀ r, compile options isa m b = .error (.refused r) → r.OfPair) ∧
    ∃ delay, b.branchDelay isa m (b.extent isa m).last = .ok delay := by
  intro n
  have hend := b.endsAt_extent isa m
  have herror : ∀ stop, compile options isa m b = .error stop ↔ ∃ r, stop = .refused r ∧
      b.LowestRefusal isa m options.latency n r := by
    intro stop
    constructor
    · exact (compile_ends_by_tests h).error
    · rintro ⟨r, rfl, hr⟩
      exact compile_of_refusal h hr
  refine ⟨⟨?_, compile_of_pass h⟩, herror, ?_, ?_, hend.exists_branchDelay isa m⟩
  · rintro ⟨done, hdone⟩
    exact (compile_ends_by_tests h).ok hdone
  · intro k hk
    exact hend.toNat_address_of_lt hk
  · intro r hr
    rcases (herror _).1 hr with ⟨_, hstop, k, -, hk, -⟩
    cases hstop
    exact Pair.ofPair_of_refusal hk

def InstructionSet.Accepted (isa : InstructionSet) : Prop :=
  ∀ a w t, ∃ s, Shape.empty.follow (isa.code a w t) = .ok s ∧ s.regions = []

theorem InstructionSet.Accepted.block {isa : InstructionSet} (h : isa.Accepted) (m : Memory) (b : Block) :
    b.Accepted isa m := by
  intro k _ t
  rcases h (b.address k + 4) (m.word (b.address k + 4)) t with ⟨mid, hupper, hmid⟩
  rcases h (b.address k) (m.word (b.address k)) t with ⟨last, hlower, hlast⟩
  have habove := Shape.follow_above hlower mid.stack
  rw [Shape.empty_above hmid] at habove
  exact ⟨mid, last.above mid.stack, hupper, hmid, habove, by simp [Shape.above, hlast]⟩

namespace Sample

/-- Nothing is wrong with the pair at 0. At 8 the lower half names a register that does not exist and
reads Q, while the upper half writes it; at 16 a value is left on the stack. -/
def mistaken : InstructionSet where
  branch _ _ := .straight
  effects a _ :=
    if a = 8 then { srcI1 := 16, destI := 17, readsQ := true }
    else if a = 12 then { writesQ := true }
    else {}
  target _ _ := 0
  code a _ _ := if a = 16 then [.const 1] else []

theorem accepted_mistaken : mistaken.Accepted := by
  intro a w t
  by_cases h : a = 16
  · exact ⟨⟨[.word], []⟩, by simp [mistaken, h]; rfl, rfl⟩
  · exact ⟨.empty, by simp [mistaken, h], rfl⟩

theorem refused_by_second_pair :
    compile {} mistaken memory ⟨0, 20, rfl, rfl, by decide, by decide⟩ =
        .error (.refused (.registerOutOfRange 8 16)) ∧
      compile {} mistaken memory ⟨16, 20, rfl, rfl, by decide, by decide⟩ =
        .error (.refused (.unbalancedStack 16)) ∧
      ∃ done, compile {} mistaken memory ⟨0, 4, rfl, rfl, by decide, by decide⟩ = .ok done := by
  refine ⟨?_, ?_, ?_⟩
  · refine ((compile_decided_by_tests {} (accepted_mistaken.block memory _)).2.1 _).2 ⟨_, rfl, 1, ?_⟩
    exact ⟨by decide, by decide, by decide⟩
  · refine ((compile_decided_by_tests {} (accepted_mistaken.block memory _)).2.1 _).2 ⟨_, rfl, 0, ?_⟩
    exact ⟨by decide, by decide, by decide⟩
  · refine (compile_decided_by_tests {} (accepted_mistaken.block memory _)).1.2 ?_
    decide

end Sample

end DualIssue
