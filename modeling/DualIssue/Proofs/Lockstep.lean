import DualIssue.Proofs.Retirement
import DualIssue.Proofs.Snapshot
import DualIssue.Proofs.Together

/-!
A reference interpreter for blocks, which issues the halves of each pair together and has a clock of
its own. Main statement: running the code that a block compiles to comes to the same, outside the
places where the code sets values aside.
-/

set_option autoImplicit false

namespace DualIssue

namespace Pair

/-- The code of both halves does what their effects say. It stands on its own, knows nothing of the
values set aside, leaves the clock and the constant register alone, and keeps to the float registers
named; the upper half changes no word that the lower half uses. -/
structure Faithful (isa : InstructionSet) (p : Pair) (t : Cycle) : Prop where
  upper_alone : ((p.upperIssue t).code isa).SelfContained
  lower_alone : ((p.lowerIssue t).code isa).SelfContained
  upper_scratch : ∀ f, ((p.upperIssue t).code isa).mentions f = true → f.isScratch = false
  lower_scratch : ∀ f, ((p.lowerIssue t).code isa).mentions f = true → f.isScratch = false
  upper_clock : ((p.upperIssue t).code isa).pulls .pipeTime = false
  lower_clock : ((p.lowerIssue t).code isa).pulls .pipeTime = false
  upper_zero : ((p.upperIssue t).code isa).pulls (.vf 0) = false
  lower_zero : ((p.lowerIssue t).code isa).pulls (.vf 0) = false
  upper_dest : ∀ r, ((p.upperIssue t).code isa).pulls (.vf r) = true → r = p.hi.destF
  lower_dest : ∀ r, ((p.lowerIssue t).code isa).pulls (.vf r) = true → r = p.lo.destF
  lower_sources : ∀ r, ((p.lowerIssue t).code isa).pushes (.vf r) = true →
    r = 0 ∨ r = p.lo.srcF0 ∨ r = p.lo.srcF1
  upper_words : ∀ f, f.width = .word → ((p.upperIssue t).code isa).pulls f = true →
    ((p.lowerIssue t).code isa).mentions f = false

theorem Faithful.separate {isa : InstructionSet} {p : Pair} {t : Cycle} (h : p.Faithful isa t)
    (hw : p.checkWrites = .ok ()) :
    Code.Separate ((p.upperIssue t).code isa) ((p.lowerIssue t).code isa) p.clash where
  upper_runs := h.upper_alone.runs
  lower_runs := h.lower_alone.runs
  upper_scratch := h.upper_scratch
  lower_scratch := h.lower_scratch
  apart := by
    intro f hf hclash
    apply Bool.eq_false_iff.2
    intro hp
    cases f with
    | vf r =>
      have hr := h.upper_dest r hp
      have h0 : r ≠ 0 := by
        rintro rfl
        simp [h.upper_zero] at hp
      have hnone : ¬p.clash = some r := fun hc => hclash (by simp [hc])
      rw [clash_eq_some_iff] at hnone
      have hdest := checkWrites_eq_ok_iff.1 hw (hr ▸ h0)
      have hsrc := h.lower_sources r
      have hdst := h.lower_dest r
      simp only [Code.mentions, Bool.or_eq_true] at hf
      grind
    | vfPreUp | vfUpRes => simpa [Field.isScratch] using h.lower_scratch _ hf
    | _ => simp [h.upper_words _ rfl hp] at hf
  kept := by
    intro r hr
    obtain ⟨rfl, h0, -⟩ := clash_eq_some_iff.1 hr
    apply Bool.eq_false_iff.2
    intro hp
    exact checkWrites_eq_ok_iff.1 hw h0 (h.lower_dest _ hp)

end Pair

def InstructionSet.Faithful (isa : InstructionSet) (m : Memory) : Prop :=
  ∀ a t, a.toNat % 8 = 0 → (Pair.decode isa m a).Faithful isa t

namespace State

/-- Q before a pair at cycle `t` of a block that began at `clock`. A lower half that writes Q drains
the result before; an upper half that reads Q sees a result that is due. -/
def openQ (clock : Word) (lo hi : Effects) (t : Cycle) (s : State) : State :=
  let s := if lo.writesQ then { s with q := s.qHeld } else s
  if hi.readsQ ∧ s.qTarget ≤ clock + t then { s with q := s.qHeld } else s

def saving (s : State) (old : Word) : Option Register → Except Fault Word
  | some r => s.word (.vi r)
  | none => .ok old

/-- The clock after a block of `t` cycles, and the jump over a delay slot that was run already. -/
def close (clock : Word) (e : Extent) (t : Cycle) (s : State) : State :=
  let s := { s with pipeTime := clock + t }
  if e.extended ∧ s.delayedJump = noJump then { s with delayedJump := e.last + 4 } else s

end State

structure Lockstep where
  state : State
  time : Cycle
  /-- The cycle from which on each float register can be read. -/
  ready : Register → Cycle
  /-- What the register of the snapshot held when it was saved. -/
  old : Word

namespace Lockstep

def start (s : State) : Lockstep := ⟨s, 0, fun _ => 0, 0⟩

/-- A pair takes a cycle, and more if a float register that it reads is ready later. -/
def timeAfter (x : Lockstep) (lo hi : Effects) : Cycle :=
  max (x.time + 1) (max (max (x.ready lo.srcF0) (x.ready lo.srcF1))
    (max (x.ready hi.srcF0) (x.ready hi.srcF1)))

/-- What a pair writes is ready the latency after it. Register 0 is not written. -/
def readyAfter (latency : Cycle) (x : Lockstep) (lo hi : Effects) (r : Register) : Cycle :=
  if r ≠ 0 ∧ (r = lo.destF ∨ r = hi.destF) then clampedAdd (x.timeAfter lo hi) latency else x.ready r

def step (isa : InstructionSet) (m : Memory) (latency : Cycle) (snapshot : Option Snapshot)
    (clock : Word) (x : Lockstep) (a : Address) : Except Fault Lockstep := do
  let lo := isa.effects a (m.word a)
  let hi := isa.effects (a + 4) (m.word (a + 4))
  let s := x.state.openQ clock lo hi x.time
  let old ← s.saving x.old (Snapshot.savedAt snapshot a)
  let state ← s.together (isa.code (a + 4) (m.word (a + 4)) x.time) (isa.code a (m.word a) x.time)
    (Snapshot.usedAt snapshot a) old
  .ok ⟨state, x.timeAfter lo hi, x.readyAfter latency lo hi, old⟩

end Lockstep

/-- The pairs of the block in their order, with the snapshot that was decided on. -/
def Block.lockstep (b : Block) (options : Options) (isa : InstructionSet) (m : Memory)
    (snapshot : Option Snapshot) (s : State) : Except Fault State := do
  let extent := b.extent isa m
  let x ← (List.range ((extent.last.toNat - b.first.toNat) / 8 + 1)).foldlM
    (fun x k => Lockstep.step isa m options.latency snapshot s.pipeTime x (b.first + 8 * UInt32.ofNat k))
    (.start s)
  .ok (x.state.close s.pipeTime extent x.time)

theorem Machine.exec_jumpFixup (m : Machine) (e : Extent) : m.exec e.jumpFixup =
    .ok { m with state :=
      if e.extended ∧ m.skip = 0 ∧ m.state.delayedJump = noJump then
        { m.state with delayedJump := e.last + 4 }
      else m.state } := by
  cases he : e.extended with
  | false => simp [Extent.jumpFixup, he]
  | true =>
    by_cases hs : m.skip = 0
    · by_cases hj : m.state.delayedJump = noJump
      · simp [Extent.jumpFixup, he, hs, hj, Condition.holds, step, perform, popWord, State.word,
          State.setWord, bind, Except.bind]
      · have hj' : noJump ≠ m.state.delayedJump := Ne.symm hj
        simp [Extent.jumpFixup, he, hs, hj, hj', Condition.holds, step, perform, skipped, popWord,
          State.word, bind, Except.bind]
    · simp [Extent.jumpFixup, he, hs, step, skipped, bind, Except.bind]

namespace State

theorem read_openQ (clock : Word) (lo hi : Effects) (t : Cycle) (s : State) (f : Field) :
    (s.openQ clock lo hi t).read f =
      if f = .q ∧ (lo.writesQ ∨ hi.readsQ ∧ s.qTarget ≤ clock + t) then s.read .qHeld else s.read f := by
  cases h1 : lo.writesQ <;> cases h2 : hi.readsQ <;> by_cases h3 : s.qTarget ≤ clock + t <;>
    cases f <;> simp [openQ, h1, h2, h3, read, Field.width, word, quad]

theorem run_opening (board : Scoreboard) (lo hi : Effects) (s : State) :
    (board.opening lo hi).run s = .ok (s.openQ s.pipeTime lo hi board.time) := by
  have hrelease : ∀ s : State, Latch.q.release.run s = .ok { s with q := s.qHeld } := fun _ => rfl
  have hcheck : ∀ s : State, (Latch.q.releaseIfDue board.time).run s =
      .ok (if s.qTarget ≤ s.pipeTime + board.time then { s with q := s.qHeld } else s) := by
    intro s
    by_cases h : s.qTarget ≤ s.pipeTime + board.time <;>
      simp [Code.run_eq_ok_iff, Latch.releaseIfDue, Latch.release, Latch.q, Code.move, Field.width,
        Machine.step, Machine.perform, Machine.skipped, Machine.start, Machine.popWord, word, setWord,
        Condition.holds, h, bind, Except.bind]
  have hdrain : (if lo.writesQ then Latch.q.release else []).run s =
      .ok (if lo.writesQ then { s with q := s.qHeld } else s) := by
    cases lo.writesQ with
    | false => rfl
    | true => exact hrelease s
  rw [Scoreboard.opening, Code.run_append hdrain]
  cases hr : hi.readsQ with
  | false => cases hw : lo.writesQ <;> simp [openQ, hr, hw]
  | true => cases hw : lo.writesQ <;> simp [openQ, hr, hw, hcheck]

theorem read_close (clock : Word) (e : Extent) (t : Cycle) (s : State) (f : Field) :
    (s.close clock e t).read f =
      if f = .pipeTime then .ok (.word (clock + t))
      else if f = .delayedJump ∧ e.extended ∧ s.delayedJump = noJump then .ok (.word (e.last + 4))
      else s.read f := by
  cases h1 : e.extended <;> by_cases h2 : s.delayedJump = noJump <;>
    cases f <;> simp [close, h1, h2, read, Field.width, word, quad, Except.map]

theorem run_closing (board : Scoreboard) (e : Extent) (s : State) :
    (board.finish ++ e.jumpFixup).run s = .ok (s.close s.pipeTime e board.time) := by
  have hclock : board.finish.run s = .ok { s with pipeTime := s.pipeTime + board.time } := rfl
  rw [Code.run_append hclock, Code.run_eq_ok_iff, Machine.exec_jumpFixup]
  simp [close, Machine.start]

theorem exists_saving (s : State) (old : Word) {saved : Option Register}
    (h : ∀ r ∈ saved, r.toNat < viCount) :
    ∃ w, s.saving old saved = .ok w ∧ (∀ r ∈ saved, s.read (.vi r) = .ok (.word w)) ∧
      (saved = none → w = old) := by
  cases saved with
  | none => exact ⟨old, rfl, by simp, by simp⟩
  | some r =>
    obtain ⟨w, hw⟩ := s.exists_word_of_valid (f := .vi r) (h r rfl) rfl
    refine ⟨w, word_eq_ok_iff.2 hw, ?_, by simp⟩
    rintro q ⟨⟩
    exact hw

namespace AgreeOutsideScratch

variable {c s : State}

theorem word_eq (h : c.AgreeOutsideScratch s) {f : Field} (hf : f.isScratch = false) {w : Word}
    (hw : s.read f = .ok (.word w)) : c.word f = .ok w := by
  rw [word_eq_ok_iff, h f hf, hw]

theorem openQ (h : c.AgreeOutsideScratch s) (clock : Word) (lo hi : Effects) (t : Cycle) :
    (c.openQ clock lo hi t).AgreeOutsideScratch (s.openQ clock lo hi t) := by
  have hdue : c.qTarget = s.qTarget := Except.ok.inj (h.word_eq (f := .qTarget) rfl rfl)
  intro f hf
  rw [read_openQ, read_openQ, hdue, h f hf, h .qHeld rfl]

theorem close (h : c.AgreeOutsideScratch s) (clock : Word) (e : Extent) (t : Cycle) :
    (c.close clock e t).AgreeOutsideScratch (s.close clock e t) := by
  have hjump : c.delayedJump = s.delayedJump := Except.ok.inj (h.word_eq (f := .delayedJump) rfl rfl)
  intro f hf
  rw [read_close, read_close, hjump, h f hf]

end AgreeOutsideScratch

end State

/-- One pair: its code does to a state what issuing its halves together does, outside the values set
aside. Where the pair saves nothing, what was saved before stays. -/
theorem Pair.Faithful.run_pair {isa : InstructionSet} {p : Pair} {board : Scoreboard}
    (hf : p.Faithful isa board.time) (hcheck : p.check = .ok ()) (hwrites : p.checkWrites = .ok ())
    {snapshot : Option Snapshot} (hreg : ∀ n ∈ snapshot, n.reg.toNat < viCount) {c s : State}
    (hcs : c.AgreeOutsideScratch s) {before : Word}
    (hkept : Snapshot.savedAt snapshot p.address = none →
      ∀ r ∈ Snapshot.usedAt snapshot p.address, c.read .savedInt = .ok (.word before)) :
    ∃ c' s' old, (board.opening p.lo p.hi ++ p.body isa snapshot board.time).run c = .ok c' ∧
      (s.openQ s.pipeTime p.lo p.hi board.time).saving before (Snapshot.savedAt snapshot p.address) =
        .ok old ∧
      (s.openQ s.pipeTime p.lo p.hi board.time).together ((p.upperIssue board.time).code isa)
        ((p.lowerIssue board.time).code isa) (Snapshot.usedAt snapshot p.address) old = .ok s' ∧
      c'.AgreeOutsideScratch s' ∧ s'.pipeTime = s.pipeTime ∧
      (∀ r ∈ Snapshot.savedAt snapshot p.address, c'.read .savedInt = .ok (.word old)) ∧
      (Snapshot.savedAt snapshot p.address = none →
        old = before ∧ c'.read .savedInt = c.read .savedInt) := by
  have hF : ∀ r ∈ p.clash, r.toNat < vfCount := by
    intro r hr
    obtain ⟨rfl, -⟩ := clash_eq_some_iff.1 hr
    exact (floatsExist_of_check hcheck).2.2.2
  have hS : ∀ r ∈ Snapshot.savedAt snapshot p.address, r.toNat < viCount := by
    intro r hr
    obtain ⟨n, hn, -, rfl⟩ := Snapshot.mem_savedAt.1 hr
    exact hreg n hn
  have hU : ∀ r ∈ Snapshot.usedAt snapshot p.address, r.toNat < viCount := by
    intro r hr
    obtain ⟨n, hn, -, rfl⟩ := Snapshot.mem_usedAt.1 hr
    exact hreg n hn
  have hclock : c.pipeTime = s.pipeTime := Except.ok.inj (hcs.word_eq (f := .pipeTime) rfl rfl)
  have hopen := State.run_opening board p.lo p.hi c
  rw [hclock] at hopen
  have hagree := hcs.openQ s.pipeTime p.lo p.hi board.time
  have hq : ∀ f, f ≠ .q → (c.openQ s.pipeTime p.lo p.hi board.time).read f = c.read f := by
    intro f hf
    simp [State.read_openQ, hf]
  obtain ⟨old, hold, hsaved, hnone⟩ :=
    (s.openQ s.pipeTime p.lo p.hi board.time).exists_saving before hS
  obtain ⟨c', s', hrun, htogether, hagree', hsaved', hsame⟩ :=
    (hf.separate hwrites).run_brackets hF hS hU hagree hsaved (by
      intro hs r hr
      rw [hq _ (by simp), hnone hs, hkept hs r hr])
  refine ⟨c', s', old, ?_, hold, htogether, hagree', ?_, hsaved', ?_⟩
  · rw [Code.run_append hopen, body_eq]
    exact hrun
  · have htime := State.read_together htogether hf.upper_clock hf.lower_clock
    rw [State.read_openQ, if_neg (by simp)] at htime
    exact Except.ok.inj (State.word_eq_ok_iff.2 htime)
  · intro hs
    exact ⟨hnone hs, by rw [hsame hs, hq _ (by simp)]⟩

namespace Lockstep

structure KeepsTime (latency : Cycle) (s : Scoreboard) (x : Lockstep) : Prop where
  latency_eq : s.latency = latency
  time_eq : x.time = s.time
  ready_eq : ∀ r, r.toNat < vfCount → s.readyTime r = .ok (x.ready r)
  ready_zero : x.ready 0 = 0

theorem KeepsTime.start (latency : Cycle) (s : State) :
    KeepsTime latency (.start latency) (.start s) :=
  ⟨rfl, rfl, fun _ hr => Table.get_fill 0 hr, rfl⟩

theorem KeepsTime.step {latency : Cycle} {s t : Scoreboard} {x : Lockstep} {p : Pair}
    (h : KeepsTime latency s x) (hp : p.FloatsExist) (hretire : s.retire p.lo p.hi = .ok t)
    (state : State) (old : Word) :
    KeepsTime latency t ⟨state, x.timeAfter p.lo p.hi, x.readyAfter latency p.lo p.hi, old⟩ := by
  have hretired := Scoreboard.retired_of_retire hretire
  have htime : x.timeAfter p.lo p.hi = t.time := by
    rw [hretired.time_eq hp h.ready_eq h.ready_zero, timeAfter, h.time_eq]
  refine ⟨?_, htime, ?_, ?_⟩
  · rw [hretired.latency, h.latency_eq]
  · intro r hr
    rw [hretired.ready, h.ready_eq r hr, h.latency_eq, ← htime]
    by_cases hw : p.WritesFloat r
    · rw [if_pos hw]
      exact congrArg _ (if_pos hw).symm
    · rw [if_neg hw]
      exact congrArg _ (if_neg hw).symm
  · simp [readyAfter, h.ready_zero]

/-- After `k` pairs the code has done what the interpreter did, and holds the old register from the
pair on at which it was saved. -/
structure Simulates (b : Block) (latency : Cycle) (snapshot : Option Snapshot) (clock : Word) (k : Nat)
    (p : Progress) (c : State) (x : Lockstep) : Prop where
  agree : c.AgreeOutsideScratch x.state
  timed : KeepsTime latency p.scoreboard x
  clock_eq : x.state.pipeTime = clock
  saved : ∀ n ∈ snapshot, (∃ j < k, n.saveAt = b.address j) → c.read .savedInt = .ok (.word x.old)

variable {isa : InstructionSet} {m : Memory} {b : Block} {latency : Cycle} {snapshot : Option Snapshot}
  {clock : Word}

theorem Simulates.step {k : Nat} {p q : Progress} {c : State} {x : Lockstep}
    (h : Simulates b latency snapshot clock k p c x)
    (hf : (Pair.decode isa m (b.address k)).Faithful isa p.scoreboard.time)
    (hreg : ∀ n ∈ snapshot, n.reg.toNat < viCount)
    (hsave : ∀ n ∈ snapshot, b.address k = n.useAt → ∃ j ≤ k, n.saveAt = b.address j)
    (hq : p.step isa m snapshot (b.address k) = .ok q) :
    ∃ piece c' x', q.draft.code = p.draft.code ++ piece ∧ piece.run c = .ok c' ∧
      x.step isa m latency snapshot clock (b.address k) = .ok x' ∧
      Simulates b latency snapshot clock (k + 1) q c' x' := by
  have adv := Progress.advance_of_step hq
  obtain ⟨agree, timed, hclock, saved⟩ := h
  have hearlier : Snapshot.savedAt snapshot (b.address k) = none → ∀ n ∈ snapshot,
      (∃ j ≤ k, n.saveAt = b.address j) → c.read .savedInt = .ok (.word x.old) := by
    rintro hs n hn ⟨j, hj, hjk⟩
    have hne : j ≠ k := by
      rintro rfl
      have hmem := Snapshot.mem_savedAt.2 ⟨n, hn, hjk.symm, rfl⟩
      simp [hs] at hmem
    exact saved n hn ⟨j, by omega, hjk⟩
  obtain ⟨c', s', old, hrun, hold, htogether, hagree, htime, hsaved, hsame⟩ :=
    hf.run_pair adv.check adv.writes hreg agree (by
      intro hs r hr
      obtain ⟨n, hn, hu, -⟩ := Snapshot.mem_usedAt.1 hr
      exact hearlier hs n hn (hsave n hn hu))
  rw [hclock] at hold htogether htime
  refine ⟨_, c', _, (Draft.emit_eq_ok_iff.1 adv.emit).2, hrun, ?_, hagree,
    timed.step (Pair.floatsExist_of_check adv.check) adv.retire s' old, htime, ?_⟩
  · simp only [Pair.decode, Pair.upperIssue, Pair.lowerIssue, Issue.code] at hold htogether
    simp only [Lockstep.step, timed.time_eq, hold, htogether, bind, Except.bind]
    rfl
  · rintro n hn ⟨j, hj, hjk⟩
    cases hs : Snapshot.savedAt snapshot (b.address k) with
    | some r => exact hsaved r hs
    | none =>
      obtain ⟨rfl, hread⟩ := hsame hs
      rw [hread]
      exact hearlier hs n hn ⟨j, by omega, hjk⟩

theorem Simulates.run {s : State} {n : Nat} {p : Progress}
    (hf : ∀ k < n, ∀ t, (Pair.decode isa m (b.address k)).Faithful isa t)
    (hreg : ∀ n ∈ snapshot, n.reg.toNat < viCount)
    (hsave : ∀ k < n, ∀ n ∈ snapshot, b.address k = n.useAt → ∃ j ≤ k, n.saveAt = b.address j)
    (hp : (List.range n).foldlM (fun p k => Progress.step isa m snapshot p (b.address k))
      (Progress.start latency) = .ok p) :
    ∃ c x, p.draft.code.run s = .ok c ∧
      (List.range n).foldlM (fun x k => Lockstep.step isa m latency snapshot s.pipeTime x (b.address k))
        (.start s) = .ok x ∧
      Simulates b latency snapshot s.pipeTime n p c x := by
  refine foldlM_range_induction (P := fun k p => ∃ c x, p.draft.code.run s = .ok c ∧
    (List.range k).foldlM (fun x k => Lockstep.step isa m latency snapshot s.pipeTime x (b.address k))
      (.start s) = .ok x ∧
    Simulates b latency snapshot s.pipeTime k p c x) ?_ ?_ hp
  · rintro k hk p q ⟨c, x, hc, hx, hsim⟩ hq
    obtain ⟨piece, c', x', hpiece, hrun, hstep, hsim'⟩ := hsim.step (hf k hk _) hreg (hsave k hk) hq
    refine ⟨c', x', ?_, ?_, hsim'⟩
    · rw [hpiece, Code.run_append hc, hrun]
    · rw [foldlM_range_succ, hx]
      exact hstep
  · refine ⟨s, _, rfl, rfl, fun _ _ => rfl, .start latency s, rfl, ?_⟩
    rintro _ _ ⟨j, hj, -⟩
    omega

end Lockstep

theorem Block.EndsAt.saved_before_used {b : Block} {last : Address} (h : b.EndsAt last) {n : Snapshot}
    (hfirst : b.first.toNat ≤ n.useAt.toNat) (huse : n.useAt.toNat + 12 = last.toNat)
    (hsave : n.saveAt.toNat = max (n.useAt.toNat - 32) b.first.toNat) {k : Nat}
    (hk : k < (last.toNat - b.first.toNat) / 8 + 1) (hu : b.address k = n.useAt) :
    ∃ j ≤ k, n.saveAt = b.address j := by
  have ha := h.aligned
  have hf := b.first_aligned
  have hadr := h.toNat_address (k := k) (by omega)
  rw [hu] at hadr
  refine ⟨(n.saveAt.toNat - b.first.toNat) / 8, by omega, ?_⟩
  apply UInt32.toNat_inj.1
  rw [h.toNat_address (by omega)]
  omega

/-- Running the code of a block comes to the same as issuing the halves of its pairs together. -/
theorem run_compile_agrees_with_lockstep {options : Options} {isa : InstructionSet} {m : Memory}
    {b : Block} {done : Compiled} (hf : isa.Faithful m) (h : compile options isa m b = .ok done)
    (s : State) :
    ∃ code t u, done.draft.finish = .ok code ∧ code.run s = .ok t ∧
      b.lockstep options isa m done.report.snapshot s = .ok u ∧ t.AgreeOutsideScratch u := by
  have hend := b.endsAt_extent isa m
  have hpairs : ∀ a ∈ b.addresses (b.extent isa m).last, ∀ t, (Pair.decode isa m a).Faithful isa t := by
    intro a ha t
    exact hf a t (hend.mem_addresses_iff.1 ha).1
  have hfinish := compile_finish (fun a ha t =>
    ⟨(hpairs a ha t).upper_alone.closesRegions, (hpairs a ha t).lower_alone.closesRegions⟩) h
  have hsnap := fun n hn => compile_snapshot h (n := n) hn
  obtain ⟨delay, p, draft, -, hp, hdraft, rfl⟩ := compile_eq_ok_iff.1 h
  rw [Block.foldlM_addresses] at hp
  obtain ⟨c, x, hc, hx, hsim⟩ := Lockstep.Simulates.run (s := s)
    (fun k hk => hpairs _ (Block.address_mem hk)) (fun n hn => (hsnap n hn).1)
    (fun k hk n hn => hend.saved_before_used (hsnap n hn).2.1 (hsnap n hn).2.2.1 (hsnap n hn).2.2.2 hk)
    hp
  have hclock : c.pipeTime = s.pipeTime := by
    rw [← hsim.clock_eq]
    exact Except.ok.inj (hsim.agree.word_eq (f := .pipeTime) rfl rfl)
  refine ⟨_, _, _, hfinish, ?_, ?_, hsim.agree.close s.pipeTime (b.extent isa m) p.scoreboard.time⟩
  · rw [(Draft.emit_eq_ok_iff.1 hdraft).2, Code.run_append hc, State.run_closing, hclock]
  · rw [← hsim.timed.time_eq]
    exact bind_eq_ok.2 ⟨x, hx, rfl⟩

namespace Sample

/-- An upper half adds float registers. A lower half copies the sum, counts in an integer register, or
jumps through that register. -/
def isa : InstructionSet where
  branch _ w := if w = 0x50000000 then .delayed else .straight
  effects a w :=
    if a.toNat % 8 = 4 then { srcF0 := 1, srcF1 := 2, destF := 3 }
    else if w = 1 then { srcF0 := 3, destF := 4 }
    else if w = 2 then { srcI0 := 1, destI := 1 }
    else { srcI0 := 1 }
  target _ _ := 0
  code a w _ :=
    if a.toNat % 8 = 4 then [.pushVec (.vf 1), .pushVec (.vf 2), .addVec, .pullVec (.vf 3)]
    else if w = 1 then [.pushVec (.vf 3), .pullVec (.vf 4)]
    else if w = 2 then [.push (.vi 1), .const 1, .add, .pull (.vi 1)]
    else [.push (.vi 1), .pull .delayedJump]

def memory : Memory where
  word a := if a = 0 then 1 else if a = 8 then 2 else if a = 16 then 0x50000000 else 0

theorem faithful (m : Memory) : isa.Faithful m := by
  intro a t ha
  have hl : a.toNat % 8 ≠ 4 := by omega
  have hu : (a + 4).toNat % 8 = 4 := by
    rw [UInt32.toNat_add]
    simp; omega
  have hlower : m.word a = 1 ∨ m.word a = 2 ∨ m.word a ≠ 1 ∧ m.word a ≠ 2 := by grind
  rcases hlower with h | h | h <;> constructor <;>
    simp only [Pair.decode, Pair.upperIssue, Pair.lowerIssue, Issue.code, isa, hu, hl, h, if_true, if_false]
  all_goals first
    | exact ⟨rfl, fun _ => ⟨_, rfl⟩⟩
    | rfl
    | intro f
      simp only [Code.mentions, Code.pushes, Code.pulls, Action.pushes, Action.pulls, List.any_cons,
        List.any_nil, Bool.or_eq_true, beq_iff_eq, Bool.or_false, Bool.false_or]
      grind [Field.isScratch, Field.width]

def counting : Memory where
  word a := if a = 8 ∨ a = 24 then 2 else if a = 16 then 0x50000000 else 1

def loaded : State :=
  { State.initial with
    vf := ⟨(Vector.replicate vfCount .zero).set 3 ⟨⟨1⟩, ⟨2⟩, ⟨3⟩, ⟨4⟩⟩⟩
    vi := .fill viCount 64
    pipeTime := 100 }

theorem run_agrees : ∃ b done code t u, Block.ofRange 0 20 = .ok b ∧
    compile {} isa counting b = .ok done ∧ done.report.extent = ⟨28, true⟩ ∧
    done.report.snapshot = some ⟨1, 0, 16⟩ ∧ done.draft.finish = .ok code ∧ code.run loaded = .ok t ∧
    b.lockstep {} isa counting done.report.snapshot loaded = .ok u ∧ t.AgreeOutsideScratch u ∧
    ∀ x ∈ [t, u], x.pipeTime = 104 ∧ x.read (.vf 3) = .ok (.quad (Quad.add .zero .zero)) ∧
      x.read (.vf 4) = .ok (.quad ⟨⟨1⟩, ⟨2⟩, ⟨3⟩, ⟨4⟩⟩) ∧ x.read (.vi 1) = .ok (.word 66) ∧
      x.delayedJump = 64 := by
  have hdone : ∃ b done code t u, Block.ofRange 0 20 = .ok b ∧ compile {} isa counting b = .ok done ∧
      done.report.extent = ⟨28, true⟩ ∧ done.report.snapshot = some ⟨1, 0, 16⟩ ∧
      done.draft.finish = .ok code ∧ code.run loaded = .ok t ∧
      b.lockstep {} isa counting done.report.snapshot loaded = .ok u ∧
      ∀ x ∈ [t, u], x.pipeTime = 104 ∧ x.read (.vf 3) = .ok (.quad (Quad.add .zero .zero)) ∧
        x.read (.vf 4) = .ok (.quad ⟨⟨1⟩, ⟨2⟩, ⟨3⟩, ⟨4⟩⟩) ∧ x.read (.vi 1) = .ok (.word 66) ∧
        x.delayedJump = 64 := by
    refine ⟨_, _, _, _, _, rfl, rfl, rfl, rfl, rfl, rfl, rfl, List.forall_mem_cons.2 ⟨?_, ?_⟩⟩
    · exact ⟨rfl, rfl, rfl, rfl, rfl⟩
    · exact List.forall_mem_singleton.2 ⟨rfl, rfl, rfl, rfl, rfl⟩
  obtain ⟨b, done, code, t, u, hb, hcompile, hextent, hsnapshot, hcode, ht, hu, hfields⟩ := hdone
  obtain ⟨code', t', u', hcode', ht', hu', hagree⟩ :=
    run_compile_agrees_with_lockstep (faithful counting) hcompile loaded
  rw [hcode] at hcode'
  cases hcode'
  rw [ht] at ht'
  cases ht'
  rw [hu] at hu'
  cases hu'
  exact ⟨b, done, code, t, u, hb, hcompile, hextent, hsnapshot, hcode, ht, hu, hagree, hfields⟩

end Sample

end DualIssue
