import DualIssue.Proofs.Refusals

/-!
The schedule of a block. Pair after pair the scoreboard says when the next one issues; the compiler
sends the two halves of that pair to the code generator, the upper one first, and appends their code
to what it has. Main statement: a compiled block consists of exactly that, followed by the clock and,
if the block was cut behind a branch, by the jump over the delay slot.
-/

set_option autoImplicit false

namespace DualIssue

namespace Block

variable (isa : InstructionSet) (m : Memory) (latency : Cycle) (b : Block)

def upper (k : Nat) : Issue :=
  (Pair.decode isa m (b.address k)).upperIssue (b.timing isa m latency k).time

def lower (k : Nat) : Issue :=
  (Pair.decode isa m (b.address k)).lowerIssue (b.timing isa m latency k).time

def issues (k : Nat) : List Issue := [b.upper isa m latency k, b.lower isa m latency k]

def piece (snapshot : Option Snapshot) (k : Nat) : Code :=
  let p := Pair.decode isa m (b.address k)
  let s := b.timing isa m latency k
  s.opening p.lo p.hi ++ p.body isa snapshot s.time

/-- The code of a pair is the code of its issues with copies before, between and behind them. -/
theorem piece_eq (snapshot : Option Snapshot) (k : Nat) : b.piece isa m latency snapshot k =
    let p := Pair.decode isa m (b.address k)
    (b.timing isa m latency k).opening p.lo p.hi ++ Code.moves (p.keeps snapshot) ++
      (b.upper isa m latency k).code isa ++ Code.moves (p.swaps snapshot) ++
      (b.lower isa m latency k).code isa ++ Code.moves (p.restores snapshot) := by
  simp only [piece, Pair.body_eq_moves, List.append_assoc]
  rfl

end Block

/-- The first `n` pairs of the block have been compiled, each as the scoreboard said. -/
structure Progress.Scheduled (isa : InstructionSet) (m : Memory) (latency : Cycle) (b : Block)
    (snapshot : Option Snapshot) (n : Nat) (p : Progress) : Prop where
  board : p.scoreboard = b.timing isa m latency n
  pairs : p.pairs = UInt32.ofNat n
  issued : p.issued = (List.range n).flatMap (b.issues isa m latency)
  code : p.draft.code = (List.range n).flatMap (b.piece isa m latency snapshot)
  checked : ∀ k < n, (Pair.decode isa m (b.address k)).check = .ok ()
  retired : ∀ k < n, (b.timing isa m latency k).retire (Pair.decode isa m (b.address k)).lo
    (Pair.decode isa m (b.address k)).hi = .ok (b.timing isa m latency (k + 1))

namespace Progress.Scheduled

variable {isa : InstructionSet} {m : Memory} {latency : Cycle} {b : Block} {snapshot : Option Snapshot}

theorem start : Scheduled isa m latency b snapshot 0 (.start latency) :=
  ⟨rfl, rfl, rfl, rfl, by simp, by simp⟩

theorem step {n : Nat} {p q : Progress} (h : p.Scheduled isa m latency b snapshot n)
    (hq : p.step isa m snapshot (b.address n) = .ok q) :
    q.Scheduled isa m latency b snapshot (n + 1) := by
  have adv := advance_of_step hq
  have hretire := adv.retire
  rw [h.board] at hretire
  have hnext : b.timing isa m latency (n + 1) = q.scoreboard := Scoreboard.next_of_retire hretire
  constructor
  case board => exact hnext.symm
  case pairs => rw [adv.pairs, h.pairs, UInt32.ofNat_add]; rfl
  case issued =>
    rw [adv.issued, h.issued, h.board, List.range_succ, List.flatMap_append]
    simp [Block.issues, Block.upper, Block.lower]
  case code =>
    rw [(Draft.emit_eq_ok_iff.1 adv.emit).2, h.code, h.board, List.range_succ, List.flatMap_append]
    simp [Block.piece]
  case checked =>
    intro k hk
    rcases Nat.lt_succ_iff_lt_or_eq.1 hk with hk | rfl
    · exact h.checked k hk
    · exact adv.check
  case retired =>
    intro k hk
    rcases Nat.lt_succ_iff_lt_or_eq.1 hk with hk | rfl
    · exact h.retired k hk
    · rw [hnext]
      exact hretire

theorem run {n : Nat} {p : Progress}
    (h : (List.range n).foldlM (fun p k => Progress.step isa m snapshot p (b.address k))
      (Progress.start latency) = .ok p) : p.Scheduled isa m latency b snapshot n :=
  foldlM_range_induction (P := Scheduled isa m latency b snapshot) (fun _ _ _ _ hk hq => hk.step hq)
    start h

end Progress.Scheduled

structure Compiled.Scheduled (options : Options) (isa : InstructionSet) (m : Memory) (b : Block)
    (done : Compiled) : Prop where
  extent : done.report.extent = b.extent isa m
  pairs : done.report.pairs = UInt32.ofNat (b.count isa m)
  time : done.report.time = (b.timing isa m options.latency (b.count isa m)).time
  issued : done.issued = (List.range (b.count isa m)).flatMap (b.issues isa m options.latency)
  code : done.draft.code =
    (List.range (b.count isa m)).flatMap (b.piece isa m options.latency done.report.snapshot) ++
      ((b.timing isa m options.latency (b.count isa m)).finish ++ (b.extent isa m).jumpFixup)
  checked : ∀ k < b.count isa m, (Pair.decode isa m (b.address k)).check = .ok ()
  retired : ∀ k < b.count isa m, (b.timing isa m options.latency k).retire
    (Pair.decode isa m (b.address k)).lo (Pair.decode isa m (b.address k)).hi =
      .ok (b.timing isa m options.latency (k + 1))

section

variable {options : Options} {isa : InstructionSet} {m : Memory} {b : Block} {done : Compiled}

theorem scheduled_of_compile (h : compile options isa m b = .ok done) :
    done.Scheduled options isa m b := by
  rcases compile_eq_ok_iff.1 h with ⟨delay, p, draft, -, hp, hdraft, rfl⟩
  rw [Block.foldlM_addresses] at hp
  have hrun := Progress.Scheduled.run hp
  constructor
  case extent => rfl
  case pairs => exact hrun.pairs
  case time => exact congrArg Scoreboard.time hrun.board
  case issued => exact hrun.issued
  case code =>
    show draft.code = _
    rw [(Draft.emit_eq_ok_iff.1 hdraft).2, hrun.code, hrun.board]
  case checked => exact hrun.checked
  case retired => exact hrun.retired

theorem Compiled.Scheduled.time_lt (h : done.Scheduled options isa m b)
    (hclock : ∀ i ∈ done.issued, i.time.toNat + 1 < 2 ^ 32) {j k : Nat} (hjk : j < k)
    (hk : k ≤ b.count isa m) : (b.timing isa m options.latency j).time.toNat <
      (b.timing isa m options.latency k).time.toNat := by
  have hstep : ∀ i < b.count isa m, (b.timing isa m options.latency i).time.toNat <
      (b.timing isa m options.latency (i + 1)).time.toNat := by
    intro i hi
    apply Scoreboard.time_lt_of_retire (h.retired i hi)
    apply hclock (b.upper isa m options.latency i)
    rw [h.issued, List.mem_flatMap]
    exact ⟨i, List.mem_range.2 hi, by simp [Block.issues]⟩
  induction k with
  | zero => omega
  | succ k ih =>
    rcases Nat.lt_succ_iff_lt_or_eq.1 hjk with hlt | rfl
    · exact Nat.lt_trans (ih hlt (by omega)) (hstep k hk)
    · exact hstep j hk

end

theorem Block.endsInBranch_iff (isa : InstructionSet) (m : Memory) (b : Block) :
    b.endsInBranch isa m = true ↔
      m.word b.last &&& 0x80000000 = 0 ∧ isa.branch (b.last - 4) (m.word (b.last - 4)) = .delayed := by
  simp [endsInBranch, isImmediateLoad]

/-- A block that is compiled has each of its instructions issued once: pair after pair, the upper half
and then the lower half, as they stand in memory, both at the time to which the pairs before have
brought the scoreboard. The times grow from pair to pair while their count does not overflow. The code
is what the code generator gave for these issues, with the copies of each pair around it, and behind
it the clock is set; only for a block that was cut behind a branch, whose real end is one pair later,
the jump over the delay slot follows. -/
theorem every_instruction_issued_once {options : Options} {isa : InstructionSet} {m : Memory} {b : Block}
    {done : Compiled} (h : compile options isa m b = .ok done) :
    let last := done.report.extent.last
    let n := (last.toNat - b.first.toNat) / 8 + 1
    let board := b.timing isa m options.latency
    let pair := fun k => Pair.decode isa m (b.address k)
    let cut := m.word b.last &&& 0x80000000 = 0 ∧ isa.branch (b.last - 4) (m.word (b.last - 4)) = .delayed
    done.issued = (List.range n).flatMap (fun k =>
      [⟨b.address k + 4, m.word (b.address k + 4), (board k).time⟩,
        ⟨b.address k, m.word (b.address k), (board k).time⟩]) ∧
    (∀ k < n, (b.address k).toNat = b.first.toNat + 8 * k ∧
      (b.address k + 4).toNat = b.first.toNat + 8 * k + 4) ∧
    board 0 = .start options.latency ∧ (board 0).time = 0 ∧
    (∀ k < n, (board k).retire (isa.effects (b.address k) (m.word (b.address k)))
      (isa.effects (b.address k + 4) (m.word (b.address k + 4))) = .ok (board (k + 1))) ∧
    ((∀ i ∈ done.issued, i.time.toNat + 1 < 2 ^ 32) →
      ∀ j k, j < k → k ≤ n → (board j).time < (board k).time) ∧
    done.report.pairs.toNat = n ∧ done.report.time = (board n).time ∧
    last.toNat = b.last.toNat + (if cut then 8 else 0) ∧
    done.draft.code =
      (List.range n).flatMap (fun k =>
        (if (isa.effects (b.address k) (m.word (b.address k))).writesQ then Latch.q.release else []) ++
        (if (isa.effects (b.address k + 4) (m.word (b.address k + 4))).readsQ then
          Latch.q.releaseIfDue (board k).time else []) ++
        Code.moves ((pair k).keeps done.report.snapshot) ++
        isa.code (b.address k + 4) (m.word (b.address k + 4)) (board k).time ++
        Code.moves ((pair k).swaps done.report.snapshot) ++
        isa.code (b.address k) (m.word (b.address k)) (board k).time ++
        Code.moves ((pair k).restores done.report.snapshot)) ++
      [.push .pipeTime, .const (board n).time, .add, .pull .pipeTime] ++
      (if cut then [.const noJump, .push .delayedJump, .enter .eq, .const (last + 4), .pull .delayedJump,
        .leave] else []) := by
  intro last n board pair cut
  have hs := scheduled_of_compile h
  have hend := b.endsAt_extent isa m
  have hlast : last = (b.extent isa m).last := congrArg Extent.last hs.extent
  have hn : n = b.count isa m := by rw [Block.count, ← hlast]
  have hroom := hend.room
  rw [← hlast] at hend hroom
  have hcut : cut ↔ b.endsInBranch isa m = true := (b.endsInBranch_iff isa m).symm
  refine ⟨?_, ?_, rfl, rfl, ?_, ?_, ?_, ?_, ?_, ?_⟩
  · rw [hs.issued, hn]
    rfl
  · intro k hk
    have hadr := hend.toNat_address_of_lt hk
    have hf := b.first_aligned
    exact ⟨hadr, by rw [toNat_add_four (by omega), hadr]⟩
  · intro k hk
    exact hs.retired k (hn ▸ hk)
  · intro hclock j k hjk hk
    exact UInt32.lt_iff_toNat_lt.2 (hs.time_lt hclock hjk (hn ▸ hk))
  · rw [hs.pairs, ← hn, UInt32.toNat_ofNat_of_lt']
    simp only [UInt32.size]
    omega
  · rw [hs.time, hn]
  · rw [hlast, b.toNat_extent_last isa m]
    simp only [hcut]
  · rw [hs.code, hn, hlast, List.append_assoc, funext (b.piece_eq isa m options.latency _)]
    simp only [hcut, Block.extent, Extent.jumpFixup]
    split <;> rfl

namespace Sample

/-- The second copy waits for the sum of the first pair, and behind the branch the block is cut. -/
def stalling : Memory where
  word a := if a = 0 ∨ a = 8 then 1 else if a = 16 then 0x50000000 else 0

def sumAndCopy : Code :=
  [.pushVec (.vf 3), .pullVec .vfPreUp,
    .pushVec (.vf 1), .pushVec (.vf 2), .addVec, .pullVec (.vf 3),
    .pushVec (.vf 3), .pullVec .vfUpRes, .pushVec .vfPreUp, .pullVec (.vf 3),
    .pushVec (.vf 3), .pullVec (.vf 4),
    .pushVec .vfUpRes, .pullVec (.vf 3)]

def sumAndJump : Code :=
  [.pushVec (.vf 1), .pushVec (.vf 2), .addVec, .pullVec (.vf 3), .push (.vi 1), .pull .delayedJump]

theorem issued_with_stall : ∃ b done, Block.ofRange 0 20 = .ok b ∧
    compile {} isa stalling b = .ok done ∧ done.report.extent = ⟨28, true⟩ ∧
    done.issued.map (fun i => (i.address, i.time)) =
      [(4, 0), (0, 0), (12, 1), (8, 1), (20, 5), (16, 5), (28, 6), (24, 6)] ∧
    done.report.pairs.toNat = 4 ∧
    (∀ j k, j < k → k ≤ 4 → (b.timing isa stalling 4 j).time < (b.timing isa stalling 4 k).time) ∧
    done.draft.code = sumAndCopy ++ sumAndCopy ++ sumAndJump ++ sumAndJump ++
      [.push .pipeTime, .const 7, .add, .pull .pipeTime] ++
      [.const noJump, .push .delayedJump, .enter .eq, .const 32, .pull .delayedJump, .leave] := by
  have hdone : ∃ b done, Block.ofRange 0 20 = .ok b ∧ compile {} isa stalling b = .ok done ∧
      b.first = 0 ∧ done.report.extent = ⟨28, true⟩ ∧
      done.issued.map (fun i => (i.address, i.time)) =
        [(4, 0), (0, 0), (12, 1), (8, 1), (20, 5), (16, 5), (28, 6), (24, 6)] ∧
      (∀ i ∈ done.issued, i.time.toNat + 1 < 2 ^ 32) ∧
      done.draft.code = sumAndCopy ++ sumAndCopy ++ sumAndJump ++ sumAndJump ++
        [.push .pipeTime, .const 7, .add, .pull .pipeTime] ++
        [.const noJump, .push .delayedJump, .enter .eq, .const 32, .pull .delayedJump, .leave] :=
    ⟨_, _, rfl, rfl, rfl, rfl, rfl, by decide, rfl⟩
  rcases hdone with ⟨b, done, hb, hcompile, hfirst, hextent, hissued, hclock, hcode⟩
  have hall := every_instruction_issued_once hcompile
  rw [hextent, hfirst] at hall
  rcases hall with ⟨-, -, -, -, -, htimes, hpairs, -⟩
  exact ⟨b, done, hb, hcompile, hextent, hissued, hpairs, htimes hclock, hcode⟩

end Sample

end DualIssue
