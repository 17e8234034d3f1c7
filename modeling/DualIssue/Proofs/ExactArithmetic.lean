import DualIssue.Proofs.Footprint
import DualIssue.Proofs.Lockstep
import Mathlib.Algebra.Group.Int.Defs

/-!
Arithmetic that stays within the words. Words wrap, and the sum of a time and the latency stops at the
end of the range. Here is the compiler once more, with operations that give a word only if it has
the value of the sum, difference or product of the integers, and break off otherwise. Only a distance
before an address stops at zero as it is meant to, since no instruction stands before that. Main
statement: with a latency of at most eight cycles nothing breaks off, and every block is compiled as
the compiler does it; a block takes at least a cycle for each pair, and at most the latency.
-/

set_option autoImplicit false

namespace DualIssue

namespace Checked

/-- The word with this value, if there is one. -/
def word (n : Int) : Option Word :=
  if 0 ≤ n ∧ n < 2 ^ 32 then some (UInt32.ofNat n.toNat) else none

def add (a b : Word) : Option Word := word ((a.toNat : Int) + b.toNat)

def sub (a b : Word) : Option Word := word ((a.toNat : Int) - b.toNat)

def mul (a b : Word) : Option Word := word ((a.toNat : Int) * b.toNat)

theorem word_eq_some_iff {n : Int} {w : Word} : word n = some w ↔ (w.toNat : Int) = n := by
  have hlt := w.toNat_lt
  by_cases h : 0 ≤ n ∧ n < 2 ^ 32
  · rw [word, if_pos h, Option.some.injEq, ← UInt32.toNat_inj, UInt32.toNat_ofNat_of_lt']
    · omega
    · simp only [UInt32.size]
      omega
  · rw [word, if_neg h]
    simp only [reduceCtorEq, false_iff]
    omega

theorem add_eq {a b : Word} (h : a.toNat + b.toNat < 2 ^ 32) : add a b = some (a + b) := by
  rw [add, word_eq_some_iff, UInt32.toNat_add, Nat.mod_eq_of_lt h]
  omega

theorem sub_eq {a b : Word} (h : b.toNat ≤ a.toNat) : sub a b = some (a - b) := by
  rw [sub, word_eq_some_iff, UInt32.toNat_sub_of_le _ _ (UInt32.le_iff_toNat_le.2 h)]
  omega

theorem sub_eq_none {a b : Word} (h : a.toNat < b.toNat) : sub a b = none := by
  rw [sub, word, if_neg]
  omega

theorem mul_eq {a b : Word} (h : a.toNat * b.toNat < 2 ^ 32) : mul a b = some (a * b) := by
  rw [mul, word_eq_some_iff, UInt32.toNat_mul, Nat.mod_eq_of_lt h, Int.natCast_mul]

/-- A computation that can end early as the compiler does, and breaks off where a result is no word. -/
abbrev Run (ε α : Type) := ExceptT ε Option α

def pairs (b : Block) : Option Word := do
  let length ← sub b.last b.first
  add (length / 8) 1

def extent (isa : InstructionSet) (m : Memory) (b : Block) : Option Extent := do
  let lower ← sub b.last 4
  if !isImmediateLoad (m.word b.last) && isa.branch lower (m.word lower) == .delayed then
    let last ← add b.last 8
    return ⟨last, true⟩
  else return ⟨b.last, false⟩

def jumpFixup (e : Extent) : Option Code :=
  if e.extended then do
    let next ← add e.last 4
    return [.const noJump, .push .delayedJump, .enter .eq, .const next, .pull .delayedJump, .leave]
  else return []

def staleRead (isa : InstructionSet) (m : Memory) (b : Block) (last : Address) :
    Run Fault (Option (Address × Register)) := do
  let lower ← sub last 4
  let second ← add b.first 8
  if lower < second then return none
  else
    let branch ← sub lower 8
    let opcode ← m.fetch branch
    if isConditionalBranch opcode then
      match sub branch 8 with
      | none => return none
      | some address =>
        let prior := isa.effects address (m.word address)
        return if prior.destI ≠ 0 ∧ ¬prior.flagResult ∧
            (isa.effects branch opcode).readsInt prior.destI then
          some (branch, prior.destI)
        else none
    else return none

def countsIn (isa : InstructionSet) (m : Memory) (b : Block) (r : Register) (length : Word) :
    List Word → Run Refusal Bool
  | [] => return true
  | index :: rest => do
    let distance ← mul index 8
    let a ← add b.first distance
    let final ← sub length 1
    if index = final then
      if isConditionalBranch (m.word a) then
        if isa.target a (m.word a) ≠ b.first then return false
        else countsIn isa m b r length rest
      else throw (.notConditionalBranch a (m.word a))
    else if (isa.effects a (m.word a)).destI ≠ r then return false
    else countsIn isa m b r length rest

def isCountingLoop (isa : InstructionSet) (m : Memory) (b : Block) (last : Address) (r : Register) :
    Run Refusal Bool := do
  let bytes ← sub last b.first
  if bytes / 8 ≠ 4 then return false
  else countsIn isa m b r (bytes / 8) ((List.range (bytes / 8).toNat).map UInt32.ofNat)

def branchDelay (isa : InstructionSet) (m : Memory) (b : Block) (last : Address) :
    Run Stop BranchDelay := do
  match ← (staleRead isa m b last).adapt .fault with
  | none => return .absent
  | some (branch, r) =>
    if ← (isCountingLoop isa m b last r).adapt .refused then return .waived branch r
    else
      let distance ← mul snapshotDistance 8
      return .needed ⟨r, max (clampedSub branch distance) b.first, branch⟩

def delayOf (options : Options) (isa : InstructionSet) (m : Memory) (b : Block) (last : Address) :
    Run Stop BranchDelay :=
  if options.branchDelay then branchDelay isa m b last else pure .absent

def firstRead (options : Options) (b : Block) (last : Address) : Option Address :=
  if options.branchDelay then do
    let lower ← sub last 4
    let second ← add b.first 8
    return if lower < second then b.first else min (clampedSub lower 16) b.first
  else return b.first

def decode (isa : InstructionSet) (m : Memory) (a : Address) : Option Pair := do
  let upper ← add a 4
  return {
    address := a
    lower := m.word a
    upper := m.word upper
    lo := isa.effects a (m.word a)
    hi := isa.effects upper (m.word upper) }

def issue (s : Scoreboard) (a : Address) (lo hi : Effects) : Run Refusal Code := do
  if hi.writesQ then
    let upper ← add a 4
    throw (.upperWritesQ upper)
  else if lo.readsQ then throw (.lowerReadsQ a)
  else return s.opening lo hi

def retire (s : Scoreboard) (lo hi : Effects) : Run Fault Scoreboard := do
  let now ← add s.time 1
  let time ← s.stall now (lo.floatReads ++ hi.floatReads)
  let ready ← (lo.floatWrites ++ hi.floatWrites).foldlM
    (fun t r => do
      let due ← add time s.latency
      t.set r.toNat due)
    s.ready
  return { s with time, ready }

def step (isa : InstructionSet) (m : Memory) (snapshot : Option Snapshot) (p : Progress)
    (a : Address) : Run Stop Progress := do
  let pair ← decode isa m a
  pair.check.mapError Stop.refused
  let opening ← (issue p.scoreboard a pair.lo pair.hi).adapt .refused
  pair.checkWrites.mapError Stop.refused
  let t := p.scoreboard.time
  let draft ← (p.draft.emit (opening ++ pair.body isa snapshot t)).mapError Stop.fault
  let scoreboard ← (retire p.scoreboard pair.lo pair.hi).adapt .fault
  if draft.isStackEmpty then
    let pairs ← add p.pairs 1
    return ⟨draft, scoreboard, pairs, p.issued ++ [pair.upperIssue t, pair.lowerIssue t]⟩
  else throw (.refused (.unbalancedStack a))

def stepAt (isa : InstructionSet) (m : Memory) (snapshot : Option Snapshot) (b : Block) (p : Progress)
    (k : Nat) : Run Stop Progress := do
  let distance ← mul 8 (UInt32.ofNat k)
  let a ← add b.first distance
  step isa m snapshot p a

def visit (latency : Cycle) (isa : InstructionSet) (m : Memory) (snapshot : Option Snapshot) (b : Block)
    (last : Address) : Run Stop Progress := do
  let bytes ← sub last b.first
  (List.range (bytes.toNat / 8 + 1)).foldlM (stepAt isa m snapshot b) (.start latency)

def compile (options : Options) (isa : InstructionSet) (m : Memory) (b : Block) :
    Run Stop Compiled := do
  let extent ← extent isa m b
  let delay ← delayOf options isa m b extent.last
  let firstRead ← firstRead options b extent.last
  let p ← visit options.latency isa m delay.snapshot? b extent.last
  let fixup ← jumpFixup extent
  let draft ← (p.draft.emit (p.scoreboard.finish ++ fixup)).mapError Stop.fault
  return ⟨{
    extent
    pairs := p.pairs
    time := p.scoreboard.time
    snapshot := delay.snapshot?
    firstRead }, draft, p.issued⟩

def overlaps (r : Report) (first stop : Address) : Option Bool := do
  let top ← add r.extent.last 3
  return decide (first ≤ top ∧ r.firstRead < stop)

namespace Run

variable {ε δ α β : Type}

/-- The computation does not break off, and ends as the other one does. -/
def Agrees (x : Run ε α) (y : Except ε α) : Prop := x.run = some y

namespace Agrees

theorem of_except (y : Except ε α) : Agrees (liftM y) y := rfl

theorem of_word {o : Option α} {a : α} {next : α → Run ε β} {y : Except ε β} (ho : o = some a)
    (h : (next a).Agrees y) : Agrees (liftM o >>= next) y := by
  rw [ho]
  exact h

theorem of_ok {y : Except ε α} {a : α} {next : α → Run ε β} {z : Except ε β} (hy : y = .ok a)
    (h : (next a).Agrees z) : Agrees (liftM y >>= next) z := by
  rw [hy]
  exact h

theorem adapt {x : Run ε α} {y : Except ε α} (h : x.Agrees y) (f : ε → δ) :
    Agrees (x.adapt f) (y.mapError f) := by
  rw [Agrees, ExceptT.run_adapt, h]
  rfl

theorem bind {x : Run ε α} {y : Except ε α} {next : α → Run ε β} {next' : α → Except ε β}
    (h : x.Agrees y) (hnext : ∀ a, y = .ok a → (next a).Agrees (next' a)) :
    Agrees (x >>= next) (y >>= next') := by
  rw [Agrees, ExceptT.run_bind, h]
  cases y with
  | error e => rfl
  | ok a => exact hnext a rfl

/-- If each step agrees while what holds after so many steps is kept, the whole run agrees. -/
theorem foldlM {f : α → β → Run ε α} {g : α → β → Except ε α} {P : Nat → α → Prop} {n bound : Nat}
    {ys : List β} (hstep : ∀ k < bound, ∀ a y, y ∈ ys → P k a → (f a y).Agrees (g a y) ∧
      ∀ a', g a y = .ok a' → P (k + 1) a') {a : α} (ha : P n a) (hn : n + ys.length ≤ bound) :
    Agrees (ys.foldlM f a) (ys.foldlM g a) ∧
      ∀ a', ys.foldlM g a = .ok a' → P (n + ys.length) a' := by
  induction ys generalizing n a with
  | nil =>
    refine ⟨rfl, ?_⟩
    intro a' h
    cases h
    exact ha
  | cons y ys ih =>
    rw [List.length_cons] at hn ⊢
    obtain ⟨hy, hP⟩ := hstep n (by omega) a y (by simp) ha
    have hrest : ∀ b, g a y = .ok b → Agrees (ys.foldlM f b) (ys.foldlM g b) ∧
        ∀ a', ys.foldlM g b = .ok a' → P (n + (ys.length + 1)) a' := by
      intro b hb
      have h := ih (fun k hk c z hz => hstep k hk c z (by simp [hz])) (hP b hb) (by omega)
      rwa [Nat.add_assoc, Nat.add_comm 1] at h
    rw [List.foldlM_cons, List.foldlM_cons]
    refine ⟨hy.bind fun b hb => (hrest b hb).1, ?_⟩
    intro a' h
    obtain ⟨b, hb, h⟩ := bind_eq_ok.1 h
    exact (hrest b hb).2 a' h

end Agrees

end Run

section

variable {isa : InstructionSet} {m : Memory} {b : Block} {last : Address}

theorem pairs_eq (b : Block) : pairs b = some b.pairs := by
  have hsub := sub_eq b.first_le_last
  have hadd : add ((b.last - b.first) / 8) 1 = some ((b.last - b.first) / 8 + 1) := by
    have hlt := b.last.toNat_lt
    have hlength := UInt32.toNat_sub_of_le _ _ (UInt32.le_iff_toNat_le.2 b.first_le_last)
    apply add_eq
    rw [UInt32.toNat_div, hlength]
    simp only [UInt32.reduceToNat]
    omega
  rw [pairs, hsub, Option.bind_eq_bind, Option.bind_some, hadd, Block.pairs]

theorem extent_eq (isa : InstructionSet) (m : Memory) (b : Block) :
    extent isa m b = some (b.extent isa m) := by
  have ha := b.last_aligned
  have hm := b.last_le_max
  simp only [maxLast, UInt32.reduceToNat] at hm
  have hsub : sub b.last 4 = some (b.last - 4) := sub_eq (by simp; omega)
  have hadd : add b.last 8 = some (b.last + 8) := add_eq (by simp; omega)
  rw [extent, hsub, hadd, Block.extent, Block.endsInBranch]
  simp only [Option.bind_eq_bind, Option.bind_some]
  split <;> rfl

theorem jumpFixup_eq (isa : InstructionSet) (m : Memory) (b : Block) :
    jumpFixup (b.extent isa m) = some (b.extent isa m).jumpFixup := by
  have hroom := (b.endsAt_extent isa m).room
  have hadd : add (b.extent isa m).last 4 = some ((b.extent isa m).last + 4) := add_eq (by simp; omega)
  simp only [jumpFixup, Extent.jumpFixup, hadd, Option.bind_eq_bind, Option.bind_some]
  split <;> rfl

theorem sub_four (h : b.EndsAt last) : sub last 4 = some (last - 4) :=
  sub_eq (by have ha := h.aligned; simp; omega)

theorem add_eight (h : b.EndsAt last) : add b.first 8 = some (b.first + 8) :=
  add_eq (by have hle := h.first_le; have hroom := h.room; simp; omega)

theorem agrees_staleRead (h : b.EndsAt last) (isa : InstructionSet) (m : Memory) :
    (staleRead isa m b last).Agrees (b.staleRead isa m last) := by
  refine .of_word (sub_four h) (.of_word (add_eight h) ?_)
  by_cases hl : last.toNat < b.first.toNat + 12
  · rw [if_pos (h.short_iff.2 hl), h.staleRead_of_short hl]
    rfl
  · have ha := h.aligned
    have hl : b.first.toNat + 12 ≤ last.toNat := by omega
    have h12 := Block.toNat_branch hl
    have hbranch : sub (last - 4) 8 = some (last - 12) := by
      have h4 : (last - 4).toNat = last.toNat - 4 :=
        UInt32.toNat_sub_of_le _ _ (UInt32.le_iff_toNat_le.2 (by simp; omega))
      rw [sub, word_eq_some_iff, h4, h12]
      simp only [UInt32.reduceToNat]
      omega
    have hfetch : m.fetch (last - 12) = .ok (m.word (last - 12)) := by
      rw [Memory.fetch, if_pos (by omega)]
    rw [if_neg (by rw [h.short_iff]; omega), h.staleRead_eq hl]
    refine .of_word hbranch (.of_ok hfetch ?_)
    by_cases hc : isConditionalBranch (m.word (last - 12)) = true
    · rw [if_pos hc]
      by_cases h8 : 8 ≤ (last - 12).toNat
      · have hle : 8 ≤ last - 12 := h8
        have hprior : sub (last - 12) 8 = some (last - 12 - 8) := sub_eq h8
        simp only [hprior, hc, hle, true_and]
        rfl
      · have hlt : ¬8 ≤ last - 12 := h8
        have hprior : sub (last - 12) 8 = none := sub_eq_none (by simpa using h8)
        simp only [hprior, hlt, false_and, and_false, if_false]
        rfl
    · simp only [hc]
      rfl

theorem index_eq (h : b.EndsAt last) (h4 : (last - b.first) / 8 = 4) {k : Word} (hk : k.toNat ≤ 3) :
    mul k 8 = some (k * 8) ∧ add b.first (k * 8) = some (b.first + k * 8) := by
  have hroom := h.room
  have hlength : (last.toNat - b.first.toNat) / 8 = 4 := by
    rw [← h.toNat_sub_first]
    exact congrArg UInt32.toNat h4
  have hmul : k.toNat * (8 : Word).toNat < 2 ^ 32 := by
    simp only [UInt32.reduceToNat]
    omega
  refine ⟨mul_eq hmul, add_eq ?_⟩
  rw [UInt32.toNat_mul, Nat.mod_eq_of_lt hmul]
  simp only [UInt32.reduceToNat]
  omega

theorem agrees_countsIn_append (h : b.EndsAt last) (h4 : (last - b.first) / 8 = 4) {r : Register}
    {ks rest : List Word} (hks : ∀ k ∈ ks, k.toNat < 3) {y : Except Refusal Bool}
    (hrest : (countsIn isa m b r 4 rest).Agrees y) :
    (countsIn isa m b r 4 (ks ++ rest)).Agrees
      (if ks.any fun k => (isa.effects (b.first + k * 8) (m.word (b.first + k * 8))).destI != r then
        .ok false
      else y) := by
  induction ks with
  | nil => exact hrest
  | cons k ks ih =>
    have hk : k.toNat < 3 := hks k (by simp)
    have hne : k ≠ 3 := by
      rintro rfl
      exact absurd hk (by decide)
    have hfinal : sub 4 1 = some 3 := sub_eq (by decide)
    obtain ⟨hmul, hadd⟩ := index_eq h h4 (Nat.le_of_lt hk)
    refine .of_word hmul (.of_word hadd (.of_word hfinal ?_))
    rw [if_neg hne, List.any_cons]
    by_cases hr : (isa.effects (b.first + k * 8) (m.word (b.first + k * 8))).destI = r
    · rw [if_neg (not_not_intro hr), bne_eq_false_iff_eq.2 hr, Bool.false_or]
      exact ih fun k hk => hks k (by simp [hk])
    · rw [if_pos hr, bne_iff_ne.2 hr, Bool.true_or]
      rfl

theorem agrees_countsIn_last (h : b.EndsAt last) (h4 : (last - b.first) / 8 = 4) {r : Register} :
    (countsIn isa m b r 4 [3]).Agrees
      (if isConditionalBranch (m.word (b.first + 24)) then
        .ok (isa.target (b.first + 24) (m.word (b.first + 24)) == b.first)
      else .error (.notConditionalBranch (b.first + 24) (m.word (b.first + 24)))) := by
  obtain ⟨hmul, hadd⟩ := index_eq h h4 (k := 3) (by decide)
  have hfinal : sub 4 1 = some 3 := sub_eq (by decide)
  refine .of_word hmul (.of_word hadd (.of_word hfinal ?_))
  have h24 : b.first + 3 * 8 = b.first + 24 := rfl
  rw [if_pos rfl, h24]
  by_cases hc : isConditionalBranch (m.word (b.first + 24)) = true
  · rw [if_pos hc, if_pos hc]
    by_cases ht : isa.target (b.first + 24) (m.word (b.first + 24)) = b.first
    · rw [if_neg (not_not_intro ht), beq_iff_eq.2 ht]
      rfl
    · rw [if_pos ht, beq_eq_false_iff_ne.2 ht]
      rfl
  · rw [if_neg hc, if_neg hc]
    rfl

theorem agrees_isCountingLoop (h : b.EndsAt last) (isa : InstructionSet) (m : Memory) (r : Register) :
    (isCountingLoop isa m b last r).Agrees (b.isCountingLoop isa m last r) := by
  refine .of_word (sub_eq h.first_le) ?_
  by_cases h4 : (last - b.first) / 8 = 4
  · rw [if_neg (not_not_intro h4), h4, Block.isCountingLoop, if_neg (not_not_intro h4)]
    have hloop : (countsIn isa m b r 4 ([0, 1, 2] ++ [3])).Agrees _ :=
      agrees_countsIn_append h h4 (by simp) (agrees_countsIn_last h h4)
    have h0 : b.first + 0 * 8 = b.first := by simp
    simp only [List.any_cons, h0] at hloop
    exact hloop
  · rw [if_pos h4, Block.isCountingLoop, if_pos h4]
    rfl

theorem agrees_branchDelay (h : b.EndsAt last) (isa : InstructionSet) (m : Memory) :
    (branchDelay isa m b last).Agrees (b.branchDelay isa m last) := by
  refine ((agrees_staleRead h isa m).adapt _).bind ?_
  rintro (_ | ⟨branch, r⟩) -
  · rfl
  · refine ((agrees_isCountingLoop h isa m r).adapt _).bind ?_
    rintro (_ | _) -
    · refine .of_word (mul_eq (by decide)) ?_
      rfl
    · rfl

theorem agrees_delayOf (h : b.EndsAt last) (options : Options) (isa : InstructionSet) (m : Memory) :
    (delayOf options isa m b last).Agrees (options.delayOf isa m b last) := by
  unfold delayOf Options.delayOf
  split
  · exact agrees_branchDelay h isa m
  · rfl

theorem firstRead_eq (h : b.EndsAt last) (options : Options) :
    firstRead options b last = some (options.firstRead b last) := by
  rw [firstRead, sub_four h, add_eight h, Options.firstRead]
  split <;> rfl

theorem add_four {a : Address} (ha : a.toNat % 8 = 0) : add a 4 = some (a + 4) := by
  have hlt := a.toNat_lt
  exact add_eq (by simp; omega)

theorem decode_eq {a : Address} (ha : a.toNat % 8 = 0) (isa : InstructionSet) (m : Memory) :
    decode isa m a = some (Pair.decode isa m a) := by
  rw [decode, add_four ha]
  rfl

theorem agrees_issue (s : Scoreboard) {a : Address} (ha : a.toNat % 8 = 0) (lo hi : Effects) :
    (issue s a lo hi).Agrees (s.issue a lo hi) := by
  unfold issue Scoreboard.issue
  split
  · refine .of_word (add_four ha) ?_
    rfl
  · split <;> rfl

end

end Checked

/-- The cycles that `n` pairs take if each of them waits for the one before it. The first has none to
wait for. -/
def slowest (latency n : Nat) : Nat := n + (n - 1) * (max 1 latency - 1)

theorem slowest_le (latency n : Nat) : slowest latency n ≤ n * max 1 latency := by
  obtain ⟨k, hk⟩ : ∃ k, max 1 latency = k + 1 := ⟨max 1 latency - 1, by omega⟩
  have hmul : (n - 1) * k ≤ n * k := Nat.mul_le_mul_right _ (Nat.sub_le _ _)
  rw [slowest, hk, Nat.mul_add, Nat.add_sub_cancel]
  omega

theorem slowest_add (latency n : Nat) :
    slowest latency (n + 1) + max 1 latency = slowest latency (n + 1 + 1) := by
  have hmul : (n + 1) * (max 1 latency - 1) = n * (max 1 latency - 1) + (max 1 latency - 1) :=
    Nat.succ_mul _ _
  simp only [slowest, Nat.add_sub_cancel]
  omega

theorem slowest_succ_le (latency n : Nat) : slowest latency n + 1 ≤ slowest latency (n + 1) := by
  have hmul : (n - 1) * (max 1 latency - 1) ≤ n * (max 1 latency - 1) :=
    Nat.mul_le_mul_right _ (Nat.sub_le _ _)
  simp only [slowest, Nat.add_sub_cancel]
  omega

theorem slowest_lt {latency n : Nat} (hl : latency ≤ 8) (hn : n + 1 < 2 ^ 29) :
    slowest latency (n + 1 + 1) < 2 ^ 32 := by
  have hmul : (n + 1) * (max 1 latency - 1) ≤ (n + 1) * 7 := Nat.mul_le_mul_left _ (by omega)
  simp only [slowest, Nat.add_sub_cancel]
  omega

namespace Scoreboard

/-- The timing after `n` pairs: each took a cycle at least, and none more than if it had waited for the
one before it. What is not ready yet is so when the next pair has done the same. -/
structure Paced (s : Scoreboard) (n : Nat) : Prop where
  le_time : n ≤ s.time.toNat
  time_le : s.time.toNat ≤ slowest s.latency.toNat n
  ready_le : ∀ r v, s.readyTime r = .ok v → v.toNat ≤ slowest s.latency.toNat (n + 1)

theorem paced_start (latency : Cycle) : (start latency).Paced 0 where
  le_time := Nat.zero_le _
  time_le := Nat.zero_le _
  ready_le := by
    intro r v hv
    simp only [readyTime, start, Table.get, Table.fill] at hv
    split at hv
    · simp at hv
      subst hv
      simp
    · cases hv

namespace Paced

variable {s t : Scoreboard} {n : Nat} {p : Pair}

theorem toNat_next (h : s.Paced n) (hroom : slowest s.latency.toNat (n + 1 + 1) < 2 ^ 32) :
    (s.time + 1).toNat = s.time.toNat + 1 := by
  have h1 := slowest_succ_le s.latency.toNat n
  have h2 := slowest_succ_le s.latency.toNat (n + 1)
  have h3 := h.time_le
  rw [UInt32.toNat_add, Nat.mod_eq_of_lt (by simp; omega)]
  rfl

theorem retire (h : s.Paced n) (hroom : slowest s.latency.toNat (n + 1 + 1) < 2 ^ 32)
    (ht : s.retire p.lo p.hi = .ok t) : t.Paced (n + 1) := by
  have hr := retired_of_retire ht
  have hnext := h.toNat_next hroom
  have hsucc := slowest_succ_le s.latency.toNat n
  have hadd := slowest_add s.latency.toNat n
  have htime : t.time.toNat ≤ slowest s.latency.toNat (n + 1) := by
    rcases hr.time with htime | ⟨r, -, hready⟩
    · have hle := h.time_le
      rw [htime, hnext]
      omega
    · exact h.ready_le r _ hready
  constructor
  case le_time =>
    have hle := h.le_time
    have hn := hr.next_le
    omega
  case time_le =>
    rw [hr.latency]
    exact htime
  case ready_le =>
    intro r v hv
    rw [hr.latency]
    rw [hr.ready] at hv
    split at hv
    · cases hv
      rw [toNat_clampedAdd]
      omega
    · have hle := h.ready_le r v hv
      omega

end Paced

end Scoreboard

namespace Checked

theorem agrees_retire {s : Scoreboard} {n : Nat} (h : s.Paced n)
    (hroom : slowest s.latency.toNat (n + 1 + 1) < 2 ^ 32) (lo hi : Effects) :
    (retire s lo hi).Agrees (s.retire lo hi) := by
  have hadd := slowest_add s.latency.toNat n
  have hsucc := slowest_succ_le s.latency.toNat n
  have hnext := h.toNat_next hroom
  have htime := h.time_le
  refine .of_word (add_eq (by simp; omega)) ((Run.Agrees.of_except _).bind ?_)
  intro time hstall
  have hle : time.toNat ≤ slowest s.latency.toNat (n + 1) := by
    rcases (Scoreboard.stall_spec hstall).2 with rfl | ⟨r, -, hready⟩
    · omega
    · exact h.ready_le r time hready
  have hdue : add time s.latency = some (clampedAdd time s.latency) := by
    rw [add, word_eq_some_iff, toNat_clampedAdd]
    simp only [UInt32.size]
    omega
  refine Run.Agrees.bind ?_ fun ready _ => rfl
  refine (Run.Agrees.foldlM (P := fun _ _ => True) (n := 0) ?_ trivial (Nat.le_refl _)).1
  intro k hk t r hr _
  refine ⟨.of_word hdue (.of_except _), fun _ _ => trivial⟩

theorem agrees_step {isa : InstructionSet} {m : Memory} {snapshot : Option Snapshot} {p : Progress}
    {a : Address} {n : Nat} (ha : a.toNat % 8 = 0) (hp : p.scoreboard.Paced n)
    (hroom : slowest p.scoreboard.latency.toNat (n + 1 + 1) < 2 ^ 32)
    (hpairs : p.pairs.toNat + 1 < 2 ^ 32) :
    (step isa m snapshot p a).Agrees (p.step isa m snapshot a) := by
  refine .of_word (decode_eq ha isa m) ((Run.Agrees.of_except _).bind fun _ _ => ?_)
  refine ((agrees_issue p.scoreboard ha _ _).adapt _).bind fun opening _ => ?_
  refine (Run.Agrees.of_except _).bind fun _ _ => (Run.Agrees.of_except _).bind fun draft _ => ?_
  refine ((agrees_retire hp hroom _ _).adapt _).bind fun board _ => ?_
  split
  · exact .of_word (add_eq hpairs) rfl
  · rfl

end Checked

structure Progress.Paced (latency : Cycle) (n : Nat) (p : Progress) : Prop where
  pairs : p.pairs.toNat = n
  latency_eq : p.scoreboard.latency = latency
  board : p.scoreboard.Paced n

theorem Progress.Paced.step {latency : Cycle} {n : Nat} {p q : Progress} (h : p.Paced latency n)
    (hroom : slowest latency.toNat (n + 1 + 1) < 2 ^ 32) (hn : n + 1 < 2 ^ 32) {isa : InstructionSet}
    {m : Memory} {snapshot : Option Snapshot} {a : Address} (hq : p.step isa m snapshot a = .ok q) :
    q.Paced latency (n + 1) := by
  have adv := advance_of_step hq
  have hl := h.latency_eq
  constructor
  case pairs =>
    rw [adv.pairs, UInt32.toNat_add, h.pairs, Nat.mod_eq_of_lt (by simpa using hn)]
    rfl
  case latency_eq => rw [(Scoreboard.retired_of_retire adv.retire).latency, hl]
  case board => exact h.board.retire (by rw [hl]; exact hroom) adv.retire

namespace Checked

variable {options : Options} {isa : InstructionSet} {m : Memory} {b : Block} {last : Address}

theorem agrees_stepAt (h : b.EndsAt last) {k n : Nat} {p : Progress} {latency : Cycle}
    {snapshot : Option Snapshot} (hk : b.first.toNat + 8 * k ≤ last.toNat) (hp : p.Paced latency n)
    (hclock : slowest latency.toNat (n + 1 + 1) < 2 ^ 32) (hn : n + 1 < 2 ^ 32) :
    (stepAt isa m snapshot b p k).Agrees (p.step isa m snapshot (b.address k)) := by
  have hroom := h.room
  have hf := b.first_aligned
  have haddress := h.toNat_address hk
  have hk8 : (8 : Word).toNat * (UInt32.ofNat k).toNat = 8 * k := by
    simp; omega
  have hmul : mul 8 (UInt32.ofNat k) = some (8 * UInt32.ofNat k) := mul_eq (by omega)
  have hadd : add b.first (8 * UInt32.ofNat k) = some (b.address k) := by
    apply add_eq
    rw [UInt32.toNat_mul, hk8]
    omega
  refine .of_word hmul (.of_word hadd (agrees_step (by omega) hp.board ?_ ?_))
  · rw [hp.latency_eq]
    exact hclock
  · rw [hp.pairs]
    exact hn

theorem agrees_visit (h : b.EndsAt last) {latency : Cycle} (hlatency : latency.toNat ≤ 8)
    (isa : InstructionSet) (m : Memory) (snapshot : Option Snapshot) :
    (visit latency isa m snapshot b last).Agrees
      ((b.addresses last).foldlM (Progress.step isa m snapshot) (.start latency)) ∧
    ∀ p, (b.addresses last).foldlM (Progress.step isa m snapshot) (.start latency) = .ok p →
      p.Paced latency (b.addresses last).length := by
  have hroom := h.room
  have hle := h.first_le
  have hlength := h.toNat_sub_first
  have hstep : ∀ n < (last - b.first).toNat / 8 + 1, ∀ p k,
      k ∈ List.range ((last - b.first).toNat / 8 + 1) → Progress.Paced latency n p →
      (stepAt isa m snapshot b p k).Agrees (p.step isa m snapshot (b.address k)) ∧
        ∀ q, p.step isa m snapshot (b.address k) = .ok q → q.Paced latency (n + 1) := by
    intro n hn p k hk hp
    rw [List.mem_range] at hk
    have hclock := slowest_lt hlatency (n := n) (by omega)
    exact ⟨agrees_stepAt h (by omega) hp hclock (by omega), fun q hq => hp.step hclock (by omega) hq⟩
  have hstart : Progress.Paced latency 0 (.start latency) := ⟨rfl, rfl, Scoreboard.paced_start latency⟩
  have hrun := Run.Agrees.foldlM hstep hstart (by rw [List.length_range]; omega)
  rw [List.length_range, Nat.zero_add] at hrun
  rw [b.length_addresses, Block.addresses, List.foldlM_map]
  exact ⟨.of_word (sub_eq hle) hrun.1, hrun.2⟩

theorem agrees_compile (hlatency : options.latency.toNat ≤ 8) (isa : InstructionSet) (m : Memory)
    (b : Block) : (compile options isa m b).Agrees (DualIssue.compile options isa m b) := by
  have h := b.endsAt_extent isa m
  refine .of_word (extent_eq isa m b) ((agrees_delayOf h options isa m).bind fun delay _ => ?_)
  refine .of_word (firstRead_eq h options) ((agrees_visit h hlatency isa m _).1.bind fun p _ => ?_)
  refine .of_word (jumpFixup_eq isa m b) ((Run.Agrees.of_except _).bind fun draft _ => ?_)
  rfl

theorem overlaps_eq {r : Report} (h : b.EndsAt r.extent.last) (first stop : Address) :
    overlaps r first stop = some (r.overlaps first stop) := by
  have hroom := h.room
  have hadd : add r.extent.last 3 = some (r.extent.last + 3) := add_eq (by simp; omega)
  rw [overlaps, hadd]
  rfl

end Checked

/-- With a latency of at most eight cycles every sum, difference and product formed for a block is a
word. The count of the pairs, the compilation, however it ends, and the test for an overlap with
what was compiled come to the same with checked operations. The time is at least the number of
the pairs and at most the latency for each of them. -/
theorem compile_arithmetic_exact (options : Options) (hlatency : options.latency.toNat ≤ 8)
    (isa : InstructionSet) (m : Memory) (b : Block) :
    Checked.pairs b = some b.pairs ∧
    (Checked.compile options isa m b).run = some (compile options isa m b) ∧
    ∀ done, compile options isa m b = .ok done →
      (∀ first stop, Checked.overlaps done.report first stop = some (done.report.overlaps first stop)) ∧
      done.report.pairs.toNat ≤ done.report.time.toNat ∧
      done.report.time.toNat ≤ done.report.pairs.toNat * max 1 options.latency.toNat ∧
      (options.latency.toNat ≤ 1 → done.report.time = done.report.pairs) := by
  refine ⟨Checked.pairs_eq b, Checked.agrees_compile hlatency isa m b, ?_⟩
  intro done hdone
  obtain ⟨delay, p, draft, -, hp, -, rfl⟩ := compile_eq_ok_iff.1 hdone
  have h := b.endsAt_extent isa m
  have hpaced := (Checked.agrees_visit h hlatency isa m delay.snapshot?).2 p hp
  have hle := hpaced.board.le_time
  have htime := hpaced.board.time_le
  have hslow := slowest_le options.latency.toNat (b.addresses (b.extent isa m).last).length
  rw [hpaced.latency_eq] at htime
  refine ⟨Checked.overlaps_eq h, ?_, ?_, ?_⟩
  · rw [hpaced.pairs]
    exact hle
  · rw [hpaced.pairs]
    exact Nat.le_trans htime hslow
  · intro hone
    have hmax : max 1 options.latency.toNat = 1 := by omega
    rw [hmax, Nat.mul_one] at hslow
    apply UInt32.toNat_inj.1
    rw [hpaced.pairs]
    exact Nat.le_antisymm (Nat.le_trans htime hslow) hle

namespace Sample

def top : Memory where
  word a := if a = 0xFFFFFFE0 then 2 else if a = 0xFFFFFFE8 then 0x50000000 else 1

theorem exact_at_top : ∃ b done, Block.ofRange 0xFFFFFFD8 0xFFFFFFEC = .ok b ∧
    compile { latency := 8 } isa top b = .ok done ∧
    (Checked.compile { latency := 8 } isa top b).run = some (.ok done) ∧
    done.report = ⟨⟨0xFFFFFFF4, true⟩, 4, 11, some ⟨1, 0xFFFFFFD8, 0xFFFFFFE8⟩, 0xFFFFFFD8⟩ ∧
    Checked.overlaps done.report 0xFFFFFFF7 0xFFFFFFFF = some true ∧
    done.report.time.toNat ≤ done.report.pairs.toNat * 8 := by
  have hdone : ∃ b done, Block.ofRange 0xFFFFFFD8 0xFFFFFFEC = .ok b ∧
      compile { latency := 8 } isa top b = .ok done ∧
      done.report = ⟨⟨0xFFFFFFF4, true⟩, 4, 11, some ⟨1, 0xFFFFFFD8, 0xFFFFFFE8⟩, 0xFFFFFFD8⟩ ∧
      done.report.overlaps 0xFFFFFFF7 0xFFFFFFFF = true := ⟨_, _, rfl, rfl, rfl, rfl⟩
  obtain ⟨b, done, hb, hcompile, hreport, hoverlap⟩ := hdone
  obtain ⟨-, hchecked, hrest⟩ := compile_arithmetic_exact { latency := 8 } (by decide) isa top b
  obtain ⟨hover, -, htime, -⟩ := hrest done hcompile
  rw [hcompile] at hchecked
  refine ⟨b, done, hb, hcompile, hchecked, hreport, ?_, htime⟩
  rw [hover, hoverlap]

end Sample

end DualIssue
