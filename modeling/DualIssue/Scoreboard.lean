import DualIssue.InstructionSet
import DualIssue.Latch
import DualIssue.Refusal

/-!
The timing of one block: the cycles elapsed, stalls included, and when each float register can be
read. The timing of Q is part of the emulated state and is left to the code.
-/

set_option autoImplicit false

namespace DualIssue

structure Scoreboard where
  latency : Cycle
  time : Cycle
  /-- The cycle at which each float register's last value is readable. -/
  ready : Table vfCount Cycle
  deriving DecidableEq, Repr

namespace Scoreboard

def start (latency : Cycle) : Scoreboard := ⟨latency, 0, .fill vfCount 0⟩

def readyTime (s : Scoreboard) (r : Register) : Except Fault Cycle := s.ready.get r.toNat

/-- The code before the pair at `a`. Only the lower half may write Q, for which the result before is
drained; only the upper half may read it. -/
def issue (s : Scoreboard) (a : Address) (lo hi : Effects) : Except Refusal Code :=
  if hi.writesQ then .error (.upperWritesQ (a + 4))
  else if lo.readsQ then .error (.lowerReadsQ a)
  else .ok <|
    (if lo.writesQ then Latch.q.release else []) ++ (if hi.readsQ then Latch.q.releaseIfDue s.time else [])

def stall (s : Scoreboard) : Cycle → List Register → Except Fault Cycle
  | t, [] => .ok t
  | t, r :: rest => do
    let u ← s.readyTime r
    s.stall (max t u) rest

theorem le_of_stall {s : Scoreboard} {t u : Cycle} {reads : List Register}
    (h : s.stall t reads = .ok u) : t.toNat ≤ u.toNat := by
  induction reads generalizing t with
  | nil => simp only [stall, Except.ok.injEq] at h; subst h; exact Nat.le_refl _
  | cons r rest ih =>
    cases hr : s.readyTime r with
    | error e => simp [stall, hr, bind, Except.bind] at h
    | ok v =>
      simp only [stall, hr, bind, Except.bind] at h
      have hv := ih h
      rw [toNat_max] at hv
      omega

/-- One cycle for the pair, then stalls for what it read, then the times of what it wrote. -/
def retire (s : Scoreboard) (lo hi : Effects) : Except Fault Scoreboard := do
  let time ← s.stall (s.time + 1) (lo.floatReads ++ hi.floatReads)
  let ready ← (lo.floatWrites ++ hi.floatWrites).foldlM
    (fun t r => t.set r.toNat (clampedAdd time s.latency)) s.ready
  .ok { s with time, ready }

def finish (s : Scoreboard) : Code := [.push .pipeTime, .const s.time, .add, .pull .pipeTime]

end Scoreboard

end DualIssue
