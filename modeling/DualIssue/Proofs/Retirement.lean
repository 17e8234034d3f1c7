import DualIssue.Proofs.Bracket
import Mathlib.Algebra.Group.Nat.Defs

set_option autoImplicit false

namespace DualIssue

def Effects.FloatsExist (e : Effects) : Prop :=
  e.srcF0.toNat < vfCount ∧ e.srcF1.toNat < vfCount ∧ e.destF.toNat < vfCount

namespace Pair

/-- Either half reads the register. The constant register is never waited for. -/
def ReadsFloat (p : Pair) (r : Register) : Prop :=
  r ≠ 0 ∧ (r = p.lo.srcF0 ∨ r = p.lo.srcF1 ∨ r = p.hi.srcF0 ∨ r = p.hi.srcF1)

def WritesFloat (p : Pair) (r : Register) : Prop := r ≠ 0 ∧ (r = p.lo.destF ∨ r = p.hi.destF)

instance (p : Pair) (r : Register) : Decidable (p.WritesFloat r) :=
  inferInstanceAs (Decidable (_ ∧ _))

def FloatsExist (p : Pair) : Prop := p.lo.FloatsExist ∧ p.hi.FloatsExist

theorem floatsExist_of_check {p : Pair} (h : p.check = .ok ()) : p.FloatsExist := by
  rcases check_eq_ok_iff.1 h with ⟨hlo, hhi⟩
  exact ⟨((Effects.missing_eq_none_iff _).1 hlo).1, ((Effects.missing_eq_none_iff _).1 hhi).1⟩

theorem ReadsFloat.lt {p : Pair} {r : Register} (h : p.ReadsFloat r) (hp : p.FloatsExist) :
    r.toNat < vfCount := by
  rcases hp with ⟨⟨hlo0, hlo1, -⟩, hhi0, hhi1, -⟩
  rcases h.2 with rfl | rfl | rfl | rfl <;> assumption

theorem mem_floatReads_iff {p : Pair} {r : Register} :
    r ∈ p.lo.floatReads ++ p.hi.floatReads ↔ p.ReadsFloat r := by
  simp [Effects.floatReads, ReadsFloat]
  grind

theorem mem_floatWrites_iff {p : Pair} {r : Register} :
    r ∈ p.lo.floatWrites ++ p.hi.floatWrites ↔ p.WritesFloat r := by
  simp [Effects.floatWrites, WritesFloat]
  grind

end Pair

theorem max_eq_or (a b : Word) : max a b = a ∨ max a b = b := by
  have h := toNat_max a b
  rcases Nat.le_total a.toNat b.toNat with hle | hle
  · exact .inr (UInt32.toNat_inj.1 (by omega))
  · exact .inl (UInt32.toNat_inj.1 (by omega))

theorem Table.get_foldlM_set {n : Nat} {α : Type} {a : α} {rs : List Register} {t u : Table n α}
    (h : rs.foldlM (fun t r => t.set r.toNat a) t = .ok u) (r : Register) :
    u.get r.toNat = if r ∈ rs then .ok a else t.get r.toNat := by
  induction rs generalizing t with
  | nil =>
    cases h
    simp
  | cons q rs ih =>
    rw [List.foldlM_cons, bind_eq_ok] at h
    rcases h with ⟨t', ht, h⟩
    rw [ih h, get_set ht]
    by_cases hq : r = q <;> by_cases hr : r ∈ rs <;> simp [hq, hr, UInt8.toNat_inj]

namespace Scoreboard

/-- A stall ends when every register can be read, and not later. -/
theorem stall_spec {s : Scoreboard} {t u : Cycle} {reads : List Register} (h : s.stall t reads = .ok u) :
    (∀ r ∈ reads, ∀ v, s.readyTime r = .ok v → v.toNat ≤ u.toNat) ∧
      (u = t ∨ ∃ r ∈ reads, s.readyTime r = .ok u) := by
  induction reads generalizing t with
  | nil =>
    cases h
    exact ⟨by simp, .inl rfl⟩
  | cons r rest ih =>
    rcases bind_eq_ok.1 h with ⟨v, hv, h⟩
    have hle := le_of_stall h
    rw [toNat_max] at hle
    rcases ih h with ⟨hall, hone⟩
    constructor
    · intro q hq w hw
      rcases List.mem_cons.1 hq with rfl | hq
      · rw [hv] at hw
        cases hw
        omega
      · exact hall q hq w hw
    · rcases hone with rfl | ⟨q, hq, hone⟩
      · rcases max_eq_or t v with hm | hm
        · exact .inl hm
        · exact .inr ⟨r, by simp, by rw [hm, hv]⟩
      · exact .inr ⟨q, by simp [hq], hone⟩

structure Retired (s : Scoreboard) (p : Pair) (t : Scoreboard) : Prop where
  latency : t.latency = s.latency
  next_le : (s.time + 1).toNat ≤ t.time.toNat
  ready_le : ∀ r v, p.ReadsFloat r → s.readyTime r = .ok v → v.toNat ≤ t.time.toNat
  time : t.time = s.time + 1 ∨ ∃ r, p.ReadsFloat r ∧ s.readyTime r = .ok t.time
  ready : ∀ r, t.readyTime r =
    if p.WritesFloat r then .ok (clampedAdd t.time s.latency) else s.readyTime r

theorem retired_of_retire {s t : Scoreboard} {p : Pair} (h : s.retire p.lo p.hi = .ok t) :
    s.Retired p t := by
  rcases bind_eq_ok.1 h with ⟨time, htime, h⟩
  rcases bind_eq_ok.1 h with ⟨ready, hready, h⟩
  cases h
  rcases stall_spec htime with ⟨hall, hone⟩
  constructor
  case latency => rfl
  case next_le => exact le_of_stall htime
  case ready_le =>
    intro r v hr hv
    exact hall r (Pair.mem_floatReads_iff.2 hr) v hv
  case time =>
    rcases hone with hone | ⟨r, hr, hone⟩
    · exact .inl hone
    · exact .inr ⟨r, Pair.mem_floatReads_iff.1 hr, hone⟩
  case ready =>
    intro r
    have hget := Table.get_foldlM_set hready r
    simp only [Pair.mem_floatWrites_iff] at hget
    exact hget

/-- The wait in one expression. Register 0 is ready from the start, so that it delays nothing. -/
theorem Retired.time_eq {s t : Scoreboard} {p : Pair} (h : s.Retired p t) (hp : p.FloatsExist)
    {ready : Register → Cycle} (hready : ∀ r, r.toNat < vfCount → s.readyTime r = .ok (ready r))
    (hzero : ready 0 = 0) :
    t.time = max (s.time + 1) (max (max (ready p.lo.srcF0) (ready p.lo.srcF1))
      (max (ready p.hi.srcF0) (ready p.hi.srcF1))) := by
  have hwait : ∀ r, r.toNat < vfCount →
      r = p.lo.srcF0 ∨ r = p.lo.srcF1 ∨ r = p.hi.srcF0 ∨ r = p.hi.srcF1 →
      (ready r).toNat ≤ t.time.toNat := by
    intro r hr hsrc
    by_cases h0 : r = 0
    · rw [h0, hzero]
      exact Nat.zero_le _
    · exact h.ready_le r _ ⟨h0, hsrc⟩ (hready r hr)
  apply UInt32.toNat_inj.1
  simp only [toNat_max]
  apply Nat.le_antisymm
  · rcases h.time with htime | ⟨r, hr, htime⟩
    · rw [htime]
      exact Nat.le_max_left _ _
    · rw [hready r (hr.lt hp), Except.ok.injEq] at htime
      rw [← htime]
      rcases hr.2 with rfl | rfl | rfl | rfl <;> grind
  · simp only [Nat.max_le]
    exact ⟨h.next_le, ⟨hwait _ hp.1.1 (by simp), hwait _ hp.1.2.1 (by simp)⟩,
      hwait _ hp.2.1 (by simp), hwait _ hp.2.2.1 (by simp)⟩

theorem exists_stall (s : Scoreboard) {regs : List Register} (h : ∀ r ∈ regs, r.toNat < vfCount)
    (t : Cycle) : ∃ u, s.stall t regs = .ok u := by
  induction regs generalizing t with
  | nil => exact ⟨t, rfl⟩
  | cons r regs ih =>
    obtain ⟨ready, hr⟩ := s.ready.get_isOk (h r (by simp))
    obtain ⟨u, hu⟩ := ih (fun q hq => h q (by simp [hq])) (max t ready)
    exact ⟨u, by rw [stall, readyTime, hr]; exact hu⟩

theorem exists_retire_of_floats (s : Scoreboard) {lo hi : Effects} (hlo : lo.FloatsExist)
    (hhi : hi.FloatsExist) : ∃ t, s.retire lo hi = .ok t := by
  obtain ⟨hlo0, hlo1, hlod⟩ := hlo
  obtain ⟨hhi0, hhi1, hhid⟩ := hhi
  have hreads : ∀ r ∈ lo.floatReads ++ hi.floatReads, r.toNat < vfCount := by
    simp [Effects.floatReads]
    grind
  obtain ⟨time, htime⟩ := s.exists_stall hreads (s.time + 1)
  have hset : Ends (fun _ => True) (fun _ => False) ((lo.floatWrites ++ hi.floatWrites).foldlM
      (fun t r => t.set r.toNat (clampedAdd time s.latency)) s.ready) := by
    refine Ends.foldlM (fun t r hr _ => ?_) trivial
    have hr : r.toNat < vfCount := by
      simp [Effects.floatWrites] at hr
      grind
    obtain ⟨u, hu⟩ := t.set_isOk (clampedAdd time s.latency) hr
    exact .of_ok hu trivial
  obtain ⟨ready, hready, -⟩ := hset.exists_ok
  exact ⟨{ s with time, ready }, by simp [retire, htime, hready, bind, Except.bind]⟩

theorem exists_retire (s : Scoreboard) {lo hi : Effects} (hlo : lo.missing = none)
    (hhi : hi.missing = none) : ∃ t, s.retire lo hi = .ok t :=
  s.exists_retire_of_floats ((Effects.missing_eq_none_iff lo).1 hlo).1
    ((Effects.missing_eq_none_iff hi).1 hhi).1

/-- The timing after the pair has issued, or before it if a float register of the pair does not
exist. -/
def next (s : Scoreboard) (p : Pair) : Scoreboard := (s.retire p.lo p.hi).toOption.getD s

theorem next_of_retire {s t : Scoreboard} {p : Pair} (h : s.retire p.lo p.hi = .ok t) :
    s.next p = t := by
  rw [next, h]
  rfl

theorem time_lt_of_retire {s t : Scoreboard} {lo hi : Effects}
    (h : s.retire lo hi = .ok t) (hroom : s.time.toNat + 1 < 2 ^ 32) : s.time.toNat < t.time.toNat := by
  obtain ⟨time, htime, h⟩ := bind_eq_ok.1 h
  obtain ⟨ready, -, h⟩ := bind_eq_ok.1 h
  cases h
  have hle := le_of_stall htime
  rw [UInt32.toNat_add, Nat.mod_eq_of_lt (by simpa using hroom)] at hle
  exact hle

end Scoreboard

end DualIssue
