import DualIssue.Proofs.Retirement

/-!
The clock as a longest path. Pair after pair leads from one node to the next, which takes a cycle; a
pair that reads a float register also has to come the latency after the pair that last wrote it. The
scoreboard keeps a time and one number for each register, and its time is the greatest weight of a
path through all these edges.
-/

set_option autoImplicit false

namespace DualIssue

/-- Of the pairs with numbers below `k`, the one with number `i` is the last to write the register. -/
structure WrittenLast (ps : List Pair) (r : Register) (k i : Nat) : Prop where
  before : i < k
  writes : ∃ p, ps[i]? = some p ∧ p.WritesFloat r
  last : ∀ j p, i < j → j < k → ps[j]? = some p → ¬p.WritesFloat r

/-- The pair with number `k` leads from node `k` to node `k + 1`. It comes a cycle after the pair before
it, and the latency after the pair that last wrote what it reads. -/
inductive Edge (ps : List Pair) (latency : Nat) : Nat → Nat → Nat → Prop
  | next {k : Nat} : k < ps.length → Edge ps latency k (k + 1) 1
  | wait {k i : Nat} {p : Pair} {r : Register} : ps[k]? = some p → p.ReadsFloat r →
      WrittenLast ps r k i → Edge ps latency (i + 1) (k + 1) latency

inductive Path (ps : List Pair) (latency : Nat) : Nat → Nat → Prop
  | start : Path ps latency 0 0
  | along {j k t w : Nat} : Path ps latency j t → Edge ps latency j k w → Path ps latency k (t + w)

namespace Edge

variable {ps : List Pair} {latency j k w : Nat}

theorem lt (h : Edge ps latency j k w) : j < k := by
  cases h with
  | next hk => exact Nat.lt_succ_self _
  | wait hp hr hi => exact Nat.succ_lt_succ hi.before

theorem weight_le (h : Edge ps latency j k w) : w ≤ max 1 latency := by
  cases h with
  | next hk => exact Nat.le_max_left _ _
  | wait hp hr hi => exact Nat.le_max_right _ _

end Edge

namespace WrittenLast

variable {ps : List Pair} {r : Register} {k i j : Nat}

theorem unique (hi : WrittenLast ps r k i) (hj : WrittenLast ps r k j) : i = j := by
  rcases Nat.lt_trichotomy i j with h | h | h
  · rcases hj.writes with ⟨p, hp, hw⟩
    exact absurd hw (hi.last j p h hj.before hp)
  · exact h
  · rcases hi.writes with ⟨p, hp, hw⟩
    exact absurd hw (hj.last i p h hi.before hp)

theorem self {p : Pair} (hp : ps[k]? = some p) (hw : p.WritesFloat r) : WrittenLast ps r (k + 1) k where
  before := Nat.lt_succ_self k
  writes := ⟨p, hp, hw⟩
  last := by
    intro j q h1 h2
    omega

theorem succ {p : Pair} (h : WrittenLast ps r k i) (hp : ps[k]? = some p) (hw : ¬p.WritesFloat r) :
    WrittenLast ps r (k + 1) i where
  before := Nat.lt_succ_of_lt h.before
  writes := h.writes
  last := by
    intro j q h1 h2 hq
    rcases Nat.lt_succ_iff_lt_or_eq.1 h2 with h2 | rfl
    · exact h.last j q h1 h2 hq
    · rw [hp] at hq
      cases hq
      exact hw

end WrittenLast

namespace Scoreboard

def retireAll (s : Scoreboard) (ps : List Pair) : Except Fault Scoreboard :=
  ps.foldlM (fun s p => s.retire p.lo p.hi) s

def atNode (latency : Cycle) (ps : List Pair) (k : Nat) : Scoreboard :=
  (ps.take k).foldl next (.start latency)

theorem retireAll_eq {ps : List Pair} (h : ∀ p ∈ ps, p.FloatsExist) (s : Scoreboard) :
    s.retireAll ps = .ok (ps.foldl next s) := by
  induction ps generalizing s with
  | nil => rfl
  | cons p ps ih =>
    rcases h p (by simp) with ⟨hlo, hhi⟩
    rcases s.exists_retire_of_floats hlo hhi with ⟨t, ht⟩
    have hrest := ih (fun q hq => h q (by simp [hq])) t
    rw [retireAll] at hrest
    rw [retireAll, List.foldlM_cons, ht, List.foldl_cons, next_of_retire ht]
    exact hrest

variable {latency : Cycle} {ps : List Pair}

structure Fits (latency : Cycle) (ps : List Pair) : Prop where
  floats : ∀ p ∈ ps, p.FloatsExist
  room : ps.length * max 1 latency.toNat < 2 ^ 32

namespace Fits

theorem retireAll_take (h : Fits latency ps) (k : Nat) :
    (start latency).retireAll (ps.take k) = .ok (atNode latency ps k) :=
  retireAll_eq (fun p hp => h.floats p (List.mem_of_mem_take hp)) _

variable {k : Nat} {p : Pair}

theorem retired (h : Fits latency ps) (hp : ps[k]? = some p) :
    (atNode latency ps k).Retired p (atNode latency ps (k + 1)) := by
  rcases h.floats p (List.mem_of_getElem? hp) with ⟨hlo, hhi⟩
  rcases (atNode latency ps k).exists_retire_of_floats hlo hhi with ⟨t, ht⟩
  have hnext : atNode latency ps (k + 1) = t := by
    rw [← next_of_retire ht, atNode, List.take_add_one, hp, List.foldl_append]
    rfl
  rw [hnext]
  exact retired_of_retire ht

theorem lt_of_reads (h : Fits latency ps) (hp : ps[k]? = some p) {r : Register} (hr : p.ReadsFloat r) :
    r.toNat < vfCount :=
  hr.lt (h.floats p (List.mem_of_getElem? hp))

theorem room_succ (h : Fits latency ps) (hp : ps[k]? = some p) :
    (k + 1) * max 1 latency.toNat < 2 ^ 32 := by
  have hk : k < ps.length := (List.getElem?_eq_some_iff.1 hp).1
  exact Nat.lt_of_le_of_lt (Nat.mul_le_mul_right _ hk) h.room

end Fits

/-- What holds at node `k`: no time is beyond what its pairs can take, and a register is ready the
latency after its last writer. -/
structure Timed (latency : Cycle) (ps : List Pair) (k : Nat) : Prop where
  latency_eq : (atNode latency ps k).latency = latency
  bound : ∀ j ≤ k, (atNode latency ps j).time.toNat ≤ j * max 1 latency.toNat
  ready : ∀ r, r.toNat < vfCount →
    (∃ i, WrittenLast ps r k i ∧
      (atNode latency ps k).readyTime r = .ok (clampedAdd (atNode latency ps (i + 1)).time latency)) ∨
    ((∀ i p, i < k → ps[i]? = some p → ¬p.WritesFloat r) ∧ (atNode latency ps k).readyTime r = .ok 0)

namespace Timed

theorem zero (latency : Cycle) (ps : List Pair) : Timed latency ps 0 where
  latency_eq := rfl
  bound := by
    intro j hj
    rw [Nat.le_zero.1 hj]
    exact Nat.zero_le _
  ready := by
    intro r hr
    exact .inr ⟨by simp, Table.get_fill 0 hr⟩

variable {k : Nat} {p : Pair}

theorem ready_of_written (h : Timed latency ps k) {r : Register} {i : Nat} (hr : r.toNat < vfCount)
    (hi : WrittenLast ps r k i) : (atNode latency ps k).readyTime r =
      .ok (clampedAdd (atNode latency ps (i + 1)).time latency) := by
  rcases h.ready r hr with ⟨j, hj, hready⟩ | ⟨hnone, -⟩
  · rw [hi.unique hj, hready]
  · rcases hi.writes with ⟨p, hp, hw⟩
    exact absurd hw (hnone i p hi.before hp)

theorem toNat_ready (h : Timed latency ps k) (hfits : Fits latency ps) (hp : ps[k]? = some p) {i : Nat}
    (hi : i < k) : (clampedAdd (atNode latency ps (i + 1)).time latency).toNat =
      (atNode latency ps (i + 1)).time.toNat + latency.toNat := by
  have hroom := hfits.room_succ hp
  have hbound := h.bound (i + 1) (by omega)
  have hmul : (i + 1 + 1) * max 1 latency.toNat ≤ (k + 1) * max 1 latency.toNat :=
    Nat.mul_le_mul_right _ (by omega)
  rw [Nat.succ_mul] at hmul
  rw [toNat_clampedAdd]
  simp only [UInt32.size]
  omega

theorem toNat_next (h : Timed latency ps k) (hfits : Fits latency ps) (hp : ps[k]? = some p) :
    ((atNode latency ps k).time + 1).toNat = (atNode latency ps k).time.toNat + 1 := by
  have hroom := hfits.room_succ hp
  have hbound := h.bound k (Nat.le_refl k)
  rw [Nat.succ_mul] at hroom
  rw [UInt32.toNat_add, Nat.mod_eq_of_lt]
  · rfl
  · simp; omega

theorem time_le_of_edge (h : Timed latency ps k) (hfits : Fits latency ps) {j w : Nat}
    (hedge : Edge ps latency.toNat j (k + 1) w) :
    (atNode latency ps j).time.toNat + w ≤ (atNode latency ps (k + 1)).time.toNat := by
  cases hedge with
  | next hk =>
    have hp : ps[k]? = some (ps.get ⟨k, hk⟩) := List.getElem?_eq_getElem hk
    have hle := (hfits.retired hp).next_le
    rwa [h.toNat_next hfits hp] at hle
  | wait hp hr hi =>
    have hready := h.ready_of_written (hfits.lt_of_reads hp hr) hi
    have hle := (hfits.retired hp).ready_le _ _ hr hready
    rwa [h.toNat_ready hfits hp hi.before] at hle

theorem exists_edge (h : Timed latency ps k) (hfits : Fits latency ps) (hp : ps[k]? = some p) :
    ∃ j w, Edge ps latency.toNat j (k + 1) w ∧
      (atNode latency ps (k + 1)).time.toNat = (atNode latency ps j).time.toNat + w := by
  rcases (hfits.retired hp).time with htime | ⟨r, hr, hready⟩
  · rw [htime, h.toNat_next hfits hp]
    exact ⟨k, 1, .next (List.getElem?_eq_some_iff.1 hp).1, rfl⟩
  · rcases h.ready r (hfits.lt_of_reads hp hr) with ⟨i, hi, hwritten⟩ | ⟨-, hnone⟩
    · rw [hready, Except.ok.injEq] at hwritten
      refine ⟨i + 1, latency.toNat, .wait hp hr hi, ?_⟩
      rw [hwritten, h.toNat_ready hfits hp hi.before]
    · rw [hready, Except.ok.injEq] at hnone
      have hle := (hfits.retired hp).next_le
      rw [hnone, h.toNat_next hfits hp] at hle
      exact absurd hle (Nat.not_succ_le_zero _)

theorem succ (h : Timed latency ps k) (hfits : Fits latency ps) (hp : ps[k]? = some p) :
    Timed latency ps (k + 1) where
  latency_eq := by rw [(hfits.retired hp).latency, h.latency_eq]
  bound := by
    intro j hj
    rcases Nat.lt_or_eq_of_le hj with hj | rfl
    · exact h.bound j (Nat.lt_succ_iff.1 hj)
    · rcases h.exists_edge hfits hp with ⟨i, w, hedge, htime⟩
      have hbound := h.bound i (Nat.lt_succ_iff.1 hedge.lt)
      have hw := hedge.weight_le
      have hmul : (i + 1) * max 1 latency.toNat ≤ (k + 1) * max 1 latency.toNat :=
        Nat.mul_le_mul_right _ hedge.lt
      rw [Nat.succ_mul] at hmul
      omega
  ready := by
    intro r hr
    rw [(hfits.retired hp).ready, h.latency_eq]
    by_cases hw : p.WritesFloat r
    · exact .inl ⟨k, .self hp hw, by rw [if_pos hw]⟩
    · rw [if_neg hw]
      rcases h.ready r hr with ⟨i, hi, hready⟩ | ⟨hnone, hready⟩
      · exact .inl ⟨i, hi.succ hp hw, hready⟩
      · refine .inr ⟨?_, hready⟩
        intro i q hi hq
        rcases Nat.lt_succ_iff_lt_or_eq.1 hi with hi | rfl
        · exact hnone i q hi hq
        · rw [hp] at hq
          cases hq
          exact hw

end Timed

namespace Fits

theorem timed (h : Fits latency ps) {k : Nat} (hk : k ≤ ps.length) : Timed latency ps k := by
  induction k with
  | zero => exact .zero latency ps
  | succ k ih => exact (ih (by omega)).succ h (List.getElem?_eq_getElem hk)

theorem le_time_of_path (h : Fits latency ps) {k t : Nat} (hk : k ≤ ps.length)
    (hpath : Path ps latency.toNat k t) : t ≤ (atNode latency ps k).time.toNat := by
  induction hpath with
  | start => exact Nat.zero_le _
  | @along j k t w hpath hedge ih =>
    have hlt := hedge.lt
    cases k with
    | zero => omega
    | succ k =>
      have hle := (h.timed (by omega)).time_le_of_edge h hedge
      have hbefore := ih (by omega)
      omega

/-- Back along the edges that were waited for there is a path that takes all the time. -/
theorem path_time (h : Fits latency ps) {k : Nat} (hk : k ≤ ps.length) :
    Path ps latency.toNat k (atNode latency ps k).time.toNat := by
  induction k using Nat.strongRecOn with
  | ind k ih =>
    cases k with
    | zero => exact .start
    | succ k =>
      have hp := List.getElem?_eq_getElem hk
      rcases (h.timed (by omega)).exists_edge h hp with ⟨j, w, hedge, htime⟩
      have hlt := hedge.lt
      rw [htime]
      exact .along (ih j hlt (by omega)) hedge

end Fits

/-- After all the pairs the time is the greatest weight of a path to the last node. A register is ready
the latency after the pair that last wrote it, or at the end of the range if that comes first, and
at once if it was never written. -/
theorem time_is_longest_path (latency : Cycle) (ps : List Pair) (h : Fits latency ps) :
    ∃ s, (start latency).retireAll ps = .ok s ∧
      Path ps latency.toNat ps.length s.time.toNat ∧
      (∀ t, Path ps latency.toNat ps.length t → t ≤ s.time.toNat) ∧
      ∀ r, r.toNat < vfCount → ∃ v, s.readyTime r = .ok v ∧
        (∀ i, WrittenLast ps r ps.length i → ∃ u, (start latency).retireAll (ps.take (i + 1)) = .ok u ∧
          v.toNat = min (u.time.toNat + latency.toNat) (2 ^ 32 - 1)) ∧
        ((∀ p ∈ ps, ¬p.WritesFloat r) → v = 0) := by
  have hall := h.retireAll_take ps.length
  rw [List.take_length] at hall
  refine ⟨_, hall, h.path_time (Nat.le_refl _), fun t ht => h.le_time_of_path (Nat.le_refl _) ht, ?_⟩
  intro r hr
  rcases (h.timed (Nat.le_refl ps.length)).ready r hr with ⟨j, hj, hready⟩ | ⟨hnone, hready⟩
  · refine ⟨_, hready, ?_, ?_⟩
    · intro i hi
      rw [hi.unique hj]
      exact ⟨_, h.retireAll_take (j + 1), toNat_clampedAdd _ _⟩
    · intro hnone
      rcases hj.writes with ⟨p, hp, hw⟩
      exact absurd hw (hnone p (List.mem_of_getElem? hp))
  · refine ⟨0, hready, ?_, fun _ => rfl⟩
    intro i hi
    rcases hi.writes with ⟨p, hp, hw⟩
    exact absurd hw (hnone i p hi.before hp)

end Scoreboard

namespace Sample

def dependent : List Pair := [
  ⟨0, 0, 0, {}, { destF := 3 }⟩,
  ⟨8, 0, 0, {}, {}⟩,
  ⟨16, 0, 0, { srcF1 := 3, destF := 3 }, {}⟩,
  ⟨24, 0, 0, {}, { srcF0 := 3 }⟩]

theorem fits_dependent : Scoreboard.Fits 4 dependent where
  floats := by simp [dependent, Pair.FloatsExist, Effects.FloatsExist, vfCount]
  room := by decide

theorem dependent_takes_nine : ∃ s, (Scoreboard.start 4).retireAll dependent = .ok s ∧ s.time = 9 ∧
    Path dependent 4 4 9 ∧ ∀ t, Path dependent 4 4 t → t ≤ 9 := by
  rcases Scoreboard.time_is_longest_path 4 dependent fits_dependent with ⟨s, hs, hpath, hmax, -⟩
  have htime : s.time = 9 := by
    cases hs
    rfl
  rw [htime] at hpath hmax
  exact ⟨s, hs, htime, hpath, hmax⟩

def lone : List Pair := [⟨0, 0, 0, {}, { destF := 3 }⟩]

/-- With the greatest latency the result of a write would be ready at cycle 2^32, which is not a word. -/
theorem ready_time_cut_off : Scoreboard.Fits 0xFFFFFFFF lone ∧ WrittenLast lone 3 lone.length 0 ∧
    ∃ s v, (Scoreboard.start 0xFFFFFFFF).retireAll lone = .ok s ∧ s.time = 1 ∧
      s.readyTime 3 = .ok v ∧ v = 0xFFFFFFFF ∧
      v.toNat ≠ s.time.toNat + (0xFFFFFFFF : Cycle).toNat := by
  refine ⟨⟨?_, by decide⟩, .self rfl (by decide), _, _, rfl, rfl, rfl, rfl, by decide⟩
  simp [lone, Pair.FloatsExist, Effects.FloatsExist, vfCount]

end Sample

end DualIssue
