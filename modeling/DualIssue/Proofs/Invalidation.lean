import DualIssue.Proofs.Coherence
import Mathlib.Data.List.Nodup

set_option autoImplicit false

namespace DualIssue

namespace Report

def Meets (r : Report) (first stop : Address) : Prop :=
  ∃ x : Nat, first.toNat ≤ x ∧ x < stop.toNat ∧ r.firstRead.toNat ≤ x ∧ x < r.extent.last.toNat + 4

/-- The range has no byte, and what was read begins before its stop and goes beyond its start. -/
def Straddles (r : Report) (first stop : Address) : Prop :=
  stop.toNat ≤ first.toNat ∧ r.firstRead.toNat < stop.toNat ∧ first.toNat < r.extent.last.toNat + 4

/-- What was read is a range that ends below the end of memory. -/
structure Ranged (r : Report) : Prop where
  first_le : r.firstRead.toNat ≤ r.extent.last.toNat
  room : r.extent.last.toNat + 4 ≤ 0x100000000

theorem meets_iff {r : Report} {first stop : Address} : r.Meets first stop ↔
    max first.toNat r.firstRead.toNat < min stop.toNat (r.extent.last.toNat + 4) := by
  constructor
  · rintro ⟨x, h1, h2, h3, h4⟩
    omega
  · intro h
    exact ⟨max first.toNat r.firstRead.toNat, by omega, by omega, by omega, by omega⟩

instance (r : Report) (first stop : Address) : Decidable (r.Meets first stop) :=
  decidable_of_iff _ meets_iff.symm

instance (r : Report) (first stop : Address) : Decidable (r.Straddles first stop) :=
  inferInstanceAs (Decidable (_ ∧ _))

namespace Ranged

variable {r : Report} {first stop : Address}

theorem overlaps_iff_meets_or_straddles (h : r.Ranged) :
    r.overlaps first stop = true ↔ r.Meets first stop ∨ r.Straddles first stop := by
  have hfirst := h.first_le
  rw [overlaps_iff h.room, meets_iff, Straddles]
  omega

theorem overlaps_split (h : r.Ranged) {mid : Address} (h1 : first.toNat ≤ mid.toNat)
    (h2 : mid.toNat ≤ stop.toNat) :
    r.overlaps first stop = (r.overlaps first mid || r.overlaps mid stop) := by
  have hfirst := h.first_le
  rw [Bool.eq_iff_iff, Bool.or_eq_true, overlaps_iff h.room, overlaps_iff h.room, overlaps_iff h.room]
  omega

end Ranged

end Report

theorem ranged_of_compile {options : Options} {isa : InstructionSet} {m : Memory} {b : Block}
    {done : Compiled} (h : compile options isa m b = .ok done) : done.report.Ranged := by
  have hend := b.endsAt_extent isa m
  have hfirst := hend.firstRead_le options
  have hle := hend.first_le
  have hroom := hend.room
  rcases compile_range h with ⟨h1, h2⟩
  constructor
  · rw [h1, h2]
    exact Nat.le_trans hfirst hle
  · rw [h2]
    omega

namespace Cache

/-- Whatever may become of a cache. Each block that is asked for comes with its own memory and
instruction set. -/
inductive Reachable : Cache → Prop
  | new {c : Cache} {options : Options} {capacity : Nat} (h : Cache.new options capacity = .ok c) :
    Reachable c
  | get {c : Cache} (h : Reachable c) (isa : InstructionSet) (m : Memory) (b : Block) :
    Reachable (c.get isa m b).2
  | invalidate {c : Cache} (h : Reachable c) (first stop : Address) : Reachable (c.invalidate first stop)
  | clear {c : Cache} (h : Reachable c) : Reachable c.clear

def forget (c : Cache) (b : Block) : Cache := { c with entries := c.entries.eraseP (·.block == b) }

structure Tidy (c : Cache) : Prop where
  ranged : ∀ e ∈ c.entries, e.report.Ranged
  distinct : (c.entries.map (·.block)).Nodup

theorem sublist_makeRoom (c : Cache) : c.makeRoom.entries.Sublist c.entries := by
  unfold makeRoom
  split
  · exact List.tail_sublist _
  · exact List.Sublist.refl _

theorem get_cases (c : Cache) (isa : InstructionSet) (m : Memory) (b : Block) :
    (c.get isa m b).2.entries.Sublist c.entries ∨
      ∃ done code, compile c.options isa m b = .ok done ∧ (∀ e ∈ c.entries, e.block ≠ b) ∧
        (c.get isa m b).2.entries = c.makeRoom.entries ++ [⟨b, done.report, code⟩] := by
  unfold get
  split
  · exact .inl (List.Sublist.refl _)
  · rename_i hnone
    split
    · exact .inl (List.Sublist.refl _)
    · rename_i done hdone
      split
      · exact .inl (sublist_makeRoom c)
      · rename_i code hcode
        refine .inr ⟨done, code, hdone, ?_, rfl⟩
        simpa [find?] using hnone

namespace Tidy

variable {c d : Cache}

theorem shrink (h : c.Tidy) (hs : d.entries.Sublist c.entries) : d.Tidy where
  ranged e he := h.ranged e (hs.subset he)
  distinct := h.distinct.sublist (hs.map _)

theorem get (h : c.Tidy) (isa : InstructionSet) (m : Memory) (b : Block) : (c.get isa m b).2.Tidy := by
  rcases c.get_cases isa m b with hs | ⟨done, code, hdone, hb, hentries⟩
  · exact h.shrink hs
  · have hroom : c.makeRoom.Tidy := h.shrink (sublist_makeRoom c)
    constructor
    · intro e he
      rw [hentries, List.mem_append, List.mem_singleton] at he
      rcases he with he | rfl
      · exact hroom.ranged e he
      · exact ranged_of_compile hdone
    · rw [hentries, List.map_append, List.nodup_append]
      refine ⟨hroom.distinct, by simp, ?_⟩
      intro x hx y hy
      rcases List.mem_map.1 hx with ⟨e, he, rfl⟩
      rw [List.map_singleton, List.mem_singleton] at hy
      subst hy
      exact hb e (mem_makeRoom he)

end Tidy

theorem Reachable.tidy {c : Cache} (h : c.Reachable) : c.Tidy := by
  induction h with
  | new hc =>
    unfold Cache.new at hc
    split at hc
    · cases hc
      exact ⟨by simp, by simp⟩
    · cases hc
  | get _ isa m b ih => exact ih.get isa m b
  | invalidate _ first stop ih => exact ih.shrink List.filter_sublist
  | clear _ ih => exact ih.shrink (List.nil_sublist _)

theorem Tidy.forget_eq {c : Cache} (h : c.Tidy) (b : Block) :
    c.forget b = { c with entries := c.entries.filter (·.block ≠ b) } := by
  have herase : ∀ es : List Entry, (es.map (·.block)).Nodup →
      es.eraseP (·.block == b) = es.filter (·.block ≠ b) := by
    intro es hes
    induction es with
    | nil => rfl
    | cons e es ih =>
      rw [List.map_cons, List.nodup_cons] at hes
      by_cases hb : e.block = b
      · have hrest : ∀ x ∈ es, x.block ≠ b := by
          intro x hx hxb
          exact hes.1 (List.mem_map.2 ⟨x, hx, hxb.trans hb.symm⟩)
        have hall : es.filter (·.block ≠ b) = es := List.filter_eq_self.2 (by simpa using hrest)
        simpa [hb] using hall.symm
      · simpa [hb] using ih hes.2
  rw [forget, herase _ h.distinct]

theorem Tidy.foldl_forget {c : Cache} (h : c.Tidy) (bs : List Block) :
    bs.foldl forget c = { c with entries := c.entries.filter (·.block ∉ bs) } := by
  induction bs generalizing c with
  | nil => simp
  | cons b bs ih =>
    have hshrink : (c.forget b).Tidy := h.shrink List.eraseP_sublist
    rw [List.foldl_cons, ih hshrink, h.forget_eq]
    simp only [List.filter_filter, List.mem_cons, not_or]
    congr 2
    funext e
    simp [Bool.and_comm]

/-- Looking for the stale blocks first and taking them out one by one comes to the same. -/
theorem Tidy.invalidate_eq {c : Cache} (h : c.Tidy) (first stop : Address) :
    c.invalidate first stop = (c.stale first stop).foldl forget c := by
  rw [h.foldl_forget, invalidate]
  congr 1
  apply List.filter_congr
  intro e he
  have hiff : e.block ∈ c.stale first stop ↔ e.report.overlaps first stop = true := by
    constructor
    · intro hmem
      rcases List.mem_map.1 hmem with ⟨x, hx, hb⟩
      rw [List.mem_filter] at hx
      rw [← List.inj_on_of_nodup_map h.distinct hx.1 he hb]
      exact hx.2
    · intro ho
      exact List.mem_map.2 ⟨e, List.mem_filter.2 ⟨he, ho⟩, rfl⟩
  simp [hiff]

variable {c : Cache} {first stop : Address}

theorem Tidy.invalidate_eq_filter (h : c.Tidy) (first stop : Address) :
    c.invalidate first stop = { c with entries := c.entries.filter fun e =>
      ¬(e.report.Meets first stop ∨ e.report.Straddles first stop) } := by
  unfold invalidate
  congr 1
  apply List.filter_congr
  intro e he
  rw [Bool.eq_iff_iff]
  simp [← (h.ranged e he).overlaps_iff_meets_or_straddles]

theorem Tidy.invalidate_exact_iff (h : c.Tidy) (first stop : Address) :
    c.invalidate first stop = { c with entries := c.entries.filter fun e => ¬e.report.Meets first stop } ↔
      first < stop ∨ ∀ e ∈ c.entries, ¬e.report.Straddles first stop := by
  rw [h.invalidate_eq_filter]
  constructor
  · intro heq
    by_cases hlt : first < stop
    · exact .inl hlt
    · refine .inr fun e he hs => ?_
      have hnone : ¬e.report.Meets first stop := by
        have hempty := hs.1
        rw [Report.meets_iff]
        omega
      have hmem : e ∈ c.entries.filter fun e => ¬e.report.Meets first stop :=
        List.mem_filter.2 ⟨he, by simpa using hnone⟩
      have hentries := congrArg Cache.entries heq
      dsimp only at hentries
      rw [← hentries, List.mem_filter] at hmem
      simp [hs] at hmem
  · intro hcond
    congr 1
    apply List.filter_congr
    intro e he
    have hs : ¬e.report.Straddles first stop := by
      rcases hcond with hlt | hall
      · intro hs
        exact Nat.not_lt_of_le hs.1 hlt
      · exact hall e he
    simp [hs]

theorem Tidy.invalidate_invalidate (h : c.Tidy) {a b d : Address} (hab : a ≤ b) (hbd : b ≤ d) :
    (c.invalidate a b).invalidate b d = c.invalidate a d := by
  unfold invalidate
  congr 1
  rw [List.filter_filter]
  apply List.filter_congr
  intro e he
  rw [(h.ranged e he).overlaps_split hab hbd]
  cases e.report.overlaps a b <;> cases e.report.overlaps b d <;> rfl

/-- An invalidation keeps the other entries as they are and in their order. It forgets the blocks that
were read from a byte of the range and, for a range without bytes, those that straddle it, one after the
other. So it forgets no more than it should exactly if the range has a byte or nothing straddles it.
Announcing two ranges that join is announcing the whole. -/
theorem invalidate_forgets_touched (h : c.Reachable) (first stop : Address) :
    c.invalidate first stop = { c with entries := c.entries.filter fun e =>
      ¬(e.report.Meets first stop ∨ e.report.Straddles first stop) } ∧
    c.invalidate first stop = (c.stale first stop).foldl forget c ∧
    (c.invalidate first stop = { c with entries := c.entries.filter fun e => ¬e.report.Meets first stop } ↔
      first < stop ∨ ∀ e ∈ c.entries, ¬e.report.Straddles first stop) ∧
    ∀ a b d : Address, a ≤ b → b ≤ d → (c.invalidate a b).invalidate b d = c.invalidate a d :=
  ⟨h.tidy.invalidate_eq_filter first stop, h.tidy.invalidate_eq first stop,
    h.tidy.invalidate_exact_iff first stop, fun _ _ _ => h.tidy.invalidate_invalidate⟩

def twoBlocks : Cache :=
  let c : Cache := ⟨{}, 2, Nat.two_pos, []⟩
  let c := (c.get literals ⟨fun _ => 0⟩ .zero).2
  (c.get literals ⟨fun _ => 0⟩ .eight).2

theorem reachable_twoBlocks : twoBlocks.Reachable := by
  have hnew : Cache.new {} 2 = .ok ⟨{}, 2, Nat.two_pos, []⟩ := rfl
  exact ((Reachable.new hnew).get literals _ .zero).get literals _ .eight

theorem nothing_forgotten_between : twoBlocks.entries.map (·.block) = [.zero, .eight] ∧
    (∀ e ∈ twoBlocks.entries, ¬e.report.Straddles 8 8) ∧
    twoBlocks.invalidate 8 8 =
      { twoBlocks with entries := twoBlocks.entries.filter fun e => ¬e.report.Meets 8 8 } := by
  have hnone : ∀ e ∈ twoBlocks.entries, ¬e.report.Straddles 8 8 := by decide
  exact ⟨rfl, hnone, (invalidate_forgets_touched reachable_twoBlocks 8 8).2.2.1.2 (.inr hnone)⟩

/-- A range without bytes in the middle of a block makes the block forgotten. -/
theorem forgotten_for_no_byte : twoBlocks.Reachable ∧ twoBlocks.contains .zero = true ∧
    (∀ e ∈ twoBlocks.entries, ¬e.report.Meets 4 4) ∧ (twoBlocks.invalidate 4 4).contains .zero = false :=
  ⟨reachable_twoBlocks, rfl, by decide, rfl⟩

end Cache

end DualIssue
