import DualIssue.Pair
import DualIssue.Proofs.Regions

/-!
What is emitted around the halves of a pair. Two fields may be bracketed: the float register that
the upper half writes and the lower half reads, and the integer register in which a branch sees an
old value. Both are kept somewhere, exchanged with what was kept while the lower half runs, and
brought back.
-/

set_option autoImplicit false

namespace DualIssue

namespace Code

def keep (kept : Field) : Option Field → Code
  | some f => move kept f
  | none => []

/-- Set the field aside and put what was kept in its place. -/
def swap (aside kept : Field) : Option Field → Code
  | some f => move aside f ++ move f kept
  | none => []

def restore (aside : Field) : Option Field → Code
  | some f => move f aside
  | none => []

theorem closesRegions_keep (kept : Field) (f : Option Field) : (keep kept f).ClosesRegions := by
  cases f with
  | none => exact closesRegions_nil
  | some f => exact closesRegions_move kept f

theorem closesRegions_swap (aside kept : Field) (f : Option Field) :
    (swap aside kept f).ClosesRegions := by
  cases f with
  | none => exact closesRegions_nil
  | some f => exact (closesRegions_move aside f).append (closesRegions_move f kept)

theorem closesRegions_restore (aside : Field) (f : Option Field) : (restore aside f).ClosesRegions := by
  cases f with
  | none => exact closesRegions_nil
  | some f => exact closesRegions_move f aside

theorem run_keep (kept : Field) (field : Option Field) (s : State) (hk : kept.Valid)
    (h : ∀ f ∈ field, f.Valid ∧ f.width = kept.width) :
    ∃ t, (keep kept field).run s = .ok t ∧ (∀ g, g ≠ kept → t.read g = s.read g) ∧
      ∀ f ∈ field, t.read kept = s.read f := by
  cases field with
  | none => exact ⟨s, rfl, by simp, by simp⟩
  | some f =>
    obtain ⟨hv, hw⟩ := h f rfl
    obtain ⟨t, ht, hr⟩ := run_move s hw.symm hk hv
    refine ⟨t, ht, ?_, ?_⟩
    · intro g hg
      simp [hr, hg]
    · rintro g ⟨⟩
      simp [hr]

theorem run_swap (aside kept : Field) (field : Option Field) (s : State) (ha : aside.Valid)
    (hk : kept.Valid) (hne : aside ≠ kept)
    (h : ∀ f ∈ field, f.Valid ∧ f.width = aside.width ∧ f.width = kept.width ∧ f ≠ aside) :
    ∃ t, (swap aside kept field).run s = .ok t ∧
      (∀ g, g ≠ aside → g ∉ field → t.read g = s.read g) ∧
      ∀ f ∈ field, t.read aside = s.read f ∧ t.read f = s.read kept := by
  cases field with
  | none => exact ⟨s, rfl, by simp, by simp⟩
  | some f =>
    obtain ⟨hv, hwa, hwk, hfa⟩ := h f rfl
    obtain ⟨t, ht, hr⟩ := run_move s hwa.symm ha hv
    obtain ⟨u, hu, hq⟩ := run_move t hwk hv hk
    refine ⟨u, ?_, ?_, ?_⟩
    · rw [swap, run_append ht, hu]
    · intro g hg hgf
      have hne : g ≠ f := by
        rintro rfl
        exact hgf rfl
      simp [hq, hr, hg, hne]
    · rintro g ⟨⟩
      simp [hq, hr, hne.symm, hfa.symm]

theorem run_restore (aside : Field) (field : Option Field) (s : State) (ha : aside.Valid)
    (h : ∀ f ∈ field, f.Valid ∧ f.width = aside.width) :
    ∃ t, (restore aside field).run s = .ok t ∧ (∀ g, g ∉ field → t.read g = s.read g) ∧
      ∀ f ∈ field, t.read f = s.read aside := by
  cases field with
  | none => exact ⟨s, rfl, by simp, by simp⟩
  | some f =>
    obtain ⟨hv, hw⟩ := h f rfl
    obtain ⟨t, ht, hr⟩ := run_move s hw hv ha
    refine ⟨t, ht, ?_, ?_⟩
    · intro g hg
      have hne : g ≠ f := by
        rintro rfl
        exact hg rfl
      simp [hr, hne]
    · rintro g ⟨⟩
      simp [hr]

section

variable {F S U : Option Register}

theorem run_keeps (c : State) (hF : ∀ r ∈ F, r.toNat < vfCount) (hS : ∀ r ∈ S, r.toNat < viCount) :
    ∃ d, (keep .vfPreUp (F.map .vf) ++ keep .savedInt (S.map .vi)).run c = .ok d ∧
      (∀ g, g ≠ .vfPreUp → g ≠ .savedInt → d.read g = c.read g) ∧
      (∀ r ∈ F, d.read .vfPreUp = c.read (.vf r)) ∧ (∀ r ∈ S, d.read .savedInt = c.read (.vi r)) ∧
      (S = none → d.read .savedInt = c.read .savedInt) := by
  obtain ⟨d, hd, hother, hkept⟩ := run_keep .vfPreUp (F.map .vf) c trivial
    (by simpa [Field.Valid, Field.width] using hF)
  obtain ⟨e, he, hother', hkept'⟩ := run_keep .savedInt (S.map .vi) d trivial
    (by simpa [Field.Valid, Field.width] using hS)
  refine ⟨e, by rw [run_append hd, he], ?_, ?_, ?_, ?_⟩
  · intro g h1 h2
    rw [hother' g h2, hother g h1]
  · intro r hr
    rw [hother' _ (by simp), hkept (.vf r) (by simpa using hr)]
  · intro r hr
    rw [hkept' (.vi r) (by simpa using hr), hother _ (by simp)]
  · rintro rfl
    cases he
    exact hother _ (by simp)

theorem run_swaps (c : State) (hF : ∀ r ∈ F, r.toNat < vfCount) (hU : ∀ r ∈ U, r.toNat < viCount) :
    ∃ d, (swap .vfUpRes .vfPreUp (F.map .vf) ++ swap .savedIntTemp .savedInt (U.map .vi)).run c = .ok d ∧
      (∀ g, g ≠ .vfUpRes → g ≠ .savedIntTemp → g ∉ F.map .vf → g ∉ U.map .vi → d.read g = c.read g) ∧
      (∀ r ∈ F, d.read .vfUpRes = c.read (.vf r) ∧ d.read (.vf r) = c.read .vfPreUp) ∧
      (∀ r ∈ U, d.read .savedIntTemp = c.read (.vi r) ∧ d.read (.vi r) = c.read .savedInt) := by
  obtain ⟨d, hd, hother, hswap⟩ := run_swap .vfUpRes .vfPreUp (F.map .vf) c trivial trivial (by simp)
    (by simpa [Field.Valid, Field.width] using hF)
  obtain ⟨e, he, hother', hswap'⟩ := run_swap .savedIntTemp .savedInt (U.map .vi) d trivial trivial
    (by simp) (by simpa [Field.Valid, Field.width] using hU)
  refine ⟨e, by rw [run_append hd, he], ?_, ?_, ?_⟩
  · intro g h1 h2 h3 h4
    rw [hother' g h2 h4, hother g h1 h3]
  · intro r hr
    rw [hother' _ (by simp) (by simp), hother' _ (by simp) (by simp)]
    exact hswap (.vf r) (by simpa using hr)
  · intro r hr
    obtain ⟨h1, h2⟩ := hswap' (.vi r) (by simpa using hr)
    rw [h1, h2, hother _ (by simp) (by simp), hother _ (by simp) (by simp)]
    exact ⟨rfl, rfl⟩

theorem run_restores (c : State) (hF : ∀ r ∈ F, r.toNat < vfCount) (hU : ∀ r ∈ U, r.toNat < viCount) :
    ∃ d, (restore .savedIntTemp (U.map .vi) ++ restore .vfUpRes (F.map .vf)).run c = .ok d ∧
      (∀ g, g ∉ F.map .vf → g ∉ U.map .vi → d.read g = c.read g) ∧
      (∀ r ∈ F, d.read (.vf r) = c.read .vfUpRes) ∧ (∀ r ∈ U, d.read (.vi r) = c.read .savedIntTemp) := by
  obtain ⟨d, hd, hother, hback⟩ := run_restore .savedIntTemp (U.map .vi) c trivial
    (by simpa [Field.Valid, Field.width] using hU)
  obtain ⟨e, he, hother', hback'⟩ := run_restore .vfUpRes (F.map .vf) d trivial
    (by simpa [Field.Valid, Field.width] using hF)
  refine ⟨e, by rw [run_append hd, he], ?_, ?_, ?_⟩
  · intro g h1 h2
    rw [hother' g h1, hother g h2]
  · intro r hr
    rw [hback' (.vf r) (by simpa using hr), hother _ (by simp)]
  · intro r hr
    rw [hother' _ (by simp), hback (.vi r) (by simpa using hr)]

end

end Code

namespace Snapshot

def savedAt (snapshot : Option Snapshot) (a : Address) : Option Register :=
  snapshot.bind fun n => if a = n.saveAt then some n.reg else none

/-- The register in which the lower half of the pair at `a` sees the saved value. -/
def usedAt (snapshot : Option Snapshot) (a : Address) : Option Register :=
  snapshot.bind fun n => if a = n.useAt then some n.reg else none

variable (snapshot : Option Snapshot) (a : Address)

theorem mem_savedAt {snapshot : Option Snapshot} {a : Address} {r : Register} :
    r ∈ savedAt snapshot a ↔ ∃ n ∈ snapshot, a = n.saveAt ∧ n.reg = r := by
  simp [savedAt, Option.bind_eq_some_iff]

theorem mem_usedAt {snapshot : Option Snapshot} {a : Address} {r : Register} :
    r ∈ usedAt snapshot a ↔ ∃ n ∈ snapshot, a = n.useAt ∧ n.reg = r := by
  simp [usedAt, Option.bind_eq_some_iff]

theorem save_eq : snapshot.elim [] (·.save a) = Code.keep .savedInt ((savedAt snapshot a).map .vi) := by
  cases snapshot with
  | none => rfl
  | some n => by_cases h : a = n.saveAt <;> simp [save, savedAt, Code.keep, h]

theorem swapIn_eq : snapshot.elim [] (·.swapIn a) =
    Code.swap .savedIntTemp .savedInt ((usedAt snapshot a).map .vi) := by
  cases snapshot with
  | none => rfl
  | some n => by_cases h : a = n.useAt <;> simp [swapIn, usedAt, Code.swap, h]

theorem swapOut_eq : snapshot.elim [] (·.swapOut a) =
    Code.restore .savedIntTemp ((usedAt snapshot a).map .vi) := by
  cases snapshot with
  | none => rfl
  | some n => by_cases h : a = n.useAt <;> simp [swapOut, usedAt, Code.restore, h]

end Snapshot

namespace Pair

theorem clash_eq_some_iff {p : Pair} {r : Register} : p.clash = some r ↔
    r = p.hi.destF ∧ r ≠ 0 ∧ (p.lo.srcF0 = r ∨ p.lo.srcF1 = r) := by
  simp only [clash]
  split
  · rename_i h
    constructor
    · rintro ⟨⟩
      exact ⟨rfl, h⟩
    · rintro ⟨rfl, -⟩
      rfl
  · rename_i h
    constructor
    · rintro ⟨⟩
    · rintro ⟨rfl, hr⟩
      exact absurd hr h

theorem checkWrites_eq_ok_iff {p : Pair} :
    p.checkWrites = .ok () ↔ p.hi.destF ≠ 0 → p.hi.destF ≠ p.lo.destF := by
  by_cases h : p.hi.destF ≠ 0 ∧ p.hi.destF = p.lo.destF <;> simp_all [checkWrites]

theorem check_eq_ok_iff {p : Pair} :
    p.check = .ok () ↔ p.lo.missing = none ∧ p.hi.missing = none := by
  cases h1 : p.lo.missing <;> cases h2 : p.hi.missing <;>
    simp [check, checkRegisters, h1, h2, bind, Except.bind]

theorem keepOld_eq (c : Option Register) : keepOld c = Code.keep .vfPreUp (c.map .vf) := by
  cases c <;> rfl

theorem showOld_eq (c : Option Register) : showOld c = Code.swap .vfUpRes .vfPreUp (c.map .vf) := by
  cases c <;> rfl

theorem showNew_eq (c : Option Register) : showNew c = Code.restore .vfUpRes (c.map .vf) := by
  cases c <;> rfl

theorem body_eq (isa : InstructionSet) (snapshot : Option Snapshot) (p : Pair) (t : Cycle) :
    p.body isa snapshot t =
      (Code.keep .vfPreUp (p.clash.map .vf) ++
        Code.keep .savedInt ((Snapshot.savedAt snapshot p.address).map .vi)) ++
      ((p.upperIssue t).code isa ++
      ((Code.swap .vfUpRes .vfPreUp (p.clash.map .vf) ++
        Code.swap .savedIntTemp .savedInt ((Snapshot.usedAt snapshot p.address).map .vi)) ++
      ((p.lowerIssue t).code isa ++
      (Code.restore .savedIntTemp ((Snapshot.usedAt snapshot p.address).map .vi) ++
        Code.restore .vfUpRes (p.clash.map .vf))))) := by
  simp only [body, keepOld_eq, showOld_eq, showNew_eq, Snapshot.save_eq, Snapshot.swapIn_eq,
    Snapshot.swapOut_eq, List.append_assoc]

theorem closesRegions_body {isa : InstructionSet} {p : Pair} {t : Cycle}
    (hu : ((p.upperIssue t).code isa).ClosesRegions) (hl : ((p.lowerIssue t).code isa).ClosesRegions)
    (snapshot : Option Snapshot) : (p.body isa snapshot t).ClosesRegions := by
  rw [body_eq]
  repeat' apply Code.ClosesRegions.append
  · exact Code.closesRegions_keep _ _
  · exact Code.closesRegions_keep _ _
  · exact hu
  · exact Code.closesRegions_swap _ _ _
  · exact Code.closesRegions_swap _ _ _
  · exact hl
  · exact Code.closesRegions_restore _ _
  · exact Code.closesRegions_restore _ _

end Pair

end DualIssue
