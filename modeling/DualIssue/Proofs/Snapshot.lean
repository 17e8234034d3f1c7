import DualIssue.Proofs.Compilation

set_option autoImplicit false

namespace DualIssue

namespace Block

variable {isa : InstructionSet} {m : Memory} {b : Block} {last : Address}

theorem EndsAt.short_iff (h : b.EndsAt last) :
    last - 4 < b.first + 8 ↔ last.toNat < b.first.toNat + 12 := by
  have ha := h.aligned
  have hf := b.first_aligned
  have hroom := h.room
  have hle := h.first_le
  rw [UInt32.lt_iff_toNat_lt, UInt32.toNat_add, UInt32.toNat_sub]
  simp; omega

theorem toNat_branch (hl : b.first.toNat + 12 ≤ last.toNat) : (last - 12).toNat = last.toNat - 12 := by
  rw [UInt32.toNat_sub_of_le _ _ (UInt32.le_iff_toNat_le.2 (by simp; omega))]
  rfl

theorem EndsAt.staleRead_of_short (h : b.EndsAt last) (hl : last.toNat < b.first.toNat + 12) :
    b.staleRead isa m last = .ok none := by
  simp [staleRead, h.short_iff, hl]

theorem EndsAt.staleRead_eq (h : b.EndsAt last) (hl : b.first.toNat + 12 ≤ last.toNat) :
    b.staleRead isa m last = .ok
      (if isConditionalBranch (m.word (last - 12)) ∧ 8 ≤ last - 12 ∧
          (isa.effects (last - 12 - 8) (m.word (last - 12 - 8))).destI ≠ 0 ∧
          ¬(isa.effects (last - 12 - 8) (m.word (last - 12 - 8))).flagResult ∧
          (isa.effects (last - 12) (m.word (last - 12))).readsInt
            (isa.effects (last - 12 - 8) (m.word (last - 12 - 8))).destI then
        some (last - 12, (isa.effects (last - 12 - 8) (m.word (last - 12 - 8))).destI)
      else none) := by
  have ha := h.aligned
  have hb := toNat_branch hl
  have h4 : (last - 12).toNat % 4 = 0 := by omega
  have hn : ¬last.toNat < b.first.toNat + 12 := by omega
  simp [staleRead, h.short_iff, hn, Memory.fetch, h4, bind, Except.bind]

theorem EndsAt.staleRead_eq_some_iff (h : b.EndsAt last) {branch : Address} {r : Register} :
    b.staleRead isa m last = .ok (some (branch, r)) ↔
      b.first.toNat + 12 ≤ last.toNat ∧ branch = last - 12 ∧
      r = (isa.effects (branch - 8) (m.word (branch - 8))).destI ∧
      isConditionalBranch (m.word branch) = true ∧ 8 ≤ branch ∧ r ≠ 0 ∧
      (isa.effects (branch - 8) (m.word (branch - 8))).flagResult = false ∧
      (isa.effects branch (m.word branch)).readsInt r = true := by
  by_cases hl : last.toNat < b.first.toNat + 12
  · simp only [h.staleRead_of_short hl, Except.ok.injEq, reduceCtorEq, false_iff]
    omega
  · have hl : b.first.toNat + 12 ≤ last.toNat := by omega
    rw [h.staleRead_eq hl, Except.ok.injEq]
    split
    · rename_i hc
      constructor
      · rintro ⟨⟩
        simpa [hl] using hc
      · rintro ⟨-, rfl, rfl, -⟩
        rfl
    · rename_i hc
      simp only [reduceCtorEq, false_iff]
      rintro ⟨-, rfl, rfl, hall⟩
      exact hc (by simpa using hall)

theorem EndsAt.staleRead_isOk (h : b.EndsAt last) (isa : InstructionSet) (m : Memory) :
    ∃ stale, b.staleRead isa m last = .ok stale := by
  by_cases hl : last.toNat < b.first.toNat + 12
  · exact ⟨none, h.staleRead_of_short hl⟩
  · exact ⟨_, h.staleRead_eq (by omega)⟩

/-- The branch that goes back in a counting loop is the one before the delay slot. If that one is
conditional the test for a counting loop refuses nothing. -/
theorem EndsAt.isCountingLoop_decided (h : b.EndsAt last) (hl : b.first.toNat + 12 ≤ last.toNat)
    (hbranch : isConditionalBranch (m.word (last - 12)) = true) (r : Register) :
    ∃ loop, b.isCountingLoop isa m last r = .ok loop ∧ (loop = true ↔ (b.addresses last).length = 5 ∧
      (∀ a ∈ [b.first, b.first + 8, b.first + 16], (isa.effects a (m.word a)).destI = r) ∧
      isa.target (last - 12) (m.word (last - 12)) = b.first) := by
  have hlength : (last - b.first) / 8 = 4 ↔ (b.addresses last).length = 5 := by
    rw [b.length_addresses, ← UInt32.toNat_inj, UInt32.toNat_div]
    simp
  unfold isCountingLoop
  by_cases h5 : (b.addresses last).length = 5
  · have hsame : b.first + 24 = last - 12 := by
      have hb := toNat_branch hl
      have ha := h.aligned
      have hf := b.first_aligned
      have hlt := last.toNat_lt
      have hn := h5
      rw [h.length_addresses] at hn
      apply UInt32.toNat_inj.1
      rw [UInt32.toNat_add, hb]
      simp; omega
    simp only [hlength.2 h5, hsame, hbranch, ne_eq, not_true_eq_false, if_false, if_true]
    split
    · rename_i hany
      refine ⟨false, rfl, ?_⟩
      simp at hany ⊢
      grind
    · rename_i hall
      refine ⟨_, rfl, ?_⟩
      simp at hall ⊢
      simp [h5, hall]
  · exact ⟨false, by simp [hlength, h5], by simp [h5]⟩

theorem EndsAt.exists_branchDelay (h : b.EndsAt last) (isa : InstructionSet) (m : Memory) :
    ∃ delay, b.branchDelay isa m last = .ok delay := by
  rcases h.staleRead_isOk isa m with ⟨stale, hs⟩
  have hread : (b.staleRead isa m last).mapError Stop.fault = .ok stale := mapError_eq_ok.2 hs
  cases stale with
  | none => exact ⟨.absent, bind_eq_ok.2 ⟨_, hread, rfl⟩⟩
  | some x =>
    rcases x with ⟨branch, r⟩
    rcases h.staleRead_eq_some_iff.1 hs with ⟨hl, rfl, -, hbranch, -⟩
    rcases h.isCountingLoop_decided hl hbranch r with ⟨loop, hloop, -⟩
    have htest : (b.isCountingLoop isa m last r).mapError Stop.refused = .ok loop := mapError_eq_ok.2 hloop
    cases loop with
    | true => exact ⟨.waived _ r, bind_eq_ok.2 ⟨_, hread, bind_eq_ok.2 ⟨_, htest, rfl⟩⟩⟩
    | false => exact ⟨.needed _, bind_eq_ok.2 ⟨_, hread, bind_eq_ok.2 ⟨_, htest, rfl⟩⟩⟩

theorem EndsAt.exists_delayOf (h : b.EndsAt last) (isa : InstructionSet) (m : Memory) (options : Options) :
    ∃ delay, options.delayOf isa m b last = .ok delay := by
  unfold Options.delayOf
  cases options.branchDelay with
  | true => exact h.exists_branchDelay isa m
  | false => exact ⟨.absent, rfl⟩

theorem snapshot_iff_of_branchDelay {delay : BranchDelay} (hd : b.branchDelay isa m last = .ok delay)
    {n : Snapshot} : delay.snapshot? = some n ↔ ∃ branch r,
      b.staleRead isa m last = .ok (some (branch, r)) ∧ b.isCountingLoop isa m last r = .ok false ∧
      n = ⟨r, max (clampedSub branch (8 * snapshotDistance)) b.first, branch⟩ := by
  simp only [branchDelay, bind_eq_ok, mapError_eq_ok] at hd
  rcases hd with ⟨stale, hs, hd⟩
  rw [hs]
  cases stale with
  | none =>
    cases hd
    simp [BranchDelay.snapshot?]
  | some x =>
    rcases x with ⟨branch, r⟩
    rcases bind_eq_ok.1 hd with ⟨loop, hloop, hd⟩
    rw [mapError_eq_ok] at hloop
    cases loop with
    | true =>
      cases hd
      constructor
      · rintro ⟨⟩
      · rintro ⟨_, _, ⟨⟩, hfalse, -⟩
        rw [hloop] at hfalse
        cases hfalse
    | false =>
      cases hd
      constructor
      · rintro ⟨⟩
        exact ⟨branch, r, rfl, hloop, rfl⟩
      · rintro ⟨_, _, ⟨⟩, -, rfl⟩
        rfl

theorem EndsAt.of_branchDelay (h : b.EndsAt last) {delay : BranchDelay} {n : Snapshot}
    (hd : b.branchDelay isa m last = .ok delay) (hn : delay.snapshot? = some n) :
    b.first.toNat ≤ n.useAt.toNat ∧ n.useAt.toNat + 12 = last.toNat ∧
      n.saveAt.toNat = max (n.useAt.toNat - 32) b.first.toNat ∧
      (isa.effects n.useAt (m.word n.useAt)).readsInt n.reg = true := by
  rcases (snapshot_iff_of_branchDelay hd).1 hn with ⟨branch, r, hs, -, rfl⟩
  rcases h.staleRead_eq_some_iff.1 hs with ⟨hl, rfl, -, -, -, -, -, hr⟩
  have hb := toNat_branch hl
  simp only [hb]
  refine ⟨by omega, by omega, ?_, hr⟩
  rw [toNat_max, toNat_clampedSub, hb]
  rfl

end Block

/-- It can always be decided whether a block needs a snapshot. It does exactly if it has two pairs or
more, the branch before its last pair is conditional and reads the register that the lower instruction
before it computes, which may stand before the block, and the block is no counting loop. The register
is then saved four pairs before the branch, or at the start of the block if that comes later; both
places are among the pairs of the block. -/
theorem snapshot_decided (isa : InstructionSet) (m : Memory) (b : Block) :
    let last := (b.extent isa m).last
    let n := (last.toNat - b.first.toNat) / 8 + 1
    let branch := last - 12
    let prior := isa.effects (branch - 8) (m.word (branch - 8))
    ∃ delay, b.branchDelay isa m last = .ok delay ∧
      ((∃ s, delay.snapshot? = some s) ↔
        2 ≤ n ∧ isConditionalBranch (m.word branch) = true ∧ 8 ≤ branch ∧
        prior.destI ≠ 0 ∧ prior.flagResult = false ∧
        (isa.effects branch (m.word branch)).readsInt prior.destI = true ∧
        ¬(n = 5 ∧ (∀ a ∈ [b.first, b.first + 8, b.first + 16],
          (isa.effects a (m.word a)).destI = prior.destI) ∧ isa.target branch (m.word branch) = b.first)) ∧
      ∀ s, delay.snapshot? = some s →
        s.reg = prior.destI ∧ s.useAt = branch ∧ s.useAt.toNat + 12 = last.toNat ∧
        s.saveAt.toNat = max b.first.toNat (s.useAt.toNat - 32) ∧
        b.first ≤ s.saveAt ∧ s.saveAt ≤ s.useAt ∧ s.useAt < last ∧
        (∀ a ∈ [s.saveAt, s.useAt], a.toNat % 8 = 0 ∧ a ∈ b.addresses last) ∧
        s.useAt.toNat ≤ s.saveAt.toNat + 8 * 4 ∧
        (s.useAt.toNat < s.saveAt.toNat + 8 * 4 → s.saveAt = b.first) := by
  intro last n branch prior
  have hend : b.EndsAt last := b.endsAt_extent isa m
  have hf := b.first_aligned
  have ha := hend.aligned
  have hlong : 2 ≤ n ↔ b.first.toNat + 12 ≤ last.toNat := by omega
  rcases hend.exists_branchDelay isa m with ⟨delay, hd⟩
  have hiff := fun s => Block.snapshot_iff_of_branchDelay hd (n := s)
  refine ⟨delay, hd, ?_, ?_⟩
  · constructor
    · rintro ⟨s, hs⟩
      rcases (hiff s).1 hs with ⟨_, _, hstale, hloop, -⟩
      rcases hend.staleRead_eq_some_iff.1 hstale with ⟨hl, rfl, rfl, hbranch, h8, h0, hflag, hreads⟩
      rcases hend.isCountingLoop_decided hl hbranch prior.destI with ⟨loop, hloop', htrue⟩
      rw [hloop'] at hloop
      cases hloop
      rw [hend.length_addresses] at htrue
      exact ⟨hlong.2 hl, hbranch, h8, h0, hflag, hreads, fun hcounts => nomatch htrue.2 hcounts⟩
    · rintro ⟨hn, hbranch, h8, h0, hflag, hreads, hcounts⟩
      have hl := hlong.1 hn
      rcases hend.isCountingLoop_decided hl hbranch prior.destI with ⟨loop, hloop, htrue⟩
      rw [hend.length_addresses] at htrue
      have hstale := hend.staleRead_eq_some_iff.2 ⟨hl, rfl, rfl, hbranch, h8, h0, hflag, hreads⟩
      have hfalse : loop = false := Bool.eq_false_iff.2 fun h => hcounts (htrue.1 h)
      exact ⟨_, (hiff _).2 ⟨branch, prior.destI, hstale, hfalse ▸ hloop, rfl⟩⟩
  · intro s hs
    rcases hend.of_branchDelay hd hs with ⟨hfirst, huse, hsave, -⟩
    have hfields : s.reg = prior.destI ∧ s.useAt = branch := by
      rcases (hiff s).1 hs with ⟨_, _, hstale, -, rfl⟩
      rcases hend.staleRead_eq_some_iff.1 hstale with ⟨-, rfl, rfl, -⟩
      exact ⟨rfl, rfl⟩
    have hvisited : ∀ a ∈ [s.saveAt, s.useAt], a.toNat % 8 = 0 ∧ a ∈ b.addresses last := by
      intro a hmem
      rw [hend.mem_addresses_iff]
      rcases List.mem_cons.1 hmem with rfl | hmem
      · omega
      · rw [List.mem_singleton.1 hmem]
        omega
    refine ⟨hfields.1, hfields.2, huse, by omega, ?_, ?_, ?_, hvisited, by omega, ?_⟩
    · exact UInt32.le_iff_toNat_le.2 (by omega)
    · exact UInt32.le_iff_toNat_le.2 (by omega)
    · exact UInt32.lt_iff_toNat_lt.2 (by omega)
    · intro hnear
      exact UInt32.toNat_inj.1 (by omega)

theorem branchDelay_of_compile {options : Options} {isa : InstructionSet} {m : Memory} {b : Block}
    {done : Compiled} (h : compile options isa m b = .ok done) {n : Snapshot}
    (hn : done.report.snapshot = some n) : options.branchDelay = true ∧
      ∃ delay, b.branchDelay isa m (b.extent isa m).last = .ok delay ∧ delay.snapshot? = some n := by
  obtain ⟨delay, p, draft, hd, -, -, rfl⟩ := compile_eq_ok_iff.1 h
  cases ho : options.branchDelay with
  | false =>
    simp only [Options.delayOf, ho, Bool.false_eq_true, if_false, Except.ok.injEq] at hd
    subst hd
    cases hn
  | true =>
    simp only [Options.delayOf, ho, if_true] at hd
    exact ⟨rfl, delay, hd, hn⟩

/-- The register of a snapshot exists, even if the instruction that wrote it stands before the block:
the branch that reads it was checked. -/
theorem compile_snapshot {options : Options} {isa : InstructionSet} {m : Memory} {b : Block}
    {done : Compiled} (h : compile options isa m b = .ok done) {n : Snapshot}
    (hn : done.report.snapshot = some n) :
    n.reg.toNat < viCount ∧ b.first.toNat ≤ n.useAt.toNat ∧
      n.useAt.toNat + 12 = (b.extent isa m).last.toNat ∧
      n.saveAt.toNat = max (n.useAt.toNat - 32) b.first.toNat := by
  have hend := b.endsAt_extent isa m
  have ha := hend.aligned
  obtain ⟨-, delay, hd, hs⟩ := branchDelay_of_compile h hn
  obtain ⟨h1, h2, h3, hreads⟩ := hend.of_branchDelay hd hs
  obtain ⟨_, p, _, -, hp, -, -⟩ := compile_eq_ok_iff.1 h
  refine ⟨?_, h1, h2, h3⟩
  have hmem : n.useAt ∈ b.addresses (b.extent isa m).last := hend.mem_addresses_iff.2 (by omega)
  obtain ⟨_, _, _, adv, -⟩ := Progress.advance_of_run hp n.useAt hmem
  have hmissing := (Pair.check_eq_ok_iff.1 adv.check).1
  obtain ⟨-, hi0, hi1, -⟩ := (Effects.missing_eq_none_iff _).1 hmissing
  simp only [Effects.readsInt, Bool.and_eq_true, Bool.or_eq_true, beq_iff_eq] at hreads
  obtain ⟨-, hr | hr⟩ := hreads
  · exact hr ▸ hi0
  · exact hr ▸ hi1

end DualIssue
