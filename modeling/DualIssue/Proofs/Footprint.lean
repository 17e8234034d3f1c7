import DualIssue.Proofs.Snapshot

set_option autoImplicit false

namespace DualIssue

def Memory.AgreeOn (first last : Address) (m₁ m₂ : Memory) : Prop :=
  ∀ a : Address, a.toNat % 4 = 0 → first.toNat ≤ a.toNat → a.toNat < last.toNat + 4 →
    m₁.word a = m₂.word a

/-- The first address that the compiler reads for a block that really ends at `last`. -/
def Options.firstRead (options : Options) (b : Block) (last : Address) : Address :=
  if options.branchDelay then b.firstRead last else b.first

namespace Block.EndsAt

variable {isa : InstructionSet} {m₁ m₂ : Memory} {b : Block} {last : Address} {options : Options}

theorem toNat_firstRead (h : b.EndsAt last) : (options.firstRead b last).toNat =
    if options.branchDelay ∧ last.toNat = b.first.toNat + 12 ∧ 8 ≤ b.first.toNat then b.first.toNat - 8
    else b.first.toNat := by
  have ha := h.aligned
  have hf := b.first_aligned
  have hle := h.first_le
  cases ho : options.branchDelay with
  | false => simp [Options.firstRead, ho]
  | true =>
    by_cases hl : last.toNat < b.first.toNat + 12
    · have hn : last.toNat ≠ b.first.toNat + 12 := by omega
      simp [Options.firstRead, ho, Block.firstRead, h.short_iff, hl, hn]
    · have h4 : (last - 4).toNat = last.toNat - 4 :=
        UInt32.toNat_sub_of_le _ _ (UInt32.le_iff_toNat_le.2 (by simp; omega))
      simp only [Options.firstRead, ho, Block.firstRead, h.short_iff, hl, if_true, if_false, toNat_min,
        toNat_clampedSub, h4, true_and]
      simp only [UInt32.reduceToNat]
      split <;> omega

theorem firstRead_le (h : b.EndsAt last) (options : Options) :
    (options.firstRead b last).toNat ≤ b.first.toNat := by
  rw [h.toNat_firstRead]
  split <;> omega

theorem agreeOn_block (h : b.EndsAt last) (hm : m₁.AgreeOn (options.firstRead b last) last m₂) :
    m₁.AgreeOn b.first last m₂ := by
  intro a h4 h1 h2
  exact hm a h4 (Nat.le_trans (h.firstRead_le options) h1) h2

theorem firstRead_aligned (h : b.EndsAt last) (options : Options) :
    (options.firstRead b last).toNat % 8 = 0 := by
  have hf := b.first_aligned
  rw [h.toNat_firstRead]
  split <;> omega

theorem staleRead_congr (h : b.EndsAt last) (ho : options.branchDelay = true)
    (hm : m₁.AgreeOn (options.firstRead b last) last m₂) :
    b.staleRead isa m₁ last = b.staleRead isa m₂ last := by
  have ha := h.aligned
  have hf := b.first_aligned
  by_cases hl : last.toNat < b.first.toNat + 12
  · rw [h.staleRead_of_short hl, h.staleRead_of_short hl]
  · have hl : b.first.toNat + 12 ≤ last.toNat := by omega
    have hb := toNat_branch hl
    have hbranch : m₁.word (last - 12) = m₂.word (last - 12) := by
      have hle := h.firstRead_le options
      exact hm _ (by omega) (by omega) (by omega)
    rw [h.staleRead_eq hl, h.staleRead_eq hl, hbranch]
    by_cases h8 : 8 ≤ last - 12
    · have hn : 8 ≤ (last - 12).toNat := h8
      have hp : (last - 12 - 8).toNat = (last - 12).toNat - 8 := UInt32.toNat_sub_of_le _ _ h8
      have hprior : m₁.word (last - 12 - 8) = m₂.word (last - 12 - 8) := by
        apply hm _ (by omega) _ (by omega)
        rw [h.toNat_firstRead]
        simp only [ho, true_and]
        split <;> omega
      rw [hprior]
    · simp [h8]

theorem isCountingLoop_congr (h : b.EndsAt last) (hm : m₁.AgreeOn b.first last m₂) (r : Register) :
    b.isCountingLoop isa m₁ last r = b.isCountingLoop isa m₂ last r := by
  have hf := b.first_aligned
  have hle := h.first_le
  have hroom := h.room
  by_cases hn : (last - b.first) / 8 ≠ 4
  · simp only [isCountingLoop, hn, if_true, ne_eq, not_false_eq_true]
  · have h4 : last.toNat - b.first.toNat ≥ 32 := by
      have hd := congrArg UInt32.toNat (Decidable.not_not.1 hn)
      rw [UInt32.toNat_div, h.toNat_sub_first] at hd
      simp at hd
      omega
    have hword : ∀ d : Address, d.toNat % 8 = 0 → d.toNat ≤ 24 →
        m₁.word (b.first + d) = m₂.word (b.first + d) := by
      intro d hd8 hd
      have hadd : (b.first + d).toNat = b.first.toNat + d.toNat := by
        rw [UInt32.toNat_add, Nat.mod_eq_of_lt (by omega)]
      exact hm _ (by omega) (by omega) (by omega)
    have h0 := hword 0 (by decide) (by decide)
    have h8 := hword 8 (by decide) (by decide)
    have h16 := hword 16 (by decide) (by decide)
    have h24 := hword 24 (by decide) (by decide)
    simp only [UInt32.add_zero] at h0
    have hcount : ([b.first, b.first + 8, b.first + 16].any fun a => (isa.effects a (m₁.word a)).destI != r) =
        [b.first, b.first + 8, b.first + 16].any fun a => (isa.effects a (m₂.word a)).destI != r := by
      simp only [List.any_cons, List.any_nil, h0, h8, h16]
    unfold isCountingLoop
    simp only [h24]
    rw [hcount]

theorem delayOf_congr (h : b.EndsAt last) (hm : m₁.AgreeOn (options.firstRead b last) last m₂) :
    options.delayOf isa m₁ b last = options.delayOf isa m₂ b last := by
  cases ho : options.branchDelay with
  | false => simp [Options.delayOf, ho]
  | true =>
    have hloop : ∀ r, b.isCountingLoop isa m₁ last r = b.isCountingLoop isa m₂ last r :=
      h.isCountingLoop_congr (h.agreeOn_block hm)
    simp only [Options.delayOf, ho, if_true, branchDelay, h.staleRead_congr ho hm, hloop]

theorem decode_congr (h : b.EndsAt last) (hm : m₁.AgreeOn b.first last m₂) {a : Address}
    (ha : a ∈ b.addresses last) : Pair.decode isa m₁ a = Pair.decode isa m₂ a := by
  have hl := h.aligned
  obtain ⟨h8, h1, h2⟩ := h.mem_addresses_iff.1 ha
  have hupper := toNat_add_four h8
  have hlo : m₁.word a = m₂.word a := hm a (by omega) h1 (by omega)
  have hhi : m₁.word (a + 4) = m₂.word (a + 4) := hm (a + 4) (by omega) (by omega) (by omega)
  simp only [Pair.decode, hlo, hhi]

end Block.EndsAt

variable {options : Options} {isa : InstructionSet} {m₁ m₂ : Memory} {b : Block}

theorem Block.extent_congr (hm : m₁.AgreeOn b.first b.last m₂) : b.extent isa m₁ = b.extent isa m₂ := by
  have hf := b.first_aligned
  have hl := b.last_aligned
  have hle := b.first_le_last
  have hlower : (b.last - 4).toNat = b.last.toNat - 4 :=
    UInt32.toNat_sub_of_le _ _ (UInt32.le_iff_toNat_le.2 (by simp; omega))
  have h1 : m₁.word b.last = m₂.word b.last := hm _ (by omega) hle (by omega)
  have h2 : m₁.word (b.last - 4) = m₂.word (b.last - 4) := hm _ (by omega) (by omega) (by omega)
  unfold extent endsInBranch
  rw [h1, h2]

theorem Progress.step_congr {snapshot : Option Snapshot} {p : Progress} {a : Address}
    (h : Pair.decode isa m₁ a = Pair.decode isa m₂ a) :
    p.step isa m₁ snapshot a = p.step isa m₂ snapshot a := by
  simp only [step, h]

theorem compile_congr
    (hm : m₁.AgreeOn (options.firstRead b (b.extent isa m₁).last) (b.extent isa m₁).last m₂) :
    compile options isa m₁ b = compile options isa m₂ b := by
  have hend := b.endsAt_extent isa m₁
  have hinside := hend.agreeOn_block hm
  have hextent : b.extent isa m₁ = b.extent isa m₂ := by
    apply Block.extent_congr
    intro a h4 h1 h2
    have hlast := b.toNat_extent_last isa m₁
    exact hinside a h4 h1 (by omega)
  have hdelay : options.delayOf isa m₁ b _ = options.delayOf isa m₂ b _ := hend.delayOf_congr hm
  have hstep : ∀ snapshot p a, a ∈ b.addresses (b.extent isa m₁).last →
      Progress.step isa m₁ snapshot p a = Progress.step isa m₂ snapshot p a :=
    fun _ _ _ ha => Progress.step_congr (hend.decode_congr hinside ha)
  simp only [compile, ← hextent, hdelay]
  congr 1
  funext delay
  rw [foldlM_congr fun p a ha => hstep delay.snapshot? p a ha]

theorem compile_range {done : Compiled} (h : compile options isa m₁ b = .ok done) :
    done.report.firstRead = options.firstRead b (b.extent isa m₁).last ∧
      done.report.extent.last = (b.extent isa m₁).last := by
  obtain ⟨_, _, _, _, _, _, rfl⟩ := compile_eq_ok_iff.1 h
  exact ⟨rfl, rfl⟩

/-- A compilation depends on the words from the first one read to the real end of the block. The
first one read is the start of the block, or the lower half of the pair before a block of two pairs. -/
theorem compile_depends_on_reported_range (options : Options) (isa : InstructionSet) (m₁ : Memory)
    (b : Block) :
    let last := (b.extent isa m₁).last
    let first := if options.branchDelay then b.firstRead last else b.first
    (∀ m₂ : Memory, (∀ a : Address, a.toNat % 4 = 0 → first.toNat ≤ a.toNat →
        a.toNat < last.toNat + 4 → m₁.word a = m₂.word a) →
      compile options isa m₁ b = compile options isa m₂ b) ∧
    (∀ done, compile options isa m₁ b = .ok done →
      done.report.firstRead = first ∧ done.report.extent.last = last) ∧
    (first = b.first ∨ first.toNat + 8 = b.first.toNat) ∧
    (first.toNat + 8 = b.first.toNat ↔
      options.branchDelay = true ∧ (b.addresses last).length = 2 ∧ 8 ≤ b.first.toNat) := by
  intro last first
  have hend : b.EndsAt last := b.endsAt_extent isa m₁
  have hle := hend.first_le
  have ha := hend.aligned
  have hf := b.first_aligned
  have hfirst : first.toNat = if options.branchDelay ∧ last.toNat = b.first.toNat + 12 ∧ 8 ≤ b.first.toNat
      then b.first.toNat - 8 else b.first.toNat := hend.toNat_firstRead
  have hlength : (b.addresses last).length = (last.toNat - b.first.toNat) / 8 + 1 := by
    rw [b.length_addresses, hend.toNat_sub_first]
  refine ⟨fun m₂ hm => compile_congr hm, fun done h => compile_range h, ?_, ?_⟩
  · rw [← UInt32.toNat_inj, hfirst]
    split <;> omega
  · rw [hlength, hfirst]
    constructor
    · intro h
      split at h
      · rename_i hc
        exact ⟨hc.1, by omega, hc.2.2⟩
      · omega
    · rintro ⟨ho, hlen, h8⟩
      rw [if_pos ⟨ho, by omega, h8⟩]
      omega

end DualIssue
