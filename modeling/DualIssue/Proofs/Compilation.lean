import DualIssue.Compile
import DualIssue.Proofs.Bracket

set_option autoImplicit false

namespace DualIssue

theorem toNat_add_four {a : Address} (h8 : a.toNat % 8 = 0) : (a + 4).toNat = a.toNat + 4 := by
  have hlt := a.toNat_lt
  rw [UInt32.toNat_add, Nat.mod_eq_of_lt (by simp; omega)]
  rfl

namespace Block

def address (b : Block) (k : Nat) : Address := b.first + 8 * UInt32.ofNat k

/-- The number of pairs up to the real end of the block. -/
def count (isa : InstructionSet) (m : Memory) (b : Block) : Nat :=
  ((b.extent isa m).last.toNat - b.first.toNat) / 8 + 1

/-- An address where a block may really end: behind it a pair and a jump target still fit. -/
structure EndsAt (b : Block) (last : Address) : Prop where
  aligned : last.toNat % 8 = 4
  first_le : b.first.toNat ≤ last.toNat
  room : last.toNat + 12 ≤ 0x100000000

theorem endsAt_extent (isa : InstructionSet) (m : Memory) (b : Block) :
    b.EndsAt (b.extent isa m).last := by
  have h := b.toNat_extent_last isa m
  have ha := b.last_aligned
  have hl := b.first_le_last
  have hm := b.last_le_max
  simp only [maxLast] at hm
  split at h <;> constructor <;> simp at * <;> omega

namespace EndsAt

variable {b : Block} {last : Address}

theorem toNat_sub_first (h : b.EndsAt last) : (last - b.first).toNat = last.toNat - b.first.toNat :=
  UInt32.toNat_sub_of_le _ _ h.first_le

theorem length_addresses (h : b.EndsAt last) :
    (b.addresses last).length = (last.toNat - b.first.toNat) / 8 + 1 := by
  rw [b.length_addresses, h.toNat_sub_first]

theorem toNat_address (h : b.EndsAt last) {k : Nat} (hk : b.first.toNat + 8 * k ≤ last.toNat) :
    (b.address k).toNat = b.first.toNat + 8 * k := by
  have hroom := h.room
  simp [address]; omega

theorem toNat_address_of_lt (h : b.EndsAt last) {k : Nat}
    (hk : k < (last.toNat - b.first.toNat) / 8 + 1) : (b.address k).toNat = b.first.toNat + 8 * k := by
  have ha := h.aligned
  have hf := b.first_aligned
  have hle := h.first_le
  exact h.toNat_address (by omega)

theorem mem_addresses_iff (h : b.EndsAt last) {a : Address} : a ∈ b.addresses last ↔
    a.toNat % 8 = 0 ∧ b.first.toNat ≤ a.toNat ∧ a.toNat ≤ last.toNat := by
  have hf := b.first_aligned
  have ha := h.aligned
  have hle := h.first_le
  simp only [addresses, List.mem_map, List.mem_range, h.toNat_sub_first]
  constructor
  · rintro ⟨k, hk, rfl⟩
    have hn := h.toNat_address (k := k) (by omega)
    simp only [address] at hn
    omega
  · rintro ⟨h8, h1, h2⟩
    refine ⟨(a.toNat - b.first.toNat) / 8, by omega, ?_⟩
    apply UInt32.toNat_inj.1
    have hn := h.toNat_address (k := (a.toNat - b.first.toNat) / 8) (by omega)
    simp only [address] at hn
    omega

end EndsAt

theorem addresses_eq (isa : InstructionSet) (m : Memory) (b : Block) :
    b.addresses (b.extent isa m).last = (List.range (b.count isa m)).map b.address := by
  rw [count, ← (b.endsAt_extent isa m).toNat_sub_first]
  rfl

theorem address_mem {isa : InstructionSet} {m : Memory} {b : Block} {k : Nat} (hk : k < b.count isa m) :
    b.address k ∈ b.addresses (b.extent isa m).last := by
  rw [addresses_eq]
  exact List.mem_map_of_mem (List.mem_range.2 hk)

theorem foldlM_addresses {ε σ : Type} {isa : InstructionSet} {m : Memory} {b : Block}
    (f : σ → Address → Except ε σ) (s : σ) : (b.addresses (b.extent isa m).last).foldlM f s =
      (List.range (b.count isa m)).foldlM (fun s k => f s (b.address k)) s := by
  rw [addresses_eq, List.foldlM_map]

end Block

def Scoreboard.opening (s : Scoreboard) (lo hi : Effects) : Code :=
  (if lo.writesQ then Latch.q.release else []) ++ (if hi.readsQ then Latch.q.releaseIfDue s.time else [])

theorem Scoreboard.issue_eq_ok_iff {s : Scoreboard} {a : Address} {lo hi : Effects} {code : Code} :
    s.issue a lo hi = .ok code ↔
      hi.writesQ = false ∧ lo.readsQ = false ∧ s.opening lo hi = code := by
  by_cases h1 : hi.writesQ <;> by_cases h2 : lo.readsQ <;> simp [issue, opening, h1, h2]

namespace Progress

structure Advance (isa : InstructionSet) (m : Memory) (snapshot : Option Snapshot) (p : Progress)
    (a : Address) (q : Progress) : Prop where
  check : (Pair.decode isa m a).check = .ok ()
  upperQ : (Pair.decode isa m a).hi.writesQ = false
  lowerQ : (Pair.decode isa m a).lo.readsQ = false
  writes : (Pair.decode isa m a).checkWrites = .ok ()
  emit : p.draft.emit (p.scoreboard.opening (Pair.decode isa m a).lo (Pair.decode isa m a).hi ++
    (Pair.decode isa m a).body isa snapshot p.scoreboard.time) = .ok q.draft
  retire : p.scoreboard.retire (Pair.decode isa m a).lo (Pair.decode isa m a).hi = .ok q.scoreboard
  stack : q.draft.isStackEmpty = true
  pairs : q.pairs = p.pairs + 1
  issued : q.issued = p.issued ++ [(Pair.decode isa m a).upperIssue p.scoreboard.time,
    (Pair.decode isa m a).lowerIssue p.scoreboard.time]

theorem advance_of_step {isa : InstructionSet} {m : Memory} {snapshot : Option Snapshot}
    {p q : Progress} {a : Address} (h : p.step isa m snapshot a = .ok q) :
    p.Advance isa m snapshot a q := by
  simp only [step, bind_eq_ok, mapError_eq_ok] at h
  obtain ⟨_, hcheck, opening, hissue, _, hwrites, draft, hemit, board, hretire, h⟩ := h
  obtain ⟨hu, hl, rfl⟩ := Scoreboard.issue_eq_ok_iff.1 hissue
  by_cases hs : draft.isStackEmpty
  · simp only [hs, if_true, Except.ok.injEq] at h
    subst h
    exact ⟨hcheck, hu, hl, hwrites, hemit, hretire, hs, rfl, rfl⟩
  · simp [hs] at h

theorem code_of_run {isa : InstructionSet} {m : Memory} {snapshot : Option Snapshot}
    {xs : List Address} {p q : Progress} (h : xs.foldlM (step isa m snapshot) p = .ok q) :
    ∃ rest, q.draft.code = p.draft.code ++ rest := by
  refine foldlM_induction (P := fun q => ∃ rest, q.draft.code = p.draft.code ++ rest) ?_ ⟨[], by simp⟩ h
  rintro s x t - ⟨rest, hs⟩ ht
  have hcode := (Draft.emit_eq_ok_iff.1 (advance_of_step ht).emit).2
  rw [hs, List.append_assoc] at hcode
  exact ⟨_, hcode⟩

/-- What holds of the code of every pair, and of code put together from such, holds of what a run
emits. -/
theorem code_induction {isa : InstructionSet} {m : Memory} {snapshot : Option Snapshot}
    {P : Code → Prop} {xs : List Address} (hnil : P []) (happend : ∀ x y, P x → P y → P (x ++ y))
    (hpiece : ∀ a ∈ xs, ∀ p q : Progress, p.Advance isa m snapshot a q →
      P (p.scoreboard.opening (Pair.decode isa m a).lo (Pair.decode isa m a).hi ++
        (Pair.decode isa m a).body isa snapshot p.scoreboard.time)) {p q : Progress}
    (h : xs.foldlM (step isa m snapshot) p = .ok q) :
    ∃ rest, q.draft.code = p.draft.code ++ rest ∧ P rest := by
  induction xs generalizing p with
  | nil =>
    cases h
    exact ⟨[], by simp, hnil⟩
  | cons a xs ih =>
    rw [List.foldlM_cons, bind_eq_ok] at h
    obtain ⟨p', hp', h⟩ := h
    have adv := advance_of_step hp'
    obtain ⟨rest, hrest, hP⟩ := ih (fun b hb => hpiece b (by simp [hb])) h
    refine ⟨_, ?_, happend _ _ (hpiece a (by simp) p p' adv) hP⟩
    rw [hrest, (Draft.emit_eq_ok_iff.1 adv.emit).2, List.append_assoc]

theorem advance_of_run {isa : InstructionSet} {m : Memory} {snapshot : Option Snapshot}
    {xs : List Address} {p q : Progress} (h : xs.foldlM (step isa m snapshot) p = .ok q) :
    ∀ a ∈ xs, ∃ (p' q' : Progress) (rest : Code), p'.Advance isa m snapshot a q' ∧
      q.draft.code = q'.draft.code ++ rest := by
  induction xs generalizing p with
  | nil => simp
  | cons x xs ih =>
    rw [List.foldlM_cons, bind_eq_ok] at h
    obtain ⟨p', hp', h⟩ := h
    intro a ha
    obtain rfl | ha := List.mem_cons.1 ha
    · obtain ⟨rest, hrest⟩ := code_of_run h
      exact ⟨p, p', rest, advance_of_step hp', hrest⟩
    · exact ih h a ha

end Progress

theorem compile_eq_ok_iff {options : Options} {isa : InstructionSet} {m : Memory} {b : Block}
    {done : Compiled} :
    compile options isa m b = .ok done ↔
      ∃ delay p draft, options.delayOf isa m b (b.extent isa m).last = .ok delay ∧
        (b.addresses (b.extent isa m).last).foldlM (Progress.step isa m delay.snapshot?)
          (.start options.latency) = .ok p ∧
        p.draft.emit (p.scoreboard.finish ++ (b.extent isa m).jumpFixup) = .ok draft ∧
        done = ⟨{
          extent := b.extent isa m
          pairs := p.pairs
          time := p.scoreboard.time
          snapshot := delay.snapshot?
          firstRead := if options.branchDelay then b.firstRead (b.extent isa m).last else b.first },
          draft, p.issued⟩ := by
  simp only [compile, bind_eq_ok, mapError_eq_ok, Except.ok.injEq]
  constructor
  · rintro ⟨delay, hd, p, hp, draft, hdraft, rfl⟩
    exact ⟨delay, p, draft, hd, hp, hdraft, rfl⟩
  · rintro ⟨delay, p, draft, hd, hp, hdraft, rfl⟩
    exact ⟨delay, hd, p, hp, draft, hdraft, rfl⟩

theorem Scoreboard.closesRegions_opening (s : Scoreboard) (lo hi : Effects) :
    (s.opening lo hi).ClosesRegions := by
  apply Code.closesRegions_of_count
  cases hl : lo.writesQ <;> cases hh : hi.readsQ <;> simp [opening, hl, hh] <;> rfl

theorem Extent.closesRegions_jumpFixup (e : Extent) : e.jumpFixup.ClosesRegions := by
  apply Code.closesRegions_of_count
  cases he : e.extended with
  | false => simp [jumpFixup, he]
  | true =>
    simp only [jumpFixup, he, if_true]
    rfl

theorem Draft.regions_emit {d e : Draft} {piece : Code} (hc : piece.ClosesRegions)
    (hd : d.shape.regions = []) (h : d.emit piece = .ok e) : e.shape.regions = [] :=
  hc _ _ hd (emit_eq_ok_iff.1 h).1

theorem compile_finish {options : Options} {isa : InstructionSet} {m : Memory} {b : Block}
    {done : Compiled} (hisa : ∀ a ∈ b.addresses (b.extent isa m).last, ∀ t,
      (((Pair.decode isa m a).upperIssue t).code isa).ClosesRegions ∧
      (((Pair.decode isa m a).lowerIssue t).code isa).ClosesRegions)
    (h : compile options isa m b = .ok done) : done.draft.finish = .ok done.draft.code := by
  obtain ⟨delay, p, draft, -, hp, hdraft, rfl⟩ := compile_eq_ok_iff.1 h
  have hregions : p.draft.shape.regions = [] := by
    refine foldlM_induction (P := fun p => p.draft.shape.regions = []) ?_ rfl hp
    intro p a q ha hpr hq
    have adv := Progress.advance_of_step hq
    obtain ⟨hu, hl⟩ := hisa a ha p.scoreboard.time
    refine Draft.regions_emit ?_ hpr adv.emit
    exact (Scoreboard.closesRegions_opening _ _ _).append (Pair.closesRegions_body hu hl _)
  have hend : draft.shape.regions = [] := by
    refine Draft.regions_emit ?_ hregions hdraft
    exact (Code.closesRegions_of_count rfl).append (Extent.closesRegions_jumpFixup _)
  simp [Draft.finish, hend]

end DualIssue
