import DualIssue.Memory.Image
import DualIssue.Proofs.Coherence

/-!
A cache on a memory whose addresses wrap around. Invalidation goes by the addresses of a block, and a
pair is stored under one of them only. Main statement: after a pair is stored and its address
invalidated, the answer for a block is up to date, whatever the instructions are, exactly if the block
covers its aliases: where it is read from a pair that wraps to the address, it is read from the
address itself too. A block that ends inside the memory does so.
-/

set_option autoImplicit false

namespace DualIssue

inductive Cache.Filled (isa : InstructionSet) (options : Options) (capacity : Nat) (m : Memory) :
    Cache → Prop
  | new {c : Cache} (h : Cache.new options capacity = .ok c) : Filled isa options capacity m c
  | get {c : Cache} (h : Filled isa options capacity m c) (b : Block) :
    Filled isa options capacity m (c.get isa m b).2

theorem Cache.Filled.reachable {isa : InstructionSet} {options : Options} {capacity : Nat} {m : Memory}
    {c : Cache} (h : Filled isa options capacity m c) :
    Session.Reachable isa options capacity ⟨c, m, []⟩ := by
  induction h with
  | new hc => exact .start m hc
  | get _ b ih => exact ih.step (.get b rfl)

/-- Wherever the block is read from a pair that wraps to `a`, it is read from `a` itself. This is
asked of both addresses where the block may really end. -/
def Block.CoversAliases (options : Options) (bits : Nat) (a : Address) (b : Block) : Prop :=
  ∀ last, last = b.last ∨ last = b.last + 8 →
    (∃ x : Address, x.toNat % 8 = 0 ∧ (options.firstRead b last).toNat ≤ x.toNat ∧
      x.toNat < last.toNat ∧ x.toNat % (4 * 1 <<< bits) = a.toNat) →
    (options.firstRead b last).toNat ≤ a.toNat ∧ a.toNat < last.toNat

theorem Block.extent_last_cases (isa : InstructionSet) (m : Memory) (b : Block) :
    (b.extent isa m).last = b.last ∨ (b.extent isa m).last = b.last + 8 := by
  unfold extent
  split
  · exact .inr rfl
  · exact .inl rfl

namespace Image

theorem slot_eq_iff {bits : Nat} {x a : Address} (hx : x.toNat % 4 = 0) (ha : a.toNat % 4 = 0)
    (hsize : a.toNat < 4 * 1 <<< bits) :
    slot bits a = slot bits x ↔ x.toNat % (4 * 1 <<< bits) = a.toNat := by
  have hmod := Nat.mod_mul (x := x.toNat) (a := 4) (b := 1 <<< bits)
  have hself : a.toNat / 4 % 1 <<< bits = a.toNat / 4 := Nat.mod_eq_of_lt (by omega)
  simp only [slot, Fin.mk.injEq, hself]
  omega

theorem exists_pair {y : Address} (h4 : y.toNat % 4 = 0) :
    ∃ x : Address, x.toNat % 8 = 0 ∧ (y.toNat = x.toNat ∨ y.toNat = x.toNat + 4) := by
  have hlt := y.toNat_lt
  have hn : (UInt32.ofNat (y.toNat / 8 * 8)).toNat = y.toNat / 8 * 8 :=
    UInt32.toNat_ofNat_of_lt' (by simp only [UInt32.size]; omega)
  exact ⟨UInt32.ofNat (y.toNat / 8 * 8), by omega, by omega⟩

theorem even_size {bits : Nat} (h : 1 ≤ bits) : ∃ n, 1 <<< bits = 2 * n := by
  obtain ⟨k, rfl⟩ : ∃ k, bits = k + 1 := ⟨bits - 1, by omega⟩
  exact ⟨1 <<< k, Nat.shiftLeft_succ 1 k⟩

theorem wraps_of_pair {bits : Nat} (hbits : 1 ≤ bits) {x y a : Address} (hx : x.toNat % 8 = 0)
    (hy : y.toNat = x.toNat ∨ y.toNat = x.toNat + 4) (ha : a.toNat % 8 = 0)
    (h : y.toNat % (4 * 1 <<< bits) = a.toNat ∨ y.toNat % (4 * 1 <<< bits) = a.toNat + 4) :
    x.toNat % (4 * 1 <<< bits) = a.toNat := by
  obtain ⟨n, hn⟩ := even_size hbits
  have hsize : 4 * 1 <<< bits = 8 * n := by omega
  have hdiv : y.toNat / 8 = x.toNat / 8 := by omega
  rw [hsize, Nat.mod_mul, hdiv] at h
  rw [hsize, Nat.mod_mul]
  omega

variable {img img' : Image} {a : Address} {lower upper : Word}

theorem word_storePair (hbits : 1 ≤ img.bits) (h8 : a.toNat % 8 = 0)
    (hsize : a.toNat < 4 * 1 <<< img.bits) (h : img.storePair a lower upper = .ok img') {x : Address}
    (hx : x.toNat % 4 = 0) :
    img'.word x =
      if x.toNat % (4 * 1 <<< img.bits) = a.toNat then lower
      else if x.toNat % (4 * 1 <<< img.bits) = a.toNat + 4 then upper
      else img.word x := by
  obtain ⟨n, hn⟩ := even_size hbits
  have hfour := toNat_add_four h8
  simp only [storePair, h8, if_true, Except.ok.injEq] at h
  subst h
  have hword : ((img.put a lower).put (a + 4) upper).word x =
      if slot img.bits (a + 4) = slot img.bits x then upper
      else if slot img.bits a = slot img.bits x then lower else img.word x := by
    rw [word_put, word_put]
    rfl
  have hlo : slot img.bits a = slot img.bits x ↔ x.toNat % (4 * 1 <<< img.bits) = a.toNat :=
    slot_eq_iff hx (by omega) hsize
  have hhi : slot img.bits (a + 4) = slot img.bits x ↔ x.toNat % (4 * 1 <<< img.bits) = a.toNat + 4 := by
    rw [← hfour]
    exact slot_eq_iff hx (by omega) (by omega)
  rw [hword]
  simp only [hlo, hhi]
  grind

end Image

namespace Entry

variable {options : Options} {isa : InstructionSet} {e : Entry} {a : Address}

theorem CompiledOn.firstRead_aligned {m : Memory} (he : e.CompiledOn options isa m) :
    e.report.firstRead.toNat % 8 = 0 := by
  obtain ⟨done, hdone, hreport, -⟩ := he
  rw [← hreport, (compile_range hdone).1]
  exact (e.block.endsAt_extent isa m).firstRead_aligned options

theorem CompiledOn.overlaps_pair_iff {m : Memory} (he : e.CompiledOn options isa m)
    (h8 : a.toNat % 8 = 0) (hroom : a.toNat + 8 < 0x100000000) : e.report.overlaps a (a + 8) = true ↔
      e.report.firstRead.toNat ≤ a.toNat ∧ a.toNat < e.report.extent.last.toNat := by
  have hfirst := he.firstRead_aligned
  have hlast := he.endsAt.aligned
  have hstop : (a + 8).toNat = a.toNat + 8 := by
    rw [UInt32.toNat_add, Nat.mod_eq_of_lt (by simpa using hroom)]
    rfl
  rw [he.overlaps_iff, hstop]
  omega

theorem CompiledOn.of_storePair {img img' : Image} {lower upper : Word}
    (he : e.CompiledOn options isa img.toMemory) (hcovers : e.block.CoversAliases options img.bits a)
    (hbits : 1 ≤ img.bits) (h8 : a.toNat % 8 = 0) (hsize : a.toNat < 4 * 1 <<< img.bits)
    (hroom : a.toNat + 8 < 0x100000000) (hstore : img.storePair a lower upper = .ok img')
    (hstays : e.report.overlaps a (a + 8) = false) : e.CompiledOn options isa img'.toMemory := by
  have hfirst := he.firstRead_aligned
  have hlast := he.endsAt.aligned
  have hcovered := hcovers _ (e.block.extent_last_cases isa img.toMemory)
  obtain ⟨done, hdone, hreport, -⟩ := id he
  rw [← (compile_range hdone).1, ← (compile_range hdone).2, hreport, ← he.overlaps_pair_iff h8 hroom,
    hstays] at hcovered
  refine he.congr ?_
  rintro y ⟨h4, h1, h2⟩
  have hword := Image.word_storePair hbits h8 hsize hstore h4
  have hsame : ¬(y.toNat % (4 * 1 <<< img.bits) = a.toNat ∨ y.toNat % (4 * 1 <<< img.bits) = a.toNat + 4) := by
    intro hy
    obtain ⟨x, hx8, hxy⟩ := Image.exists_pair h4
    have hover := hcovered ⟨x, hx8, by omega, by omega, Image.wraps_of_pair hbits hx8 hxy h8 hy⟩
    cases hover
  rw [not_or] at hsame
  rw [if_neg hsame.1, if_neg hsame.2] at hword
  exact hword.symm

end Entry

theorem Cache.Filled.get_after_store {options : Options} {isa : InstructionSet} {img img' : Image}
    {capacity : Nat} {c : Cache} {a : Address} {lower upper : Word} {b : Block}
    (hc : Filled isa options capacity img.toMemory c) (hisa : isa.ClosesRegions)
    (hcovers : b.CoversAliases options img.bits a) (hbits : 1 ≤ img.bits) (h8 : a.toNat % 8 = 0)
    (hsize : a.toNat < 4 * 1 <<< img.bits) (hroom : a.toNat + 8 < 0x100000000)
    (hstore : img.storePair a lower upper = .ok img') :
    ((c.invalidate a (a + 8)).get isa img'.toMemory b).1.map (·.code) =
      (compile options isa img'.toMemory b).map (·.draft.code) := by
  have hcoherent := hc.reachable.coherent hisa
  have hoptions : (c.invalidate a (a + 8)).options = options := hcoherent.options_eq
  rw [← hoptions]
  apply Cache.get_eq_compile hisa
  rintro e he rfl
  obtain ⟨hmem, hstays⟩ := List.mem_filter.1 he
  rw [hoptions]
  exact (hcoherent.compiledOn rfl hmem).of_storePair hcovers hbits h8 hsize hroom hstore
    (by simpa using hstays)

/-- The word `1` writes a register that every instruction reads; all else does nothing. Blocks are
extended or not, as wanted. -/
def telltale (extended : Bool) : InstructionSet where
  branch _ _ := if extended then .delayed else .straight
  effects _ w := { srcI0 := 1, destI := if w = 1 then 1 else 0 }
  target _ _ := 0
  code _ w _ := if w = 1 then [.const 0, .pull (.vi 1)] else []

namespace telltale

variable {extended : Bool} {options : Options} {m : Memory} {b : Block} {done : Compiled}

theorem closesRegions : (telltale extended).ClosesRegions := by
  intro a w t
  apply Code.closesRegions_of_count
  by_cases h : w = 1 <;> simp [telltale, h, Action.opens, Action.closes]

theorem extent_eq (hm : ∀ x, isImmediateLoad (m.word x) = false) :
    b.extent (telltale extended) m = ⟨if extended then b.last + 8 else b.last, extended⟩ := by
  cases extended <;> simp [Block.extent, Block.endsInBranch, telltale, hm]

theorem effects_eq {w : Word} (hw : w ≠ 1) (x : Address) :
    (telltale extended).effects x w = { srcI0 := 1 } := by
  simp [telltale, hw]

theorem step_eq (hm : ∀ x, m.word x ≠ 1) {p : Progress} (hp : p.draft = .empty) (a : Address) :
    ∃ q, p.step (telltale extended) m none a = .ok q ∧ q.draft = .empty := by
  have hpair : Pair.decode (telltale extended) m a =
      ⟨a, m.word a, m.word (a + 4), { srcI0 := 1 }, { srcI0 := 1 }⟩ := by
    simp only [Pair.decode, effects_eq (hm _)]
  have hbody : ∀ t, (Pair.decode (telltale extended) m a).body (telltale extended) none t = [] := by
    intro t
    simp [Pair.body, Pair.decode, Pair.clash, Pair.keepOld, Pair.showOld, Pair.showNew, Pair.upperIssue,
      Pair.lowerIssue, Issue.code, telltale, hm]
  unfold Progress.step
  simp only [hbody, hp]
  rw [hpair]
  exact ⟨_, rfl, rfl⟩

theorem delay_eq (hm : ∀ x, m.word x ≠ 1) {last : Address} (hend : b.EndsAt last) :
    options.delayOf (telltale extended) m b last = .ok .absent := by
  have hstale : b.staleRead (telltale extended) m last = .ok none := by
    by_cases hl : last.toNat < b.first.toNat + 12
    · exact hend.staleRead_of_short hl
    · simp [hend.staleRead_eq (Nat.le_of_not_lt hl), effects_eq (hm _)]
  cases ho : options.branchDelay with
  | false => simp [Options.delayOf, ho]
  | true =>
    simp only [Options.delayOf, ho, if_true, Block.branchDelay, hstale]
    rfl

theorem compile_quiet (hm : ∀ x, m.word x ≠ 1) (extended : Bool) (options : Options) (b : Block) :
    ∃ done, compile options (telltale extended) m b = .ok done ∧
      done.draft.code.pulls (.vi 1) = false ∧ done.draft.code.pulls .savedInt = false := by
  have hend := b.endsAt_extent (telltale extended) m
  have hrun : ∀ (xs : List Address) (p : Progress), p.draft = .empty →
      ∃ q, xs.foldlM (Progress.step (telltale extended) m none) p = .ok q ∧ q.draft = .empty := by
    intro xs
    induction xs with
    | nil => exact fun p hp => ⟨p, rfl, hp⟩
    | cons x xs ih =>
      intro p hp
      obtain ⟨q, hq, hdraft⟩ := step_eq hm hp x
      obtain ⟨r, hr, hdraft⟩ := ih q hdraft
      refine ⟨r, ?_, hdraft⟩
      rw [List.foldlM_cons, hq]
      exact hr
  obtain ⟨q, hq, hdraft⟩ := hrun (b.addresses (b.extent (telltale extended) m).last) (.start options.latency) rfl
  have hemit : ∃ draft, q.draft.emit (q.scoreboard.finish ++ (b.extent (telltale extended) m).jumpFixup) =
      .ok draft := by
    rw [hdraft]
    cases he : (b.extent (telltale extended) m).extended <;> simp only [Extent.jumpFixup, he] <;>
      exact ⟨_, rfl⟩
  obtain ⟨draft, hemit⟩ := hemit
  refine ⟨_, compile_eq_ok_iff.2 ⟨_, q, draft, delay_eq hm hend, hq, hemit, rfl⟩, ?_, ?_⟩ <;>
  · rw [(Draft.emit_eq_ok_iff.1 hemit).2, hdraft]
    cases he : (b.extent (telltale extended) m).extended <;> simp only [Extent.jumpFixup, he] <;> rfl

theorem pulls_of_pair (h : compile options (telltale extended) m b = .ok done) {x : Address}
    (hx : x ∈ b.addresses (b.extent (telltale extended) m).last) (hw : m.word x = 1) :
    done.draft.code.pulls (.vi 1) = true := by
  obtain ⟨delay, p, draft, -, hp, hdraft, rfl⟩ := compile_eq_ok_iff.1 h
  obtain ⟨p', q', rest, adv, hrest⟩ := Progress.advance_of_run hp x hx
  have hlower : (((Pair.decode (telltale extended) m x).lowerIssue p'.scoreboard.time).code
      (telltale extended)).pulls (.vi 1) = true := by
    simp [Pair.decode, Pair.lowerIssue, Issue.code, telltale, hw, Action.pulls]
  simp [(Draft.emit_eq_ok_iff.1 hdraft).2, hrest, (Draft.emit_eq_ok_iff.1 adv.emit).2, Pair.body, hlower]

theorem pulls_of_prior (h : compile options (telltale extended) m b = .ok done)
    (ho : options.branchDelay = true)
    (hlast : (b.extent (telltale extended) m).last.toNat = b.first.toNat + 12) (h8 : 8 ≤ b.first.toNat)
    (hbranch : m.word b.first = 0x50000000) (hprior : m.word (b.first - 8) = 1) :
    done.draft.code.pulls .savedInt = true := by
  have hend := b.endsAt_extent (telltale extended) m
  obtain ⟨delay, p, draft, hd, hp, hdraft, rfl⟩ := compile_eq_ok_iff.1 h
  generalize (b.extent (telltale extended) m).last = last at hend hlast hd hp
  have hl : b.first.toNat + 12 ≤ last.toNat := by omega
  have hat : last - 12 = b.first := by
    apply UInt32.toNat_inj.1
    rw [Block.toNat_branch hl]
    omega
  have hstale : b.staleRead (telltale extended) m last = .ok (some (b.first, 1)) := by
    have h8' : 8 ≤ b.first := UInt32.le_iff_toNat_le.2 h8
    rw [hend.staleRead_eq hl, hat, hbranch, hprior]
    simp [telltale, h8', Effects.readsInt]
    decide
  have hloop : b.isCountingLoop (telltale extended) m last 1 = .ok false := by
    have hne : (last - b.first) / 8 ≠ 4 := by
      rw [Ne, ← UInt32.toNat_inj, UInt32.toNat_div, hend.toNat_sub_first, hlast]
      simp
    simp [Block.isCountingLoop, hne]
  have hsave : max (clampedSub b.first (8 * snapshotDistance)) b.first = b.first := by
    apply UInt32.toNat_inj.1
    rw [toNat_max, toNat_clampedSub]
    omega
  have hsnapshot : delay.snapshot? = some ⟨1, b.first, b.first⟩ := by
    simp only [Options.delayOf, ho, if_true, Block.branchDelay, bind_eq_ok, mapError_eq_ok] at hd
    obtain ⟨stale, hs, hd⟩ := hd
    rw [hstale] at hs
    cases hs
    obtain ⟨loop, hc, hd⟩ := bind_eq_ok.1 hd
    rw [mapError_eq_ok, hloop] at hc
    cases hc
    cases hd
    simp only [BranchDelay.snapshot?, hsave]
  have hmem : b.first ∈ b.addresses last :=
    hend.mem_addresses_iff.2 ⟨b.first_aligned, Nat.le_refl _, hend.first_le⟩
  obtain ⟨p', q', rest, adv, hrest⟩ := Progress.advance_of_run hp b.first hmem
  have hsaves : (Snapshot.save ⟨1, b.first, b.first⟩ b.first).pulls .savedInt = true := by
    simp [Snapshot.save, Code.move, Field.width, Action.pulls]
  simp [(Draft.emit_eq_ok_iff.1 hdraft).2, hrest, (Draft.emit_eq_ok_iff.1 adv.emit).2, Pair.body,
    Pair.decode, hsnapshot, hsaves]

end telltale

def Image.branchAt (bits : Nat) (a : Address) : Image := (blank bits).put a 0x50000000

namespace Image

theorem word_branchAt (bits : Nat) (a x : Address) :
    (branchAt bits a).word x = if slot bits a = slot bits x then 0x50000000 else 0 := by
  have hblank : (blank bits).word x = 0 := by
    simp [word, blank]
  rw [branchAt, word_put, hblank]
  rfl

theorem word_branchAt_ne_one (bits : Nat) (a x : Address) : (branchAt bits a).word x ≠ 1 := by
  rw [word_branchAt]
  split <;> decide

theorem isImmediateLoad_branchAt (bits : Nat) (a x : Address) :
    isImmediateLoad ((branchAt bits a).word x) = false := by
  rw [word_branchAt]
  split <;> rfl

theorem isImmediateLoad_storePair {img img' : Image} {a : Address}
    (himg : ∀ x, isImmediateLoad (img.word x) = false) (h : img.storePair a 1 1 = .ok img') (x : Address) :
    isImmediateLoad (img'.word x) = false := by
  unfold storePair at h
  split at h
  · cases h
    rw [word_put, word_put]
    split
    · rfl
    · split
      · rfl
      · exact himg x
  · cases h

end Image

theorem telltale.pulls_of_store {options : Options} {bits : Nat} {extended : Bool} {b : Block} {img' : Image}
    {a x : Address} {done : Compiled} (hbits : 1 ≤ bits) (h8 : a.toNat % 8 = 0)
    (hsize : a.toNat < 4 * 1 <<< bits) (hstore : (Image.branchAt bits b.first).storePair a 1 1 = .ok img')
    (hx8 : x.toNat % 8 = 0)
    (hx1 : (options.firstRead b (b.extent (telltale extended) img'.toMemory).last).toNat ≤ x.toNat)
    (hx2 : x.toNat < (b.extent (telltale extended) img'.toMemory).last.toNat)
    (hxa : x.toNat % (4 * 1 <<< bits) = a.toNat)
    (h : compile options (telltale extended) img'.toMemory b = .ok done) :
    done.draft.code.pulls (.vi 1) = true ∨ done.draft.code.pulls .savedInt = true := by
  have hf := b.first_aligned
  have hend := b.endsAt_extent (telltale extended) img'.toMemory
  have hword := fun y hy => Image.word_storePair (x := y) hbits h8 hsize hstore hy
  have hone : ∀ y : Address, y.toNat % 8 = 0 → y.toNat % (4 * 1 <<< bits) = a.toNat → img'.word y = 1 := by
    intro y hy8 hya
    rw [hword y (by omega)]
    exact if_pos hya
  by_cases hin : ∃ y ∈ b.addresses (b.extent (telltale extended) img'.toMemory).last,
      y.toNat % (4 * 1 <<< bits) = a.toNat
  · obtain ⟨y, hy, hya⟩ := hin
    exact .inl (pulls_of_pair h hy (hone y (hend.mem_addresses_iff.1 hy).1 hya))
  · have hout : ¬b.first.toNat ≤ x.toNat :=
      fun hle => hin ⟨x, hend.mem_addresses_iff.2 ⟨hx8, hle, Nat.le_of_lt hx2⟩, hxa⟩
    have hfirst : b.first.toNat % (4 * 1 <<< bits) ≠ a.toNat :=
      fun hb => hin ⟨b.first, hend.mem_addresses_iff.2 ⟨hf, Nat.le_refl _, hend.first_le⟩, hb⟩
    have hfirst' : b.first.toNat % (4 * 1 <<< bits) ≠ a.toNat + 4 :=
      fun hb => hfirst (Image.wraps_of_pair hbits hf (.inl rfl) h8 (.inr hb))
    have hbranch : img'.word b.first = 0x50000000 := by
      rw [hword b.first (by omega)]
      exact (if_neg hfirst).trans ((if_neg hfirst').trans (by simp [Image.word_branchAt]))
    rw [hend.toNat_firstRead] at hx1
    split at hx1
    · rename_i hc
      obtain ⟨ho, hl, hb8⟩ := hc
      have hx : x = b.first - 8 := by
        have hle : 8 ≤ b.first := UInt32.le_iff_toNat_le.2 hb8
        apply UInt32.toNat_inj.1
        rw [UInt32.toNat_sub_of_le _ _ hle]
        simp only [UInt32.reduceToNat]
        omega
      exact .inr (pulls_of_prior h ho hl hb8 hbranch (hx ▸ hone x hx8 hxa))
    · omega

namespace Cache

variable {isa : InstructionSet} {m : Memory} {c : Cache} {b : Block}

theorem entries_get_of_empty (hisa : isa.ClosesRegions) (hc : c.entries = []) {done : Compiled}
    (hdone : compile c.options isa m b = .ok done) :
    (c.get isa m b).2.entries = [⟨b, done.report, done.draft.code⟩] := by
  have hroom : c.makeRoom = c := by
    have hpos := c.capacity_pos
    have hfull : c.isFull = false := by simp [isFull, size, hc]; omega
    simp [makeRoom, hfull]
  simp [get, find?, hc, hdone, hisa.finish hdone, hroom, add]

theorem get_of_spared {e : Entry} {first stop : Address} (hc : c.entries = [e])
    (hspared : e.report.overlaps first stop = false) :
    ((c.invalidate first stop).get isa m e.block).1 = .ok ⟨e.code, 0⟩ := by
  simp [get, find?, invalidate, hc, hspared]

end Cache

theorem Block.exists_stale {options : Options} {bits : Nat} {b : Block} {a : Address} (hbits : 1 ≤ bits)
    (h8 : a.toNat % 8 = 0) (hsize : a.toNat < 4 * 1 <<< bits) (hroom : a.toNat + 8 < 0x100000000)
    (h : ¬b.CoversAliases options bits a) :
    ∃ (isa : InstructionSet) (img img' : Image) (c : Cache), isa.ClosesRegions ∧ img.bits = bits ∧
      Cache.Filled isa options 1 img.toMemory c ∧ img.storePair a 1 1 = .ok img' ∧
      ((c.invalidate a (a + 8)).get isa img'.toMemory b).1.map (·.code) ≠
        (compile options isa img'.toMemory b).map (·.draft.code) := by
  simp only [CoversAliases, Classical.not_forall] at h
  obtain ⟨last, hlast, ⟨x, hx8, hx1, hx2, hxa⟩, hnot⟩ := h
  obtain ⟨extended, hlast⟩ : ∃ extended : Bool, last = if extended then b.last + 8 else b.last := by
    obtain rfl | rfl := hlast
    · exact ⟨false, rfl⟩
    · exact ⟨true, rfl⟩
  obtain ⟨img', hstore⟩ : ∃ img', (Image.branchAt bits b.first).storePair a 1 1 = .ok img' := by
    simp [Image.storePair, h8]
  have hbefore := Image.isImmediateLoad_branchAt bits b.first
  have hafter := Image.isImmediateLoad_storePair hbefore hstore
  have hextent : (b.extent (telltale extended) (Image.branchAt bits b.first).toMemory).last = last := by
    rw [telltale.extent_eq (m := (Image.branchAt bits b.first).toMemory) hbefore, hlast]
  have hextent' : (b.extent (telltale extended) img'.toMemory).last = last := by
    rw [telltale.extent_eq (m := img'.toMemory) hafter, hlast]
  obtain ⟨done, hdone, hvi, hsaved⟩ := telltale.compile_quiet (m := (Image.branchAt bits b.first).toMemory)
    (Image.word_branchAt_ne_one bits b.first) extended options b
  have he : Entry.CompiledOn options (telltale extended) (Image.branchAt bits b.first).toMemory
      ⟨b, done.report, done.draft.code⟩ := ⟨done, hdone, rfl, rfl⟩
  have hspared : done.report.overlaps a (a + 8) = false := by
    obtain ⟨h1, h2⟩ := compile_range hdone
    apply Bool.eq_false_iff.2
    intro hover
    have hin := (he.overlaps_pair_iff h8 hroom).1 hover
    rw [h1, h2, hextent] at hin
    exact hnot hin
  let c : Cache := ⟨options, 1, Nat.one_pos, []⟩
  have hentries := c.entries_get_of_empty telltale.closesRegions rfl hdone
  refine ⟨telltale extended, _, img', _, telltale.closesRegions, rfl, .get (.new (c := c) rfl) b, hstore, ?_⟩
  rw [Cache.get_of_spared hentries hspared]
  intro heq
  obtain ⟨done', hdone', hcode⟩ := map_eq_ok.1 heq.symm
  subst hextent'
  obtain hp | hp := telltale.pulls_of_store hbits h8 hsize hstore hx8 hx1 hx2 hxa hdone'
  · simp [hcode, hvi] at hp
  · simp [hcode, hsaved] at hp

/-- A pair is stored and its address invalidated. Then the answer for a block is what compiling it
gives, for all instruction sets, images, caches and words, exactly if the block covers its aliases. -/
theorem get_after_store_iff_coversAliases (options : Options) (b : Block) {bits : Nat} {a : Address}
    (hbits : 1 ≤ bits) (hmax : bits ≤ 20) (h8 : a.toNat % 8 = 0) (hsize : a.toNat < 4 * 1 <<< bits) :
    (∀ (isa : InstructionSet) (img img' : Image) (capacity : Nat) (c : Cache) (lower upper : Word),
      isa.ClosesRegions → img.bits = bits → Cache.Filled isa options capacity img.toMemory c →
      img.storePair a lower upper = .ok img' →
      ((c.invalidate a (a + 8)).get isa img'.toMemory b).1.map (·.code) =
        (compile options isa img'.toMemory b).map (·.draft.code)) ↔
    b.CoversAliases options bits a := by
  have hpow : 1 <<< bits ≤ 1 <<< 20 := by
    simp only [Nat.one_shiftLeft]
    exact Nat.pow_le_pow_right (by decide) hmax
  have hroom : a.toNat + 8 < 0x100000000 := by omega
  constructor
  · intro h
    apply Classical.byContradiction
    intro hcovers
    obtain ⟨isa, img, img', c, hisa, hb, hc, hstore, hstale⟩ :=
      Block.exists_stale hbits h8 hsize hroom hcovers
    exact hstale (h isa img img' 1 c 1 1 hisa hb hc hstore)
  · rintro hcovers isa img img' capacity c lower upper hisa rfl hc hstore
    exact hc.get_after_store hisa hcovers hbits h8 hsize hroom hstore

/-- A block that ends inside the memory, with room for a delay slot, covers its aliases. -/
theorem Block.coversAliases_of_inside (options : Options) {bits : Nat} (a : Address) {b : Block}
    (h : b.last.toNat + 12 ≤ 4 * 1 <<< bits) : b.CoversAliases options bits a := by
  have hnext := b.toNat_last_add
  rintro last hlast ⟨x, -, hx1, hx2, hxa⟩
  have hx : x.toNat < 4 * 1 <<< bits := by
    obtain rfl | rfl := hlast <;> omega
  rw [Nat.mod_eq_of_lt hx] at hxa
  omega

def Cache.asked (bits : Nat) (b : Block) : Cache :=
  (Cache.get ⟨{}, 1, Nat.one_pos, []⟩ literals (Image.blank bits).toMemory b).2

theorem Cache.filled_asked (bits : Nat) (b : Block) :
    Filled literals {} 1 (Image.blank bits).toMemory (asked bits b) :=
  .get (.new rfl) b

theorem get_zero_after_store : ∃ img', (Image.blank 2).storePair 0 7 0 = .ok img' ∧
    (((Cache.asked 2 .zero).invalidate 0 8).get literals img'.toMemory .zero).1.map (·.code) =
      (compile {} literals img'.toMemory .zero).map (·.draft.code) :=
  ⟨_, rfl, (get_after_store_iff_coversAliases {} .zero (by decide) (by decide) (by decide) (by decide)).2
    (Block.coversAliases_of_inside {} 0 (by decide)) literals (Image.blank 2) _ 1 _ 7 0
    closesRegions_literals rfl (Cache.filled_asked 2 .zero) rfl⟩

/-- In a memory of two words the pair at eight is the pair at zero. Its block outlives a store to
zero. -/
theorem stale_past_the_end : ¬∀ (options : Options) (isa : InstructionSet) (img img' : Image)
    (capacity : Nat) (c : Cache) (a : Address) (lower upper : Word) (b : Block),
    isa.ClosesRegions → 1 ≤ img.bits → img.bits ≤ 20 → Cache.Filled isa options capacity img.toMemory c →
    a.toNat % 8 = 0 → a.toNat < 4 * 1 <<< img.bits → img.storePair a lower upper = .ok img' →
    ((c.invalidate a (a + 8)).get isa img'.toMemory b).1.map (·.code) =
      (compile options isa img'.toMemory b).map (·.draft.code) := by
  intro h
  have heq := h {} literals (Image.blank 1) _ 1 (Cache.asked 1 .eight) 0 7 0 .eight closesRegions_literals
    (by decide) (by decide) (Cache.filled_asked 1 .eight) (by decide) (by decide) rfl
  cases heq

end DualIssue
