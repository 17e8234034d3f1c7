import DualIssue.Cache
import DualIssue.Proofs.Footprint

/-!
A cache beside a memory that is written to. Main statement: if every upload is announced before the
next block is asked for, the cache answers what a compilation on the memory of that moment would,
and the reports it holds are those of such compilations.
-/

set_option autoImplicit false

namespace DualIssue

def InstructionSet.ClosesRegions (isa : InstructionSet) : Prop :=
  ∀ a w t, (isa.code a w t).ClosesRegions

theorem InstructionSet.ClosesRegions.finish {isa : InstructionSet} (hisa : isa.ClosesRegions)
    {options : Options} {m : Memory} {b : Block} {done : Compiled}
    (h : compile options isa m b = .ok done) : done.draft.finish = .ok done.draft.code :=
  compile_finish (fun _ _ _ => ⟨hisa _ _ _, hisa _ _ _⟩) h

theorem Report.overlaps_iff {r : Report} (hroom : r.extent.last.toNat + 4 ≤ 0x100000000)
    {first stop : Address} : r.overlaps first stop = true ↔
      first.toNat < r.extent.last.toNat + 4 ∧ r.firstRead.toNat < stop.toNat := by
  have hbyte : (r.extent.last + 3).toNat = r.extent.last.toNat + 3 := by
    rw [UInt32.toNat_add, Nat.mod_eq_of_lt (by simp; omega)]
    rfl
  simp only [overlaps, decide_eq_true_eq, UInt32.le_iff_toNat_le, UInt32.lt_iff_toNat_lt, hbyte]
  omega

namespace Entry

def CompiledOn (options : Options) (isa : InstructionSet) (m : Memory) (e : Entry) : Prop :=
  ∃ done, compile options isa m e.block = .ok done ∧ done.report = e.report ∧ done.draft.code = e.code

/-- The address of a word that the entry was compiled from. -/
def Reads (e : Entry) (a : Address) : Prop :=
  a.toNat % 4 = 0 ∧ e.report.firstRead.toNat ≤ a.toNat ∧ a.toNat < e.report.extent.last.toNat + 4

variable {options : Options} {isa : InstructionSet} {m m' : Memory} {e : Entry}

theorem CompiledOn.congr (h : e.CompiledOn options isa m) (hm : ∀ a, e.Reads a → m.word a = m'.word a) :
    e.CompiledOn options isa m' := by
  obtain ⟨done, hdone, hreport, hcode⟩ := h
  obtain ⟨hfirst, hlast⟩ := compile_range hdone
  refine ⟨done, ?_, hreport, hcode⟩
  rw [← hdone]
  refine (compile_congr ?_).symm
  intro a h4 h1 h2
  rw [← hfirst, hreport] at h1
  rw [← hlast, hreport] at h2
  exact hm a ⟨h4, h1, h2⟩

theorem CompiledOn.endsAt (h : e.CompiledOn options isa m) : e.block.EndsAt e.report.extent.last := by
  obtain ⟨done, hdone, hreport, -⟩ := h
  rw [← hreport, (compile_range hdone).2]
  exact e.block.endsAt_extent isa m

theorem CompiledOn.overlaps_iff (h : e.CompiledOn options isa m) {first stop : Address} :
    e.report.overlaps first stop = true ↔
      first.toNat < e.report.extent.last.toNat + 4 ∧ e.report.firstRead.toNat < stop.toNat := by
  have hroom := h.endsAt.room
  exact Report.overlaps_iff (by omega)

theorem CompiledOn.overlaps_of_reads (h : e.CompiledOn options isa m) {a first stop : Address}
    (ha : e.Reads a) {x : Nat} (hx : a.toNat ≤ x) (hx' : x < a.toNat + 4) (h1 : first.toNat ≤ x)
    (h2 : x < stop.toNat) : e.report.overlaps first stop = true := by
  obtain ⟨h4, hfirst, hlast⟩ := ha
  have haligned := h.endsAt.aligned
  rw [h.overlaps_iff]
  omega

end Entry

namespace Cache

variable {isa : InstructionSet} {m : Memory} {c : Cache} {b : Block} {e : Entry}

theorem find?_eq_some (h : c.find? b = some e) : e ∈ c.entries ∧ e.block = b := by
  have hb := List.find?_some h
  exact ⟨List.mem_of_find?_eq_some h, by simpa using hb⟩

theorem mem_makeRoom (h : e ∈ c.makeRoom.entries) : e ∈ c.entries := by
  unfold makeRoom at h
  split at h
  · exact List.mem_of_mem_tail h
  · exact h

@[simp] theorem options_makeRoom (c : Cache) : c.makeRoom.options = c.options := by
  unfold makeRoom
  split <;> rfl

@[simp] theorem options_get (c : Cache) (isa : InstructionSet) (m : Memory) (b : Block) :
    (c.get isa m b).2.options = c.options := by
  unfold get
  split
  · rfl
  · split
    · rfl
    · split <;> simp [add]

theorem mem_get (hisa : isa.ClosesRegions) (h : e ∈ (c.get isa m b).2.entries) :
    e ∈ c.entries ∨ e.CompiledOn c.options isa m := by
  unfold get at h
  split at h
  · exact .inl h
  · split at h
    · exact .inl h
    · rename_i done hdone
      rw [hisa.finish hdone] at h
      simp only [add, List.mem_append, List.mem_singleton] at h
      obtain h | rfl := h
      · exact .inl (mem_makeRoom h)
      · exact .inr ⟨done, hdone, rfl, rfl⟩

theorem get_eq_compile (hisa : isa.ClosesRegions)
    (h : ∀ e ∈ c.entries, e.block = b → e.CompiledOn c.options isa m) :
    (c.get isa m b).1.map (·.code) = (compile c.options isa m b).map (·.draft.code) := by
  unfold get
  split
  · rename_i e he
    obtain ⟨hmem, rfl⟩ := find?_eq_some he
    obtain ⟨done, hdone, -, hcode⟩ := h e hmem rfl
    simp [hdone, hcode, Except.map]
  · split
    · rename_i stop hstop
      simp [hstop, Except.map]
    · rename_i done hdone
      simp [hdone, hisa.finish hdone, Except.map]

end Cache

structure Span where
  first : Address
  stop : Address
  deriving DecidableEq, Repr

def Span.Touches (r : Span) (a : Address) : Prop :=
  ∃ x, a.toNat ≤ x ∧ x < a.toNat + 4 ∧ r.first.toNat ≤ x ∧ x < r.stop.toNat

structure Session where
  cache : Cache
  memory : Memory
  /-- Where memory was written to and the cache was not told yet. -/
  pending : List Span

namespace Session

/-- What may happen. A block is asked for only when the cache knows of every upload. -/
inductive Step (isa : InstructionSet) : Session → Session → Prop
  | get {s : Session} (b : Block) (h : s.pending = []) :
    Step isa s { s with cache := (s.cache.get isa s.memory b).2 }
  | invalidate {s : Session} (r : Span) :
    Step isa s { s with
      cache := s.cache.invalidate r.first r.stop
      pending := s.pending.filter (· ≠ r) }
  | clear {s : Session} : Step isa s { s with cache := s.cache.clear }
  | upload {s : Session} (m : Memory) (r : Span)
    (h : ∀ a : Address, a.toNat % 4 = 0 → m.word a ≠ s.memory.word a → r.Touches a) :
    Step isa s { s with memory := m, pending := r :: s.pending }

inductive Reachable (isa : InstructionSet) (options : Options) (capacity : Nat) : Session → Prop
  | start {c : Cache} (m : Memory) (h : Cache.new options capacity = .ok c) :
    Reachable isa options capacity ⟨c, m, []⟩
  | step {s t : Session} (h : Reachable isa options capacity s) (hst : Step isa s t) :
    Reachable isa options capacity t

/-- Every entry was compiled on a memory that differs from the one now at most where an upload is
pending, as far as the entry depends on it. -/
structure Coherent (isa : InstructionSet) (options : Options) (s : Session) : Prop where
  options_eq : s.cache.options = options
  entries : ∀ e ∈ s.cache.entries, ∃ m, e.CompiledOn options isa m ∧
    ∀ a, e.Reads a → (∃ r ∈ s.pending, r.Touches a) ∨ m.word a = s.memory.word a

variable {isa : InstructionSet} {options : Options} {capacity : Nat} {s t : Session}

theorem Coherent.compiledOn (h : s.Coherent isa options) (hp : s.pending = []) {e : Entry}
    (he : e ∈ s.cache.entries) : e.CompiledOn options isa s.memory := by
  obtain ⟨m, hm, hagree⟩ := h.entries e he
  refine hm.congr fun a ha => ?_
  simpa [hp] using hagree a ha

theorem Coherent.step (hisa : isa.ClosesRegions) (h : s.Coherent isa options) (hst : Step isa s t) :
    t.Coherent isa options := by
  obtain ⟨hoptions, hentries⟩ := h
  cases hst with
  | get b hp =>
    refine ⟨by simp [hoptions], ?_⟩
    intro e he
    obtain he | he := Cache.mem_get hisa he
    · exact hentries e he
    · exact ⟨s.memory, hoptions ▸ he, fun _ _ => .inr rfl⟩
  | invalidate r =>
    refine ⟨hoptions, ?_⟩
    intro e he
    obtain ⟨hmem, hstays⟩ := List.mem_filter.1 he
    obtain ⟨m, hm, hagree⟩ := hentries e hmem
    refine ⟨m, hm, ?_⟩
    intro a ha
    obtain ⟨q, hq, htouch⟩ | hsame := hagree a ha
    · have hne : q ≠ r := by
        rintro rfl
        obtain ⟨x, h1, h2, h3, h4⟩ := htouch
        simp [hm.overlaps_of_reads ha h1 h2 h3 h4] at hstays
      exact .inl ⟨q, List.mem_filter.2 ⟨hq, by simpa using hne⟩, htouch⟩
    · exact .inr hsame
  | clear => exact ⟨hoptions, by simp [Cache.clear]⟩
  | upload m' r hr =>
    refine ⟨hoptions, ?_⟩
    intro e he
    obtain ⟨m, hm, hagree⟩ := hentries e he
    refine ⟨m, hm, ?_⟩
    intro a ha
    by_cases hw : m'.word a = s.memory.word a
    · obtain ⟨q, hq, htouch⟩ | hsame := hagree a ha
      · exact .inl ⟨q, List.mem_cons_of_mem _ hq, htouch⟩
      · exact .inr (hsame.trans hw.symm)
    · exact .inl ⟨r, List.mem_cons_self, hr a ha.1 hw⟩

theorem Reachable.coherent (hisa : isa.ClosesRegions) (h : Reachable isa options capacity s) :
    s.Coherent isa options := by
  induction h with
  | start m hc =>
    unfold Cache.new at hc
    split at hc
    · cases hc
      exact ⟨rfl, by simp⟩
    · cases hc
  | step _ hst ih => exact ih.step hisa hst

/-- With every upload announced, a request is answered by what compiling the block would give now,
and the reports of the blocks held are what compiling them would report. -/
theorem get_eq_compile_of_reachable (hisa : isa.ClosesRegions)
    (h : Reachable isa options capacity s) (hp : s.pending = []) (b : Block) :
    (s.cache.get isa s.memory b).1.map (·.code) =
        (compile options isa s.memory b).map (·.draft.code) ∧
      ∀ r, s.cache.report? b = some r → (compile options isa s.memory b).map (·.report) = .ok r := by
  have hcoherent := h.coherent hisa
  constructor
  · rw [← hcoherent.options_eq]
    apply Cache.get_eq_compile hisa
    intro e he _
    rw [hcoherent.options_eq]
    exact hcoherent.compiledOn hp he
  · intro r hr
    obtain ⟨e, he, rfl⟩ := Option.map_eq_some_iff.1 hr
    obtain ⟨hmem, rfl⟩ := Cache.find?_eq_some he
    obtain ⟨done, hdone, hreport, -⟩ := hcoherent.compiledOn hp hmem
    simp [hdone, hreport, Except.map]

end Session

def literals : InstructionSet where
  branch _ _ := .straight
  effects _ _ := .idle
  target _ _ := 0
  code _ w _ := [.const w, .pull (.vi 1)]

theorem closesRegions_literals : literals.ClosesRegions := fun _ _ _ => Code.closesRegions_of_count rfl

def Block.zero : Block := ⟨0, 4, rfl, rfl, by decide, by decide⟩

def Block.eight : Block := ⟨8, 12, rfl, rfl, by decide, by decide⟩

def Session.overwritten : Session where
  cache :=
    let c : Cache := ⟨{}, 2, by decide, []⟩
    let c := (c.get literals ⟨fun _ => 0⟩ .zero).2
    let c := (c.get literals ⟨fun _ => 0⟩ .eight).2
    c.invalidate 0 4
  memory := ⟨fun a => if a = 0 then 7 else 0⟩
  pending := []

theorem Session.reachable_overwritten : Reachable literals {} 2 overwritten := by
  have h0 : Reachable literals {} 2 ⟨⟨{}, 2, by decide, []⟩, ⟨fun _ => 0⟩, []⟩ := .start _ rfl
  have h1 := (h0.step (.get .zero rfl)).step (.get .eight rfl)
  have h2 := h1.step (.upload overwritten.memory ⟨0, 4⟩ (by
    intro a _ hw
    have ha : a = 0 := by simpa [overwritten] using hw
    exact ⟨0, by simp [ha], by simp [ha], by simp, by simp⟩))
  exact h2.step (.invalidate ⟨0, 4⟩)

theorem Session.get_overwritten :
    overwritten.cache.contains .zero = false ∧ overwritten.cache.contains .eight = true ∧
    ∀ b, (overwritten.cache.get literals overwritten.memory b).1.map (·.code) =
      (compile {} literals overwritten.memory b).map (·.draft.code) :=
  ⟨rfl, rfl, fun b =>
    (get_eq_compile_of_reachable closesRegions_literals reachable_overwritten rfl b).1⟩

end DualIssue
