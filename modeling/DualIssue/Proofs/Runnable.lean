import DualIssue.Proofs.Discipline
import DualIssue.Proofs.Lockstep
import Mathlib.Algebra.Group.Nat.Defs

set_option autoImplicit false

namespace DualIssue

namespace Code

def Balanced (code : Code) : Prop := Shape.empty.follow code = .ok .empty

theorem Balanced.append {x y : Code} (hx : x.Balanced) (hy : y.Balanced) : (x ++ y).Balanced := by
  rw [Balanced, Shape.follow_append, show Shape.empty.follow x = _ from hx]
  exact hy

theorem selfContained_nil : SelfContained [] := ⟨rfl, fun s => ⟨s, rfl⟩⟩

theorem SelfContained.append {x y : Code} (hx : x.SelfContained) (hy : y.SelfContained) :
    (x ++ y).SelfContained where
  balanced := Balanced.append hx.balanced hy.balanced
  runs s := by
    obtain ⟨t, ht⟩ := hx.runs s
    obtain ⟨u, hu⟩ := hy.runs t
    exact ⟨u, by rw [run_append ht, hu]⟩

theorem mentions_append (x y : Code) (f : Field) :
    (x ++ y).mentions f = (x.mentions f || y.mentions f) := by
  induction x with
  | nil => rfl
  | cons a x ih => simp only [List.cons_append, mentions_cons, ih, Bool.or_assoc]

/-- Copies one after the other, the second field of each into the first. -/
def moves (xs : List (Field × Field)) : Code := xs.flatMap fun x => move x.1 x.2

theorem moves_append (xs ys : List (Field × Field)) : moves (xs ++ ys) = moves xs ++ moves ys := by
  simp [moves]

theorem eq_of_mentions_move {dest src f : Field} (h : (move dest src).mentions f = true) :
    f = dest ∨ f = src := by
  cases hw : src.width <;>
    simp [move, hw, mentions, pushes, pulls, Action.pushes, Action.pulls] at h <;>
    exact h.elim (.inr ·.symm) (.inl ·.symm)

theorem exists_of_mentions_moves {xs : List (Field × Field)} {f : Field}
    (h : (moves xs).mentions f = true) : ∃ x ∈ xs, f = x.1 ∨ f = x.2 := by
  induction xs with
  | nil => simp [moves, mentions, pushes, pulls] at h
  | cons x xs ih =>
    rw [moves, List.flatMap_cons, mentions_append, Bool.or_eq_true] at h
    obtain h | h := h
    · exact ⟨x, by simp, eq_of_mentions_move h⟩
    · obtain ⟨y, hy, hf⟩ := ih h
      exact ⟨y, by simp [hy], hf⟩

theorem pushes_moves (xs : List (Field × Field)) (f : Field) :
    (moves xs).pushes f = xs.any (·.2 == f) := by
  induction xs with
  | nil => rfl
  | cons x xs ih =>
    rw [moves, List.flatMap_cons, pushes_append, List.any_cons, ← ih, moves]
    cases hw : x.2.width <;> simp [move, hw, pushes, Action.pushes]

theorem pulls_moves (xs : List (Field × Field)) (f : Field) :
    (moves xs).pulls f = xs.any (·.1 == f) := by
  induction xs with
  | nil => rfl
  | cons x xs ih =>
    rw [moves, List.flatMap_cons, pulls_append, List.any_cons, ← ih, moves]
    cases hw : x.2.width <;> simp [move, hw, Action.pulls]

theorem balanced_moves {xs : List (Field × Field)} (h : ∀ x ∈ xs, x.1.width = x.2.width) :
    (moves xs).Balanced := by
  induction xs with
  | nil => rfl
  | cons x xs ih =>
    exact Balanced.append (Shape.follow_move _ (h x (by simp))) (ih fun y hy => h y (by simp [hy]))

theorem selfContained_moves {xs : List (Field × Field)}
    (h : ∀ x ∈ xs, x.1.width = x.2.width ∧ x.1.Valid ∧ x.2.Valid) : (moves xs).SelfContained := by
  induction xs with
  | nil => exact selfContained_nil
  | cons x xs ih =>
    obtain ⟨hw, hd, hs⟩ := h x (by simp)
    refine SelfContained.append ⟨Shape.follow_move _ hw, fun s => ?_⟩ (ih fun y hy => h y (by simp [hy]))
    obtain ⟨t, ht, -⟩ := run_move s hw hd hs
    exact ⟨t, ht⟩

end Code

namespace Pair

variable (snapshot : Option Snapshot) (p : Pair)

def keeps : List (Field × Field) :=
  p.clash.toList.map (fun r => (.vfPreUp, .vf r)) ++
    (Snapshot.savedAt snapshot p.address).toList.map fun r => (.savedInt, .vi r)

def swaps : List (Field × Field) :=
  p.clash.toList.flatMap (fun r => [(.vfUpRes, .vf r), (.vf r, .vfPreUp)]) ++
    (Snapshot.usedAt snapshot p.address).toList.flatMap fun r =>
      [(.savedIntTemp, .vi r), (.vi r, .savedInt)]

def restores : List (Field × Field) :=
  (Snapshot.usedAt snapshot p.address).toList.map (fun r => (.vi r, .savedIntTemp)) ++
    p.clash.toList.map fun r => (.vf r, .vfUpRes)

theorem body_eq_moves (isa : InstructionSet) (t : Cycle) : p.body isa snapshot t =
    Code.moves (p.keeps snapshot) ++ ((p.upperIssue t).code isa ++ (Code.moves (p.swaps snapshot) ++
      ((p.lowerIssue t).code isa ++ Code.moves (p.restores snapshot)))) := by
  rw [body_eq]
  simp only [keeps, swaps, restores, Code.moves_append]
  cases p.clash <;> cases Snapshot.savedAt snapshot p.address <;>
    cases Snapshot.usedAt snapshot p.address <;>
    simp [Code.keep, Code.swap, Code.restore, Code.moves]

/-- The fields that are copied around the halves. -/
def Bracketed (f : Field) : Prop :=
  f.isScratch = true ∨ (∃ r ∈ p.clash, f = .vf r) ∨ ∃ n ∈ snapshot, f = .vi n.reg

def Brackets (xs : List (Field × Field)) : Prop :=
  ∀ x ∈ xs, x.1.width = x.2.width ∧ p.Bracketed snapshot x.1 ∧ p.Bracketed snapshot x.2

variable {snapshot : Option Snapshot} {p : Pair}

theorem bracketed_clash {r : Register} (h : r ∈ p.clash) : p.Bracketed snapshot (.vf r) :=
  .inr (.inl ⟨r, h, rfl⟩)

theorem bracketed_saved {r : Register} (h : r ∈ Snapshot.savedAt snapshot p.address) :
    p.Bracketed snapshot (.vi r) := by
  obtain ⟨n, hn, -, rfl⟩ := Snapshot.mem_savedAt.1 h
  exact .inr (.inr ⟨n, hn, rfl⟩)

theorem bracketed_used {r : Register} (h : r ∈ Snapshot.usedAt snapshot p.address) :
    p.Bracketed snapshot (.vi r) := by
  obtain ⟨n, hn, -, rfl⟩ := Snapshot.mem_usedAt.1 h
  exact .inr (.inr ⟨n, hn, rfl⟩)

theorem brackets_keeps : p.Brackets snapshot (p.keeps snapshot) := by
  intro x hx
  simp only [keeps, List.mem_append, List.mem_map, Option.mem_toList] at hx
  obtain ⟨r, hr, rfl⟩ | ⟨r, hr, rfl⟩ := hx
  · exact ⟨rfl, .inl rfl, bracketed_clash hr⟩
  · exact ⟨rfl, .inl rfl, bracketed_saved hr⟩

theorem brackets_swaps : p.Brackets snapshot (p.swaps snapshot) := by
  intro x hx
  simp only [swaps, List.mem_append, List.mem_flatMap, Option.mem_toList, List.mem_cons,
    List.not_mem_nil, or_false] at hx
  obtain ⟨r, hr, rfl | rfl⟩ | ⟨r, hr, rfl | rfl⟩ := hx
  · exact ⟨rfl, .inl rfl, bracketed_clash hr⟩
  · exact ⟨rfl, bracketed_clash hr, .inl rfl⟩
  · exact ⟨rfl, .inl rfl, bracketed_used hr⟩
  · exact ⟨rfl, bracketed_used hr, .inl rfl⟩

theorem brackets_restores : p.Brackets snapshot (p.restores snapshot) := by
  intro x hx
  simp only [restores, List.mem_append, List.mem_map, Option.mem_toList] at hx
  obtain ⟨r, hr, rfl⟩ | ⟨r, hr, rfl⟩ := hx
  · exact ⟨rfl, bracketed_used hr, .inl rfl⟩
  · exact ⟨rfl, bracketed_clash hr, .inl rfl⟩

theorem Bracketed.valid {f : Field} (h : p.Bracketed snapshot f) (hcheck : p.check = .ok ())
    (hreg : ∀ n ∈ snapshot, n.reg.toNat < viCount) : f.Valid := by
  obtain h | ⟨r, hr, rfl⟩ | ⟨n, hn, rfl⟩ := h
  · cases f <;> trivial
  · obtain ⟨rfl, -⟩ := clash_eq_some_iff.1 hr
    exact (floatsExist_of_check hcheck).2.2.2
  · exact hreg n hn

namespace Brackets

variable {xs : List (Field × Field)}

theorem balanced (h : p.Brackets snapshot xs) : (Code.moves xs).Balanced :=
  Code.balanced_moves fun x hx => (h x hx).1

theorem valid (h : p.Brackets snapshot xs) (hcheck : p.check = .ok ())
    (hreg : ∀ n ∈ snapshot, n.reg.toNat < viCount) :
    ∀ x ∈ xs, x.1.width = x.2.width ∧ x.1.Valid ∧ x.2.Valid := by
  intro x hx
  obtain ⟨hw, h1, h2⟩ := h x hx
  exact ⟨hw, h1.valid hcheck hreg, h2.valid hcheck hreg⟩

theorem selfContained (h : p.Brackets snapshot xs) (hcheck : p.check = .ok ())
    (hreg : ∀ n ∈ snapshot, n.reg.toNat < viCount) : (Code.moves xs).SelfContained :=
  Code.selfContained_moves (h.valid hcheck hreg)

theorem bracketed_of_mentions (h : p.Brackets snapshot xs) {f : Field}
    (hf : (Code.moves xs).mentions f = true) : p.Bracketed snapshot f := by
  obtain ⟨x, hx, rfl | rfl⟩ := Code.exists_of_mentions_moves hf
  · exact (h x hx).2.1
  · exact (h x hx).2.2

end Brackets

variable {isa : InstructionSet} {t : Cycle}

theorem balanced_body (hu : ((p.upperIssue t).code isa).Balanced)
    (hl : ((p.lowerIssue t).code isa).Balanced) : (p.body isa snapshot t).Balanced := by
  rw [body_eq_moves]
  exact brackets_keeps.balanced.append (hu.append (brackets_swaps.balanced.append
    (hl.append brackets_restores.balanced)))

theorem selfContained_body (hcheck : p.check = .ok ()) (hreg : ∀ n ∈ snapshot, n.reg.toNat < viCount)
    (hu : ((p.upperIssue t).code isa).SelfContained) (hl : ((p.lowerIssue t).code isa).SelfContained) :
    (p.body isa snapshot t).SelfContained := by
  rw [body_eq_moves]
  exact (brackets_keeps.selfContained hcheck hreg).append (hu.append
    ((brackets_swaps.selfContained hcheck hreg).append (hl.append
      (brackets_restores.selfContained hcheck hreg))))

theorem mentions_body {f : Field} (h : (p.body isa snapshot t).mentions f = true) :
    p.Bracketed snapshot f ∨ ((p.upperIssue t).code isa).mentions f = true ∨
      ((p.lowerIssue t).code isa).mentions f = true := by
  rw [body_eq_moves] at h
  simp only [Code.mentions_append, Bool.or_eq_true] at h
  obtain h | h | h | h | h := h
  · exact .inl (brackets_keeps.bracketed_of_mentions h)
  · exact .inr (.inl h)
  · exact .inl (brackets_swaps.bracketed_of_mentions h)
  · exact .inr (.inr h)
  · exact .inl (brackets_restores.bracketed_of_mentions h)

end Pair

theorem Scoreboard.disciplined_opening (s : Scoreboard) (lo hi : Effects) :
    (s.opening lo hi).Disciplined where
  follows := by cases hl : lo.writesQ <;> cases hh : hi.readsQ <;> simp only [opening, hl, hh] <;> rfl
  valid f hf := by
    cases f with
    | vf r | vi r =>
      cases hl : lo.writesQ <;> cases hh : hi.readsQ <;> rw [opening, hl, hh] at hf <;> cases hf
    | _ => trivial

theorem Scoreboard.disciplined_closing (s : Scoreboard) (e : Extent) :
    (s.finish ++ e.jumpFixup).Disciplined where
  follows := by cases he : e.extended <;> simp only [Extent.jumpFixup, he] <;> rfl
  valid f hf := by
    cases f with
    | vf r | vi r => cases he : e.extended <;> rw [Extent.jumpFixup, he] at hf <;> cases hf
    | _ => trivial

/-- A refusal that lies with the microcode: the code of its instructions is not to blame. -/
def Refusal.OfMicrocode (r : Refusal) : Prop := ∀ a, r ≠ .unbalancedStack a

def Stop.OfMicrocode : Stop → Prop
  | .refused r => r.OfMicrocode
  | .fault _ => False

theorem Refusal.OfMicrocode.stop (r : Refusal) (h : r.OfMicrocode) : (Stop.refused r).OfMicrocode := h

namespace Scoreboard

theorem issue_ends (s : Scoreboard) (a : Address) (lo hi : Effects) :
    Ends (fun code => s.opening lo hi = code) Refusal.OfMicrocode (s.issue a lo hi) := by
  cases hw : hi.writesQ with
  | true =>
    rw [issue, hw]
    intro b hb
    cases hb
  | false =>
    cases hr : lo.readsQ with
    | true =>
      rw [issue, hw, hr]
      intro b hb
      cases hb
    | false => exact .of_ok (issue_eq_ok_iff.2 ⟨hw, hr, rfl⟩) rfl

end Scoreboard

theorem Pair.check_ends (p : Pair) :
    Ends (fun _ => p.lo.missing = none ∧ p.hi.missing = none) Refusal.OfMicrocode p.check := by
  have hone : ∀ a e, Ends (fun _ => e.missing = none) Refusal.OfMicrocode (checkRegisters a e) := by
    intro a e
    cases he : e.missing with
    | none => exact .of_ok (a := ()) (by simp [checkRegisters, he]) rfl
    | some r =>
      rw [checkRegisters, he]
      intro b hb
      cases hb
  refine (hone _ _).bind fun _ hlo => ?_
  have hhi := hone (p.address + 4) p.hi
  cases hc : checkRegisters (p.address + 4) p.hi with
  | error r => exact hhi.error hc
  | ok u => exact ⟨hlo, hhi.ok hc⟩

theorem Pair.checkWrites_ends (p : Pair) :
    Ends (fun _ => True) Refusal.OfMicrocode p.checkWrites := by
  by_cases h : p.hi.destF ≠ 0 ∧ p.hi.destF = p.lo.destF
  · rw [checkWrites, if_pos h]
    intro b hb
    cases hb
  · rw [checkWrites, if_neg h]
    exact trivial

theorem Draft.emit_of_balanced {d : Draft} {piece : Code} (hd : d.shape = .empty)
    (hp : piece.Balanced) : d.emit piece = .ok ⟨d.code ++ piece, .empty⟩ :=
  emit_eq_ok_iff.2 ⟨by rw [hd]; exact hp, rfl⟩

theorem Progress.step_ends {isa : InstructionSet} {m : Memory} {snapshot : Option Snapshot}
    {p : Progress} {a : Address} (hp : p.draft.shape = .empty)
    (hu : (((Pair.decode isa m a).upperIssue p.scoreboard.time).code isa).Balanced)
    (hl : (((Pair.decode isa m a).lowerIssue p.scoreboard.time).code isa).Balanced) :
    Ends (fun q => q.draft.shape = .empty) Stop.OfMicrocode (p.step isa m snapshot a) := by
  refine ((Pair.check_ends _).mapError Refusal.OfMicrocode.stop).bind fun _ hregs => ?_
  refine ((Scoreboard.issue_ends _ _ _ _).mapError Refusal.OfMicrocode.stop).bind fun opening hopening => ?_
  refine ((Pair.checkWrites_ends _).mapError Refusal.OfMicrocode.stop).bind fun _ _ => ?_
  subst hopening
  obtain ⟨board, hboard⟩ := p.scoreboard.exists_retire hregs.1 hregs.2
  have hpiece : (p.scoreboard.opening (Pair.decode isa m a).lo (Pair.decode isa m a).hi ++
      (Pair.decode isa m a).body isa snapshot p.scoreboard.time).Balanced :=
    .append (Scoreboard.disciplined_opening _ _ _).selfContained.balanced (Pair.balanced_body hu hl)
  simp only [Draft.emit_of_balanced hp hpiece, hboard]
  exact rfl

def InstructionSet.SelfContained (isa : InstructionSet) : Prop := ∀ a w t, (isa.code a w t).SelfContained

section

variable {isa : InstructionSet} {options : Options} {m : Memory} {b : Block} {done : Compiled}

theorem compile_ends (hisa : isa.SelfContained) (options : Options) (m : Memory) (b : Block) :
    Ends (fun done => done.draft.shape = .empty) Stop.OfMicrocode (compile options isa m b) := by
  rcases (b.endsAt_extent isa m).exists_delayOf isa m options with ⟨_, hdelay⟩
  refine (Ends.of_ok (P := fun _ => True) hdelay trivial).bind fun delay _ => ?_
  refine (Ends.foldlM (P := fun p : Progress => p.draft.shape = .empty) ?_ rfl).bind fun p hp => ?_
  · intro p a _ hp
    exact Progress.step_ends hp (hisa _ _ _).balanced (hisa _ _ _).balanced
  · have hclose := (p.scoreboard.disciplined_closing (b.extent isa m)).selfContained.balanced
    simp only [Draft.emit_of_balanced hp hclose]
    exact rfl

theorem Progress.selfContained_piece (hisa : isa.SelfContained) {snapshot : Option Snapshot}
    (hreg : ∀ n ∈ snapshot, n.reg.toNat < viCount) {a : Address} {p q : Progress}
    (adv : p.Advance isa m snapshot a q) :
    (p.scoreboard.opening (Pair.decode isa m a).lo (Pair.decode isa m a).hi ++
      (Pair.decode isa m a).body isa snapshot p.scoreboard.time).SelfContained :=
  (Scoreboard.disciplined_opening _ _ _).selfContained.append
    (Pair.selfContained_body adv.check hreg (hisa _ _ _) (hisa _ _ _))

theorem Progress.selfContained_of_run (hisa : isa.SelfContained) {snapshot : Option Snapshot}
    (hreg : ∀ n ∈ snapshot, n.reg.toNat < viCount) {latency : Cycle} {xs : List Address} {p : Progress}
    (h : xs.foldlM (step isa m snapshot) (.start latency) = .ok p) : p.draft.code.SelfContained := by
  refine foldlM_induction (P := fun p : Progress => p.draft.code.SelfContained) ?_
    Code.selfContained_nil h
  intro p a q _ hpc hq
  have adv := advance_of_step hq
  rw [(Draft.emit_eq_ok_iff.1 adv.emit).2]
  exact hpc.append (selfContained_piece hisa hreg adv)

theorem selfContained_of_compile (hisa : isa.SelfContained) (h : compile options isa m b = .ok done) :
    done.draft.code.SelfContained := by
  have hreg := fun n hn => (compile_snapshot h (n := n) hn).1
  obtain ⟨delay, p, draft, -, hp, hdraft, rfl⟩ := compile_eq_ok_iff.1 h
  rw [(Draft.emit_eq_ok_iff.1 hdraft).2]
  exact (Progress.selfContained_of_run hisa hreg hp).append
    (p.scoreboard.disciplined_closing (b.extent isa m)).selfContained

theorem finish_of_compile (hisa : isa.SelfContained) (h : compile options isa m b = .ok done) :
    done.draft.finish = .ok done.draft.code :=
  compile_finish (fun _ _ _ => ⟨(hisa _ _ _).closesRegions, (hisa _ _ _).closesRegions⟩) h

theorem valid_of_compile (h : compile options isa m b = .ok done) {f : Field}
    (hf : done.draft.code.mentions f = true) :
    f.Valid ∨ ∃ i ∈ done.issued, (i.code isa).mentions f = true := by
  have hreg := fun n hn => (compile_snapshot h (n := n) hn).1
  obtain ⟨delay, p, draft, -, hp, hdraft, rfl⟩ := compile_eq_ok_iff.1 h
  have hpairs : p.draft.code.mentions f = true →
      f.Valid ∨ ∃ i ∈ p.issued, (i.code isa).mentions f = true := by
    refine foldlM_induction (P := fun p : Progress => p.draft.code.mentions f = true →
      f.Valid ∨ ∃ i ∈ p.issued, (i.code isa).mentions f = true) ?_ (fun h => by cases h) hp
    intro p a q _ hpc hq hf
    have adv := Progress.advance_of_step hq
    rw [(Draft.emit_eq_ok_iff.1 adv.emit).2] at hf
    simp only [Code.mentions_append, Bool.or_eq_true] at hf
    rw [adv.issued]
    obtain hf | hf | hf := hf
    · obtain hv | ⟨i, hi, hf⟩ := hpc hf
      · exact .inl hv
      · exact .inr ⟨i, by simp [hi], hf⟩
    · exact .inl ((Scoreboard.disciplined_opening _ _ _).valid f hf)
    · obtain hb | hf | hf := Pair.mentions_body hf
      · exact .inl (hb.valid adv.check hreg)
      · exact .inr ⟨_, by simp, hf⟩
      · exact .inr ⟨_, by simp, hf⟩
  rw [(Draft.emit_eq_ok_iff.1 hdraft).2, Code.mentions_append, Bool.or_eq_true] at hf
  obtain hf | hf := hf
  · exact hpairs hf
  · exact .inl ((p.scoreboard.disciplined_closing (b.extent isa m)).valid f hf)

theorem snapshot_ne_zero (h : compile options isa m b = .ok done) {n : Snapshot}
    (hn : done.report.snapshot = some n) : n.reg ≠ 0 := by
  obtain ⟨-, delay, hd, hs⟩ := branchDelay_of_compile h hn
  obtain ⟨-, -, -, hreads⟩ := (b.endsAt_extent isa m).of_branchDelay hd hs
  simp only [Effects.readsInt, Bool.and_eq_true, bne_iff_ne] at hreads
  exact hreads.1

end

/-- If the code of every instruction stands on its own, then compiling a block neither faults nor
finds the stack unbalanced, and compiled code can be finished and runs from every state. The code
keeps to the stack discipline, the fields that it names exist, those apart that an instruction named,
and the register of a snapshot is one of the fifteen that can be written. -/
theorem compile_gives_runnable_code {isa : InstructionSet} (hisa : isa.SelfContained)
    (options : Options) (m : Memory) (b : Block) :
    (∀ f, compile options isa m b ≠ .error (.fault f)) ∧
    (∀ a, compile options isa m b ≠ .error (.refused (.unbalancedStack a))) ∧
    ∀ done, compile options isa m b = .ok done →
      done.draft.finish = .ok done.draft.code ∧
      (∀ s, ∃ t, done.draft.code.run s = .ok t) ∧
      Shape.empty.follow done.draft.code = .ok .empty ∧
      (∀ f, done.draft.code.mentions f = true →
        f.Valid ∨ ∃ i ∈ done.issued, (i.code isa).mentions f = true) ∧
      ∀ n, done.report.snapshot = some n → 1 ≤ n.reg.toNat ∧ n.reg.toNat ≤ 15 := by
  have hends := compile_ends hisa options m b
  refine ⟨fun f hf => hends.error hf, fun a ha => hends.error ha a rfl, fun done h => ?_⟩
  have hcode := selfContained_of_compile hisa h
  refine ⟨?_, hcode.runs, hcode.balanced, fun f hf => valid_of_compile h hf, fun n hn => ?_⟩
  · rw [Draft.finish, hends.ok h]
    rfl
  · have hlt : n.reg.toNat < 16 := (compile_snapshot h hn).1
    have hne : n.reg.toNat ≠ 0 := fun h0 => snapshot_ne_zero h hn (UInt8.toNat_inj.1 h0)
    omega

namespace Sample

theorem selfContained : isa.SelfContained := by
  intro a w t
  simp only [isa]
  split
  · exact ⟨rfl, fun _ => ⟨_, rfl⟩⟩
  · split
    · exact ⟨rfl, fun _ => ⟨_, rfl⟩⟩
    · split
      · exact ⟨rfl, fun _ => ⟨_, rfl⟩⟩
      · exact ⟨rfl, fun _ => ⟨_, rfl⟩⟩

theorem runnable_with_prior_before : ∃ b done, Block.ofRange 16 20 = .ok b ∧
    compile {} isa memory b = .ok done ∧ done.report.snapshot = some ⟨1, 16, 16⟩ ∧
    done.draft.finish = .ok done.draft.code ∧ ∀ s, ∃ t, done.draft.code.run s = .ok t := by
  have hdone : ∃ b done, Block.ofRange 16 20 = .ok b ∧ compile {} isa memory b = .ok done ∧
      done.report.snapshot = some ⟨1, 16, 16⟩ := ⟨_, _, rfl, rfl, rfl⟩
  obtain ⟨b, done, hb, hcompile, hsnapshot⟩ := hdone
  obtain ⟨hfinish, hruns, -⟩ := (compile_gives_runnable_code selfContained {} memory b).2.2 done hcompile
  exact ⟨b, done, hb, hcompile, hsnapshot, hfinish, hruns⟩

end Sample

end DualIssue
