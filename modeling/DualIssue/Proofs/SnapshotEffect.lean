import DualIssue.Proofs.Schedule
import DualIssue.Proofs.Scratch

set_option autoImplicit false

namespace DualIssue

def Field.Settled (f : Field) : Prop := f ≠ .savedInt ∧ f ≠ .savedIntTemp ∧ f ≠ .delayedJump

namespace Code

/-- From states that agree on `A` both codes run, to states that agree on `A`. -/
def SameOn (A : Field → Prop) (x y : Code) : Prop :=
  ∀ s t : State, s.Agree A t → ∃ s' t', x.run s = .ok s' ∧ y.run t = .ok t' ∧ s'.Agree A t'

def Spares (A : Field → Prop) (x : Code) : Prop := ∀ s : State, ∃ t, x.run s = .ok t ∧ t.Agree A s

variable {A : Field → Prop}

namespace SameOn

theorem of_spares {x y : Code} (hx : x.Spares A) (hy : y.Spares A) : SameOn A x y := by
  intro s t hst
  rcases hx s with ⟨s', hs', hs⟩
  rcases hy t with ⟨t', ht', ht⟩
  refine ⟨s', t', hs', ht', ?_⟩
  intro f hf
  rw [hs f hf, hst f hf, ht f hf]

theorem of_pushes {x : Code} (hx : x.SelfContained) (h : ∀ f, x.pushes f = true → A f) :
    SameOn A x x := by
  intro s t hst
  rcases hx.runs s with ⟨s', hs'⟩
  rcases (ReadsOwn.of_pushes h).run_agree hst hs' with ⟨t', ht', hagree⟩
  exact ⟨s', t', hs', ht', hagree⟩

theorem append {x y u v : Code} (hxy : SameOn A x y) (huv : SameOn A u v) :
    SameOn A (x ++ u) (y ++ v) := by
  intro s t hst
  rcases hxy s t hst with ⟨s', t', hs', ht', hst'⟩
  rcases huv s' t' hst' with ⟨s'', t'', hs'', ht'', hagree⟩
  exact ⟨s'', t'', by rw [run_append hs', hs''], by rw [run_append ht', ht''], hagree⟩

theorem flatMap {α : Type} {f g : α → Code} {xs : List α} (h : ∀ x ∈ xs, SameOn A (f x) (g x)) :
    SameOn A (xs.flatMap f) (xs.flatMap g) := by
  induction xs with
  | nil => exact fun s t hst => ⟨s, t, rfl, rfl, hst⟩
  | cons x xs ih =>
    rw [List.flatMap_cons, List.flatMap_cons]
    exact (h x (by simp)).append (ih fun y hy => h y (by simp [hy]))

end SameOn

section

variable {r : Option Register}

theorem spares_keep (hr : ∀ q ∈ r, q.toNat < viCount) :
    (keep .savedInt (r.map .vi)).Spares Field.Settled := by
  intro s
  rcases run_keep .savedInt (r.map .vi) s trivial (by simpa [Field.Valid, Field.width] using hr) with
    ⟨t, ht, hother, -⟩
  exact ⟨t, ht, fun f hf => hother f hf.1⟩

/-- Code that sees the saved value in place of an integer register, and whose only trace is a pending
jump, leaves behind no other trace: the register gets its value back. -/
theorem spares_bracket (hr : ∀ q ∈ r, q.toNat < viCount) {x : Code} (hx : x.SelfContained)
    (hjump : ∀ f, x.pulls f = true → f = .delayedJump) :
    (swap .savedIntTemp .savedInt (r.map .vi) ++
      (x ++ restore .savedIntTemp (r.map .vi))).Spares Field.Settled := by
  have hpulls : ∀ f, f ≠ .delayedJump → x.pulls f = false :=
    fun f hf => Bool.eq_false_iff.2 fun hp => hf (hjump f hp)
  intro s
  rcases run_swap .savedIntTemp .savedInt (r.map .vi) s trivial trivial (by simp)
    (by simpa [Field.Valid, Field.width] using hr) with ⟨t, ht, hother, hswap⟩
  rcases hx.runs t with ⟨u, hu⟩
  rcases run_restore .savedIntTemp (r.map .vi) u trivial
    (by simpa [Field.Valid, Field.width] using hr) with ⟨v, hv, hrest, hback⟩
  refine ⟨v, by rw [run_append ht, run_append hu, hv], ?_⟩
  rintro f ⟨-, htemp, hf⟩
  by_cases hmem : f ∈ r.map Field.vi
  · rw [hback f hmem, read_run hu (hpulls _ (by simp)), (hswap f hmem).1]
  · rw [hrest f hmem, read_run hu (hpulls f hf), hother f htemp hmem]

end

end Code

/-- Instructions stand on their own and know nothing of saved registers and pending jumps, and all
that a conditional branch leaves behind is a pending jump. -/
structure InstructionSet.BranchesByJump (isa : InstructionSet) : Prop where
  alone : isa.SelfContained
  unsaved : ∀ a w t, (isa.code a w t).mentions .savedInt = false ∧
    (isa.code a w t).mentions .savedIntTemp = false
  unread : ∀ a w t, (isa.code a w t).pushes .delayedJump = false
  jumps : ∀ a w t, a.toNat % 8 = 0 → isConditionalBranch w = true →
    ∀ f, (isa.code a w t).pulls f = true → f = .delayedJump

namespace InstructionSet.BranchesByJump

variable {isa : InstructionSet}

theorem settled (h : isa.BranchesByJump) {a : Address} {w : Word} {t : Cycle} {f : Field}
    (hf : (isa.code a w t).pushes f = true) : f.Settled := by
  rcases h.unsaved a w t with ⟨hsaved, htemp⟩
  have hjump := h.unread a w t
  simp only [Code.mentions, Bool.or_eq_false_iff] at hsaved htemp
  refine ⟨?_, ?_, ?_⟩
  · rintro rfl
    simp [hsaved.1] at hf
  · rintro rfl
    simp [htemp.1] at hf
  · rintro rfl
    simp [hjump] at hf

theorem sameOn_code (h : isa.BranchesByJump) (i : Issue) :
    Code.SameOn Field.Settled (i.code isa) (i.code isa) :=
  .of_pushes (h.alone _ _ _) fun _ => h.settled

end InstructionSet.BranchesByJump

namespace Pair

variable {isa : InstructionSet} {p : Pair} {t : Cycle}

def lowerBracketed (isa : InstructionSet) (snapshot : Option Snapshot) (p : Pair) (t : Cycle) : Code :=
  let used := (Snapshot.usedAt snapshot p.address).map Field.vi
  Code.swap .savedIntTemp .savedInt used ++ ((p.lowerIssue t).code isa ++ Code.restore .savedIntTemp used)

theorem body_eq_around (isa : InstructionSet) (snapshot : Option Snapshot) (p : Pair) (t : Cycle) :
    p.body isa snapshot t = Code.moves (p.keeps none) ++
      (Code.keep .savedInt ((Snapshot.savedAt snapshot p.address).map .vi) ++
      ((p.upperIssue t).code isa ++ (Code.moves (p.swaps none) ++
      (p.lowerBracketed isa snapshot t ++ Code.moves (p.restores none))))) := by
  rw [body_eq]
  cases hc : p.clash <;>
    simp [keeps, swaps, restores, lowerBracketed, hc, Snapshot.savedAt, Snapshot.usedAt, Code.keep,
      Code.swap, Code.restore, Code.moves]

theorem sameOn_moves {xs : List (Field × Field)} (hxs : p.Brackets none xs) (hcheck : p.check = .ok ())
    (hsrc : ∀ x ∈ xs, x.2.Settled) : Code.SameOn Field.Settled (Code.moves xs) (Code.moves xs) := by
  refine .of_pushes (hxs.selfContained hcheck (by simp)) ?_
  intro f hf
  rw [Code.pushes_moves, List.any_eq_true] at hf
  rcases hf with ⟨x, hx, hf⟩
  exact beq_iff_eq.1 hf ▸ hsrc x hx

section

variable {snapshot : Option Snapshot}

theorem sameOn_saving (hreg : ∀ n ∈ snapshot, n.reg.toNat < viCount) (a : Address) :
    Code.SameOn Field.Settled (Code.keep .savedInt ((Snapshot.savedAt snapshot a).map .vi))
      (Code.keep .savedInt ((Snapshot.savedAt none a).map .vi)) := by
  refine .of_spares (Code.spares_keep ?_) (Code.spares_keep (by simp [Snapshot.savedAt]))
  intro r hr
  rcases Snapshot.mem_savedAt.1 hr with ⟨n, hn, -, rfl⟩
  exact hreg n hn

/-- A lower half that uses the saved value is a branch: it differs in the jump it asks for. -/
theorem sameOn_lowerBracketed (h : isa.BranchesByJump) (hreg : ∀ n ∈ snapshot, n.reg.toNat < viCount)
    (hbranch : ∀ n ∈ snapshot, p.address = n.useAt →
      p.address.toNat % 8 = 0 ∧ isConditionalBranch p.lower = true) :
    Code.SameOn Field.Settled (p.lowerBracketed isa snapshot t) (p.lowerBracketed isa none t) := by
  unfold lowerBracketed
  cases hused : Snapshot.usedAt snapshot p.address with
  | none => simpa [Snapshot.usedAt, Code.swap, Code.restore] using h.sameOn_code _
  | some r =>
    rcases Snapshot.mem_usedAt.1 hused with ⟨n, hn, huse, rfl⟩
    rcases hbranch n hn huse with ⟨haligned, hcond⟩
    have hjump := h.jumps _ _ t haligned hcond
    refine .of_spares (Code.spares_bracket ?_ (h.alone _ _ _) hjump)
      (Code.spares_bracket (by simp [Snapshot.usedAt]) (h.alone _ _ _) hjump)
    simpa using hreg n hn

theorem sameOn_body (h : isa.BranchesByJump) (hcheck : p.check = .ok ())
    (hreg : ∀ n ∈ snapshot, n.reg.toNat < viCount)
    (hbranch : ∀ n ∈ snapshot, p.address = n.useAt →
      p.address.toNat % 8 = 0 ∧ isConditionalBranch p.lower = true) :
    Code.SameOn Field.Settled (p.body isa snapshot t) (p.body isa none t) := by
  rw [body_eq_around, body_eq_around isa none]
  refine .append (sameOn_moves brackets_keeps hcheck ?_) (.append (sameOn_saving hreg _)
    (.append (h.sameOn_code _) (.append (sameOn_moves brackets_swaps hcheck ?_)
      (.append (sameOn_lowerBracketed h hreg hbranch) (sameOn_moves brackets_restores hcheck ?_)))))
  · simp [keeps, Snapshot.savedAt, Field.Settled]
  · cases hc : p.clash <;> simp [swaps, hc, Snapshot.usedAt, Field.Settled]
  · simp [restores, Snapshot.usedAt, Field.Settled]

end

end Pair

theorem Scoreboard.sameOn_opening (s : Scoreboard) (lo hi : Effects) :
    Code.SameOn Field.Settled (s.opening lo hi) (s.opening lo hi) := by
  refine .of_pushes (s.disciplined_opening lo hi).selfContained ?_
  intro f hf
  have hjump : (s.opening lo hi).pushes .delayedJump = false := by
    cases hl : lo.writesQ <;> cases hh : hi.readsQ <;> simp only [opening, hl, hh] <;> rfl
  have hscratch := s.avoidsScratch_opening lo hi f (by simp [Code.mentions, hf])
  refine ⟨?_, ?_, ?_⟩
  · rintro rfl
    cases hscratch
  · rintro rfl
    cases hscratch
  · rintro rfl
    rw [hjump] at hf
    cases hf

theorem Scoreboard.sameOn_closing (s : Scoreboard) (e : Extent) :
    Code.SameOn Field.Settled (s.finish ++ e.jumpFixup) (s.finish ++ e.jumpFixup) := by
  intro t u htu
  have hclock : t.pipeTime = u.pipeTime := by
    have h := htu .pipeTime ⟨by simp, by simp, by simp⟩
    simpa [State.read, Field.width, State.word, Except.map] using h
  refine ⟨_, _, State.run_closing s e t, State.run_closing s e u, ?_⟩
  intro f hf
  simp only [State.read_close, hclock, hf.2.2, false_and, if_false, htu f hf]

section

variable {options : Options} {isa : InstructionSet} {m : Memory} {b : Block} {done : Compiled}

theorem InstructionSet.SelfContained.accepted (h : isa.SelfContained) : isa.Accepted :=
  fun a w t => ⟨.empty, (h a w t).balanced, rfl⟩

theorem isConditionalBranch_of_compile (h : compile options isa m b = .ok done) {n : Snapshot}
    (hn : done.report.snapshot = some n) :
    n.useAt.toNat % 8 = 0 ∧ isConditionalBranch (m.word n.useAt) = true := by
  have hend := b.endsAt_extent isa m
  have ha := hend.aligned
  rcases compile_snapshot h hn with ⟨-, -, huse, -⟩
  rcases branchDelay_of_compile h hn with ⟨-, delay, hd, hs⟩
  rcases (Block.snapshot_iff_of_branchDelay hd).1 hs with ⟨branch, r, hstale, -, rfl⟩
  rcases hend.staleRead_eq_some_iff.1 hstale with ⟨-, -, -, hbranch, -⟩
  exact ⟨by omega, hbranch⟩

theorem snapshot_eq_none_of_compile (h : compile options isa m b = .ok done)
    (hoff : options.branchDelay = false) : done.report.snapshot = none := by
  cases hn : done.report.snapshot with
  | none => rfl
  | some n =>
    rcases branchDelay_of_compile h hn with ⟨hon, -⟩
    rw [hoff] at hon
    cases hon

theorem sameOn_of_compile (h : isa.BranchesByJump) {latency : Cycle} {on off : Compiled}
    (hon : compile ⟨latency, true⟩ isa m b = .ok on) (hoff : compile ⟨latency, false⟩ isa m b = .ok off) :
    Code.SameOn Field.Settled on.draft.code off.draft.code := by
  have hs := scheduled_of_compile hon
  rw [hs.code, (scheduled_of_compile hoff).code, snapshot_eq_none_of_compile hoff rfl]
  refine .append (.flatMap ?_) (Scoreboard.sameOn_closing _ _)
  intro k hk
  refine .append (Scoreboard.sameOn_opening _ _ _) (Pair.sameOn_body h (hs.checked k (List.mem_range.1 hk))
    (fun n hn => (compile_snapshot hon hn).1) ?_)
  intro n hn huse
  have hbranch := isConditionalBranch_of_compile hon hn
  rw [← huse] at hbranch
  exact hbranch

end

/-- Regard to old registers changes how a branch is decided and nothing else. Whether it is paid or
not, a block is refused for the same reason, or the same instructions are issued at the same times and
the codes run from every state to states that differ in the pending jump and the places where a
register is saved, at most. Where no snapshot is needed the codes are the same. -/
theorem snapshot_changes_only_the_jump {isa : InstructionSet} (h : isa.BranchesByJump) (latency : Cycle)
    (m : Memory) (b : Block) :
    (∃ stop, compile ⟨latency, true⟩ isa m b = .error stop ∧
      compile ⟨latency, false⟩ isa m b = .error stop) ∨
    ∃ on off, compile ⟨latency, true⟩ isa m b = .ok on ∧ compile ⟨latency, false⟩ isa m b = .ok off ∧
      on.issued = off.issued ∧ on.report.extent = off.report.extent ∧
      on.report.pairs = off.report.pairs ∧ on.report.time = off.report.time ∧
      on.draft.finish = .ok on.draft.code ∧ off.draft.finish = .ok off.draft.code ∧
      (∀ s, ∃ t u, on.draft.code.run s = .ok t ∧ off.draft.code.run s = .ok u ∧
        ∀ f, f ≠ .savedInt → f ≠ .savedIntTemp → f ≠ .delayedJump → t.read f = u.read f) ∧
      (on.report.snapshot = none → on.draft.code = off.draft.code) := by
  have haccepted : b.Accepted isa m := h.alone.accepted.block m b
  cases hon : compile ⟨latency, true⟩ isa m b with
  | error stop =>
    rcases (compile_ends_by_tests haccepted).error hon with ⟨r, rfl, hr⟩
    exact .inl ⟨.refused r, rfl, compile_of_refusal haccepted hr⟩
  | ok on =>
    right
    have hpass := (compile_ends_by_tests haccepted).ok hon
    have hdone : ∃ done, compile ⟨latency, false⟩ isa m b = .ok done := compile_of_pass haccepted hpass
    rcases hdone with ⟨off, hoff⟩
    have hs := scheduled_of_compile hon
    have hs' := scheduled_of_compile hoff
    refine ⟨on, off, rfl, hoff, ?_, ?_, ?_, ?_, finish_of_compile h.alone hon,
      finish_of_compile h.alone hoff, ?_, ?_⟩
    · rw [hs.issued, hs'.issued]
    · rw [hs.extent, hs'.extent]
    · rw [hs.pairs, hs'.pairs]
    · rw [hs.time, hs'.time]
    · intro s
      rcases sameOn_of_compile h hon hoff s s (fun _ _ => rfl) with ⟨t, u, ht, hu, hagree⟩
      exact ⟨t, u, ht, hu, fun f hsaved htemp hjump => hagree f ⟨hsaved, htemp, hjump⟩⟩
    · intro hnone
      rw [hs.code, hs'.code, hnone, snapshot_eq_none_of_compile hoff rfl]

namespace Sample

theorem branchesByJump : isa.BranchesByJump where
  alone := selfContained
  unsaved a w t := by
    have hnone : ∀ f : Field, f.isScratch = true → (isa.code a w t).mentions f = false := by
      intro f hf
      simp [Code.mentions, (avoidsScratch a w t).unused hf]
    exact ⟨hnone _ rfl, hnone _ rfl⟩
  unread a w t := by
    simp only [isa]
    split
    · rfl
    · split
      · rfl
      · split <;> rfl
  jumps a w t ha hw f hf := by
    have hlower : a.toNat % 8 ≠ 4 := by omega
    have h1 : w ≠ 1 := by
      rintro rfl
      cases hw
    have h2 : w ≠ 2 := by
      rintro rfl
      cases hw
    have hcode : isa.code a w t = [.push (.vi 1), .pull .delayedJump] := by simp [isa, hlower, h1, h2]
    rw [hcode] at hf
    exact (by simpa [Action.pulls] using hf : Field.delayedJump = f).symm

theorem jump_through_old_register : ∃ b on off t u, Block.ofRange 0 20 = .ok b ∧
    compile ⟨4, true⟩ isa counting b = .ok on ∧ compile ⟨4, false⟩ isa counting b = .ok off ∧
    on.report.snapshot = some ⟨1, 0, 16⟩ ∧ off.report.snapshot = none ∧ on.issued = off.issued ∧
    on.draft.code.run .initial = .ok t ∧ off.draft.code.run .initial = .ok u ∧
    t.delayedJump = 0 ∧ u.delayedJump = 32 ∧
    ∀ f, f ≠ .savedInt → f ≠ .savedIntTemp → f ≠ .delayedJump → t.read f = u.read f := by
  have hdone : ∃ b on off t u, Block.ofRange 0 20 = .ok b ∧
      compile ⟨4, true⟩ isa counting b = .ok on ∧ compile ⟨4, false⟩ isa counting b = .ok off ∧
      on.report.snapshot = some ⟨1, 0, 16⟩ ∧ off.report.snapshot = none ∧
      on.draft.code.run .initial = .ok t ∧ off.draft.code.run .initial = .ok u ∧
      t.delayedJump = 0 ∧ u.delayedJump = 32 :=
    ⟨_, _, _, _, _, rfl, rfl, rfl, rfl, rfl, rfl, rfl, rfl, rfl⟩
  rcases hdone with ⟨b, on, off, t, u, hb, hon, hoff, hsome, hnone, ht, hu, hold, hnew⟩
  rcases snapshot_changes_only_the_jump branchesByJump 4 counting b with ⟨stop, hstop, -⟩ | hboth
  · rw [hon] at hstop
    cases hstop
  · rcases hboth with ⟨x, y, hx, hy, hissued, -, -, -, -, -, hruns, -⟩
    rw [hon] at hx
    rw [hoff] at hy
    cases hx
    cases hy
    rcases hruns .initial with ⟨_, _, ht', hu', hagree⟩
    rw [ht] at ht'
    rw [hu] at hu'
    cases ht'
    cases hu'
    exact ⟨b, on, off, t, u, hb, hon, hoff, hsome, hnone, hissued, ht, hu, hold, hnew, hagree⟩

end Sample

end DualIssue
