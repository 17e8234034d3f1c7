import DualIssue.Proofs.Lockstep

set_option autoImplicit false

namespace DualIssue

section

variable {b c : Block}

theorem Block.addresses_of_first (h : b.first = c.first) (last : Address) :
    b.addresses last = c.addresses last := by
  simp only [addresses, h]

theorem Block.firstRead_of_first (h : b.first = c.first) (last : Address) :
    b.firstRead last = c.firstRead last := by
  simp only [firstRead, h]

theorem Options.delayOf_of_first (options : Options) (isa : InstructionSet) (m : Memory)
    (h : b.first = c.first) (last : Address) :
    options.delayOf isa m b last = options.delayOf isa m c last := by
  simp only [delayOf, Block.branchDelay, Block.staleRead, Block.isCountingLoop, h]

end

theorem Shape.follow_closing (shape : Shape) (s : Scoreboard) (e : Extent) :
    shape.follow (s.finish ++ e.jumpFixup) = .ok shape := by
  cases he : e.extended with
  | false =>
    simp [Extent.jumpFixup, he, Scoreboard.finish, step, require, Field.width, pushed, popped, bind,
      Except.bind]
  | true =>
    simp [Extent.jumpFixup, he, Scoreboard.finish, step, require, Field.width, pushed, popped, bind,
      Except.bind]

theorem Draft.emit_closing (d : Draft) (s : Scoreboard) (e : Extent) :
    d.emit (s.finish ++ e.jumpFixup) = .ok ⟨d.code ++ (s.finish ++ e.jumpFixup), d.shape⟩ :=
  emit_eq_ok_iff.2 ⟨d.shape.follow_closing s e, rfl⟩

def Compiled.endingAs (e : Extent) (done : Compiled) : Compiled where
  report := { done.report with extent := e }
  draft := ⟨done.draft.code ++ e.jumpFixup, done.draft.shape⟩
  issued := done.issued

theorem compile_eq_whole (options : Options) {isa : InstructionSet} {m : Memory} {b whole : Block}
    (hfirst : b.first = whole.first) (hlast : (b.extent isa m).last = (whole.extent isa m).last)
    (hwhole : (whole.extent isa m).extended = false) :
    compile options isa m b = (compile options isa m whole).map (·.endingAs (b.extent isa m)) := by
  have hfixup : (whole.extent isa m).jumpFixup = [] := by simp [Extent.jumpFixup, hwhole]
  simp only [compile, hlast, options.delayOf_of_first isa m hfirst, Block.addresses_of_first hfirst,
    Block.firstRead_of_first hfirst, hfirst]
  cases options.delayOf isa m whole (whole.extent isa m).last with
  | error stop => rfl
  | ok delay =>
    cases hp : (whole.addresses (whole.extent isa m).last).foldlM
        (Progress.step isa m delay.snapshot?) (.start options.latency) with
    | error stop => simp [hp, bind, Except.bind, Except.map]
    | ok p =>
      simp only [hp, Draft.emit_closing, bind, Except.bind, Except.map, mapError_ok]
      simp [hfixup, Compiled.endingAs]

namespace State

def passSlot (e : Extent) (s : State) : State :=
  if e.extended ∧ s.delayedJump = noJump then { s with delayedJump := e.last + 4 } else s

/-- Where execution goes on: at the target of a pending jump, or else behind the block. -/
def next (s : State) (behind : Address) : Address :=
  if s.delayedJump = noJump then behind else s.delayedJump

theorem read_passSlot (e : Extent) (s : State) {f : Field} (hf : f ≠ .delayedJump) :
    (s.passSlot e).read f = s.read f := by
  unfold passSlot
  split
  · cases f with
    | delayedJump => exact absurd rfl hf
    | _ => rfl
  · rfl

theorem delayedJump_passSlot {e : Extent} (he : e.extended = true) (s : State) :
    (s.passSlot e).delayedJump = s.next (e.last + 4) := by
  by_cases hj : s.delayedJump = noJump
  · simp [passSlot, next, he, hj]
  · simp [passSlot, next, hj]

theorem next_ne_noJump {behind : Address} (h : behind ≠ noJump) (s : State) : s.next behind ≠ noJump := by
  unfold next
  split
  · exact h
  · assumption

theorem next_passSlot {e : Extent} (he : e.extended = true) (h : e.last + 4 ≠ noJump) (s : State)
    (behind : Address) : (s.passSlot e).next behind = s.next (e.last + 4) := by
  have hjump := delayedJump_passSlot he s
  rw [next, hjump, if_neg (next_ne_noJump h s)]

end State

/-- Code with a jump over the delay slot behind it does what it did without, and faults where it did. -/
theorem Code.run_jumpFixup (x : Code) (e : Extent) (s : State) :
    (x ++ e.jumpFixup).run s = (x.run s).map (·.passSlot e) := by
  unfold run
  rw [Machine.exec_append]
  cases (Machine.start s).exec x with
  | error f => rfl
  | ok n =>
    simp only [bind, Except.bind, Machine.exec_jumpFixup]
    by_cases hs : n.skip = 0
    · cases hstack : n.stack <;> simp [Machine.finish, hs, hstack, State.passSlot, Except.map]
    · simp [Machine.finish, hs, Except.map]

theorem Block.EndsAt.behind_ne_noJump {b : Block} {last : Address} (h : b.EndsAt last) :
    last + 4 ≠ noJump := by
  have ha := h.aligned
  have hroom := h.room
  intro he
  have hn := congrArg UInt32.toNat he
  rw [UInt32.toNat_add] at hn
  simp [noJump] at hn
  omega

/-- A block cut behind a branch, and the same block with the delay slot. Both are refused for the same
reason, or both are compiled: from the same instructions, with reports that tell only that one was
extended and the other was not, into code that differs by the jump over the delay slot. From a state
where one of them runs the other does; both leave the same state but for the pending jump, which the
first one always leaves, and execution goes on at the same address. -/
theorem cut_behind_branch_agrees (options : Options) {isa : InstructionSet} {m : Memory} {b whole : Block}
    (hfirst : whole.first = b.first) (hlast : whole.last = b.last + 8)
    (hcut : (b.extent isa m).extended = true) (hwhole : (whole.extent isa m).extended = false) :
    (∃ stop, compile options isa m b = .error stop ∧ compile options isa m whole = .error stop) ∨
    ∃ done done', compile options isa m b = .ok done ∧ compile options isa m whole = .ok done' ∧
      done.issued = done'.issued ∧
      done.report.extent.extended = true ∧ done'.report.extent.extended = false ∧
      done.report = { done'.report with extent := { done'.report.extent with extended := true } } ∧
      done.draft.shape = done'.draft.shape ∧
      done.draft.code = done'.draft.code ++ [.const noJump, .push .delayedJump, .enter .eq,
        .const (b.last + 12), .pull .delayedJump, .leave] ∧
      ∀ s, ((∃ t, done.draft.code.run s = .ok t) ↔ ∃ u, done'.draft.code.run s = .ok u) ∧
        ∀ t u, done.draft.code.run s = .ok t → done'.draft.code.run s = .ok u →
          (∀ f, f ≠ .delayedJump → t.read f = u.read f) ∧ t.delayedJump ≠ noJump ∧
          t.next (b.last + 12) = u.next (b.last + 12) := by
  have hb : b.extent isa m = ⟨b.last + 8, true⟩ := by
    unfold Block.extent at hcut ⊢
    split at hcut
    · simp [*]
    · cases hcut
  have hw : whole.extent isa m = ⟨b.last + 8, false⟩ := by
    unfold Block.extent at hwhole ⊢
    split at hwhole
    · cases hwhole
    · simp [*]
  have hmap := compile_eq_whole options hfirst.symm (by rw [hb, hw]) hwhole
  cases hdone : compile options isa m whole with
  | error stop =>
    rw [hdone] at hmap
    exact .inl ⟨stop, hmap, rfl⟩
  | ok done' =>
    rw [hdone] at hmap
    have hextent : done'.report.extent = ⟨b.last + 8, false⟩ := by
      rcases compile_eq_ok_iff.1 hdone with ⟨_, _, _, -, -, -, rfl⟩
      exact hw
    have hadd : b.last + 8 + 4 = b.last + 12 := by rw [UInt32.add_assoc]; rfl
    have hbehind : (b.extent isa m).last + 4 = b.last + 12 := by rw [hb, ← hadd]
    have hne := (b.endsAt_extent isa m).behind_ne_noJump
    refine .inr ⟨done'.endingAs (b.extent isa m), done', hmap, rfl, rfl, hcut, by rw [hextent], ?_, rfl,
      ?_, ?_⟩
    · simp [Compiled.endingAs, hextent, hb]
    · simp [Compiled.endingAs, Extent.jumpFixup, hb, hadd]
    · intro s
      have hrun : (done'.endingAs (b.extent isa m)).draft.code.run s =
          (done'.draft.code.run s).map (·.passSlot (b.extent isa m)) := Code.run_jumpFixup _ _ s
      constructor
      · rw [hrun]
        cases done'.draft.code.run s <;> simp [Except.map]
      · intro t u ht hu
        rw [hrun, hu] at ht
        cases ht
        have hjump := State.delayedJump_passSlot hcut u
        have hnext := State.next_passSlot hcut hne u (b.last + 12)
        rw [hbehind] at hjump hnext hne
        refine ⟨fun f hf => u.read_passSlot _ hf, ?_, hnext⟩
        rw [hjump]
        exact State.next_ne_noJump hne u

namespace Sample

theorem cut_at_branch : ∃ b whole done done' t u, Block.ofRange 0 20 = .ok b ∧
    Block.ofRange 0 28 = .ok whole ∧ (b.extent isa memory).extended = true ∧
    (whole.extent isa memory).extended = false ∧ compile {} isa memory b = .ok done ∧
    compile {} isa memory whole = .ok done' ∧ done.issued = done'.issued ∧
    done.draft.code.run .initial = .ok t ∧ done'.draft.code.run .initial = .ok u ∧
    u.delayedJump = noJump ∧ t.delayedJump = 32 ∧ t.next 32 = u.next 32 := by
  have hdone : ∃ b whole done done' t u, Block.ofRange 0 20 = .ok b ∧ Block.ofRange 0 28 = .ok whole ∧
      whole.first = b.first ∧ whole.last = b.last + 8 ∧ b.last + 12 = 32 ∧
      (b.extent isa memory).extended = true ∧ (whole.extent isa memory).extended = false ∧
      compile {} isa memory b = .ok done ∧ compile {} isa memory whole = .ok done' ∧
      done.draft.code.run .initial = .ok t ∧ done'.draft.code.run .initial = .ok u ∧
      u.delayedJump = noJump ∧ t.delayedJump = 32 :=
    ⟨_, _, _, _, _, _, rfl, rfl, rfl, rfl, rfl, rfl, rfl, rfl, rfl, rfl, rfl, rfl, rfl⟩
  rcases hdone with ⟨b, whole, done, done', t, u, hb, hw, hfirst, hlast, hbehind, hcut, hwhole, hdone, hdone',
    ht, hu, hnone, hjump⟩
  rcases cut_behind_branch_agrees {} hfirst hlast hcut hwhole with ⟨stop, hstop, -⟩ | hboth
  · rw [hdone] at hstop
    cases hstop
  · rcases hboth with ⟨x, y, hx, hy, hissued, -, -, -, -, -, hruns⟩
    rw [hdone] at hx
    rw [hdone'] at hy
    cases hx
    cases hy
    have hnext := ((hruns .initial).2 t u ht hu).2.2
    rw [hbehind] at hnext
    exact ⟨b, whole, done, done', t, u, hb, hw, hcut, hwhole, hdone, hdone', hissued, ht, hu, hnone, hjump,
      hnext⟩

end Sample

end DualIssue
