import DualIssue.Proofs.Discipline

/-!
Structured code. A program is put together from primitive actions by sequencing and by conditional
regions, and its meaning follows its tree. Code is the flat form, in which a region that is not entered
is passed over by counting. Main statement: flat code runs as the program it comes from means, and any
other code runs as well: a loop that jumps behind the regions it does not enter is through with it after
as many turns as there are actions at most. An end that closes no region does nothing, and the run
gives up exactly at a region that it does not enter and whose end is missing.
-/

set_option autoImplicit false

namespace DualIssue

def Condition.Holds (c : Condition) (a b : Word) : Prop :=
  match c with
  | .eq => a.toNat = b.toNat
  | .ne => a.toNat ≠ b.toNat
  | .lt => a.toNat < b.toNat
  | .ge => b.toNat ≤ a.toNat

instance (c : Condition) (a b : Word) : Decidable (c.Holds a b) :=
  match c with
  | .eq => inferInstanceAs (Decidable (a.toNat = b.toNat))
  | .ne => inferInstanceAs (Decidable (a.toNat ≠ b.toNat))
  | .lt => inferInstanceAs (Decidable (a.toNat < b.toNat))
  | .ge => inferInstanceAs (Decidable (b.toNat ≤ a.toNat))

theorem Condition.holds_iff {c : Condition} {a b : Word} : c.holds a b = true ↔ c.Holds a b := by
  cases c <;> simp [holds, Holds, UInt32.toNat_inj, UInt32.lt_iff_toNat_lt, UInt32.le_iff_toNat_le]

inductive Primitive where
  | push (f : Field)
  | pull (f : Field)
  | pushVec (f : Field)
  | pullVec (f : Field)
  | const (w : Word)
  | add
  | addVec
  deriving DecidableEq, Repr

namespace Primitive

def action : Primitive → Action
  | .push f => .push f
  | .pull f => .pull f
  | .pushVec f => .pushVec f
  | .pullVec f => .pullVec f
  | .const w => .const w
  | .add => .add
  | .addVec => .addVec

def eval (p : Primitive) (s : State) (stack : List Value) : Except Fault (State × List Value) :=
  match p with
  | .push f => do
    let w ← s.word f
    .ok (s, .word w :: stack)
  | .pull f => do
    let (w, rest) ← Machine.popWord stack
    let t ← s.setWord f w
    .ok (t, rest)
  | .pushVec f => do
    let v ← s.quad f
    .ok (s, .quad v :: stack)
  | .pullVec f => do
    let (v, rest) ← Machine.popQuad stack
    let t ← s.setQuad f v
    .ok (t, rest)
  | .const w => .ok (s, .word w :: stack)
  | .add => do
    let (b, rest) ← Machine.popWord stack
    let (a, rest) ← Machine.popWord rest
    .ok (s, .word (a + b) :: rest)
  | .addVec => do
    let (b, rest) ← Machine.popQuad stack
    let (a, rest) ← Machine.popQuad rest
    .ok (s, .quad (a.add b) :: rest)

end Primitive

section

variable (s : State) (f : Field)

theorem State.word_ends : Ends (fun _ => True) (· ≠ .unclosedRegion) (s.word f) := by
  cases f with
  | vi r => by_cases h : r.toNat < viCount <;> simp [word, Table.get, h, Ends]
  | _ => simp [word, Ends]

theorem State.setWord_ends (w : Word) : Ends (fun _ => True) (· ≠ .unclosedRegion) (s.setWord f w) := by
  cases f with
  | vi r => by_cases h : r.toNat < viCount <;> simp [setWord, Table.set, h, Ends, bind, Except.bind]
  | _ => simp [setWord, Ends]

theorem State.quad_ends : Ends (fun _ => True) (· ≠ .unclosedRegion) (s.quad f) := by
  cases f with
  | vf r => by_cases h : r.toNat < vfCount <;> simp [quad, Table.get, h, Ends]
  | _ => simp [quad, Ends]

theorem State.setQuad_ends (v : Quad) : Ends (fun _ => True) (· ≠ .unclosedRegion) (s.setQuad f v) := by
  cases f with
  | vf r => by_cases h : r.toNat < vfCount <;> simp [setQuad, Table.set, h, Ends, bind, Except.bind]
  | _ => simp [setQuad, Ends]

end

theorem Primitive.eval_ends (p : Primitive) (s : State) (stack : List Value) :
    Ends (fun _ => True) (· ≠ .unclosedRegion) (p.eval s stack) := by
  have hword : ∀ stack, Ends (fun _ => True) (· ≠ .unclosedRegion) (Machine.popWord stack) := by
    intro stack
    unfold Machine.popWord
    split <;> simp [Ends]
  have hquad : ∀ stack, Ends (fun _ => True) (· ≠ .unclosedRegion) (Machine.popQuad stack) := by
    intro stack
    unfold Machine.popQuad
    split <;> simp [Ends]
  cases p with
  | push f => exact (s.word_ends f).bind fun _ _ => trivial
  | pull f => exact (hword stack).bind fun r _ => (s.setWord_ends f r.1).bind fun _ _ => trivial
  | pushVec f => exact (s.quad_ends f).bind fun _ _ => trivial
  | pullVec f => exact (hquad stack).bind fun r _ => (s.setQuad_ends f r.1).bind fun _ _ => trivial
  | const w => exact trivial
  | add => exact (hword stack).bind fun r _ => (hword r.2).bind fun _ _ => trivial
  | addVec => exact (hquad stack).bind fun r _ => (hquad r.2).bind fun _ _ => trivial

inductive Program where
  | done
  | act (p : Primitive)
  | seq (first second : Program)
  | region (c : Condition) (body : Program)
  deriving DecidableEq, Repr

namespace Program

def flatten : Program → Code
  | .done => []
  | .act p => [p.action]
  | .seq x y => x.flatten ++ y.flatten
  | .region c body => .enter c :: (body.flatten ++ [.leave])

/-- What the program makes of a state and a stack. A region is entered if its condition holds of the two
words on top, and has no effect otherwise. -/
def eval : Program → State → List Value → Except Fault (State × List Value)
  | .done, s, stack => .ok (s, stack)
  | .act p, s, stack => p.eval s stack
  | .seq x y, s, stack => do
    let (t, rest) ← x.eval s stack
    y.eval t rest
  | .region c body, s, stack => do
    let (b, rest) ← Machine.popWord stack
    let (a, rest) ← Machine.popWord rest
    if c.Holds a b then body.eval s rest else .ok (s, rest)

def run (p : Program) (s : State) : Except Fault State := do
  let (t, stack) ← p.eval s []
  if stack.isEmpty then .ok t else .error .leftoverStack

end Program

namespace Machine

def active (r : State × List Value) : Machine := ⟨r.1, r.2, 0⟩

theorem step_primitive (p : Primitive) (s : State) (stack : List Value) :
    (active (s, stack)).step p.action = active <$> p.eval s stack := by
  rw [step_of_skip_zero rfl]
  cases p <;> simp only [Primitive.eval, map_bind] <;> rfl

theorem step_enter (c : Condition) (a b : Word) (s : State) (stack : List Value) :
    (active (s, .word b :: .word a :: stack)).step (.enter c) =
      .ok ⟨s, stack, if c.Holds a b then 0 else 1⟩ := by
  rw [step_of_skip_zero rfl]
  simp only [perform, active, popWord, bind, Except.bind, Condition.holds_iff]

theorem exec_skipped_flatten (p : Program) (s : State) (stack : List Value) (k : Nat) :
    exec ⟨s, stack, k + 1⟩ p.flatten = .ok ⟨s, stack, k + 1⟩ := by
  induction p generalizing k with
  | done => rfl
  | act p => cases p <;> rfl
  | seq x y hx hy =>
    rw [Program.flatten, exec_append, hx]
    exact hy k
  | region c body ih =>
    rw [Program.flatten, exec_cons]
    show exec ⟨s, stack, k + 2⟩ (body.flatten ++ [.leave]) = _
    rw [exec_append, ih]
    rfl

theorem exec_flatten (p : Program) (s : State) (stack : List Value) :
    (active (s, stack)).exec p.flatten = active <$> p.eval s stack := by
  induction p generalizing s stack with
  | done => rfl
  | act p =>
    rw [Program.flatten, exec_cons, step_primitive, Program.eval]
    cases p.eval s stack <;> rfl
  | seq x y hx hy =>
    rw [Program.flatten, exec_append, hx, Program.eval, map_bind, bind_map_left]
    exact bind_congr fun r => hy r.1 r.2
  | region c body ih =>
    rw [Program.flatten, exec_cons, step_of_skip_zero rfl, Program.eval, map_bind, perform, bind_assoc]
    refine bind_congr fun p => ?_
    simp only [map_bind, bind_assoc]
    refine bind_congr fun q => ?_
    simp only [Condition.holds_iff]
    by_cases h : c.Holds q.1 p.1
    · simp only [h, if_true]
      show (active (s, q.2)).exec (body.flatten ++ [.leave]) = _
      rw [exec_append, ih]
      cases body.eval s q.2 <;> rfl
    · simp only [h, if_false]
      show exec ⟨s, q.2, 0 + 1⟩ (body.flatten ++ [.leave]) = _
      rw [exec_append, exec_skipped_flatten]
      rfl

end Machine

namespace Program

theorem run_flatten (p : Program) (s : State) : p.flatten.run s = p.run s := by
  have h : (Machine.start s).exec p.flatten = Machine.active <$> p.eval s [] := Machine.exec_flatten p s []
  rw [Code.run, h, bind_map_left]
  rfl

theorem run_flatten_append {p : Program} {s : State}
    (h : ∀ t stack, p.eval s [] = .ok (t, stack) → stack = []) (q : Program) :
    (p.flatten ++ q.flatten).run s = p.flatten.run s >>= q.flatten.run := by
  have hseq : p.flatten ++ q.flatten = (seq p q).flatten := rfl
  have hq : q.flatten.run = q.run := funext q.run_flatten
  rw [hseq, run_flatten, run_flatten, hq, run, run, eval, bind_assoc, bind_assoc]
  cases he : p.eval s [] with
  | error f => rfl
  | ok r =>
    obtain ⟨t, stack⟩ := r
    cases h t stack he
    rfl

end Program

namespace Code

/-- What is left of the code behind the ends of `depth` open regions. -/
def behind : Nat → Code → Option Code
  | 0, code => some code
  | _ + 1, [] => none
  | depth + 1, .enter _ :: rest => behind (depth + 2) rest
  | depth + 1, .leave :: rest => behind depth rest
  | depth + 1, _ :: rest => behind (depth + 1) rest

/-- One turn of the loop: an action, with the code behind it, and what there is to do next. -/
def turn (a : Action) (rest : Code) (s : State) (stack : List Value) :
    Except Fault (Code × State × List Value) :=
  match a with
  | .enter c => do
    let (b, stack) ← Machine.popWord stack
    let (a, stack) ← Machine.popWord stack
    if c.Holds a b then .ok (rest, s, stack)
    else
      match behind 1 rest with
      | some rest => .ok (rest, s, stack)
      | none => .error .unclosedRegion
  | a => do
    let m ← (Machine.active (s, stack)).perform a
    .ok (rest, m.state, m.stack)

/-- Turn after turn until there is nothing left to do, if that takes at most `n` turns. -/
def loop : Nat → Code → State → List Value → Option (Except Fault State)
  | _, [], s, stack => some (if stack.isEmpty then .ok s else .error .leftoverStack)
  | 0, _ :: _, _, _ => none
  | n + 1, a :: rest, s, stack =>
    match turn a rest s stack with
    | .error f => some (.error f)
    | .ok (rest, s, stack) => loop n rest s stack

theorem finish_of_behind (s : State) (stack : List Value) (depth : Nat) (code : Code) :
    (Machine.exec ⟨s, stack, depth⟩ code >>= Machine.finish) =
      match behind depth code with
      | some rest => (Machine.active (s, stack)).exec rest >>= Machine.finish
      | none => .error .unclosedRegion := by
  fun_induction behind depth code with
  | case1 code => rfl
  | case2 depth => rfl
  | case3 depth c code ih => exact ih
  | case4 depth code ih => exact ih
  | case5 depth a code hc hl ih =>
    cases a with
    | enter c => exact absurd rfl (hc c)
    | leave => exact absurd rfl hl
    | _ => exact ih

theorem behind_flatten (p : Program) (depth : Nat) (rest : Code) :
    behind (depth + 1) (p.flatten ++ rest) = behind (depth + 1) rest := by
  induction p generalizing depth rest with
  | done => rfl
  | act p => cases p <;> rfl
  | seq x y hx hy => rw [Program.flatten, List.append_assoc, hx, hy]
  | region c body ih =>
    rw [Program.flatten, List.cons_append, List.append_assoc, behind, ih]
    rfl

theorem action_cases (a : Action) : (∃ c, a = .enter c) ∨ a = .leave ∨ ∃ p : Primitive, a = p.action := by
  cases a with
  | enter c => exact .inl ⟨c, rfl⟩
  | leave => exact .inr (.inl rfl)
  | push f => exact .inr (.inr ⟨.push f, rfl⟩)
  | pull f => exact .inr (.inr ⟨.pull f, rfl⟩)
  | pushVec f => exact .inr (.inr ⟨.pushVec f, rfl⟩)
  | pullVec f => exact .inr (.inr ⟨.pullVec f, rfl⟩)
  | const w => exact .inr (.inr ⟨.const w, rfl⟩)
  | add => exact .inr (.inr ⟨.add, rfl⟩)
  | addVec => exact .inr (.inr ⟨.addVec, rfl⟩)

/-- Up to the end of the innermost open region there is a program. -/
theorem program_of_behind {depth : Nat} {code rest : Code} (h : behind (depth + 1) code = some rest) :
    ∃ (p : Program) (mid : Code), code = p.flatten ++ .leave :: mid ∧ behind depth mid = some rest := by
  induction hn : code.length using Nat.strongRecOn generalizing code depth with
  | ind n ih =>
    subst hn
    cases code with
    | nil => cases h
    | cons a code =>
      rcases action_cases a with ⟨c, rfl⟩ | rfl | ⟨p, rfl⟩
      · have hcode : behind (depth + 1 + 1) code = some rest := h
        rcases ih _ (by simp) hcode rfl with ⟨body, mid, rfl, hmid⟩
        rcases ih _ (by simp; omega) hmid rfl with ⟨q, mid', rfl, hmid'⟩
        exact ⟨.seq (.region c body) q, mid', by simp [Program.flatten], hmid'⟩
      · exact ⟨.done, code, rfl, h⟩
      · have hcode : behind (depth + 1) code = some rest := by
          rw [← h]
          exact (behind_flatten (.act p) depth code).symm
        rcases ih _ (by simp) hcode rfl with ⟨q, mid, rfl, hmid⟩
        exact ⟨.seq (.act p) q, mid, rfl, hmid⟩

theorem behind_one_eq_some_iff {code rest : Code} :
    behind 1 code = some rest ↔ ∃ p : Program, code = p.flatten ++ .leave :: rest := by
  constructor
  · intro h
    rcases program_of_behind h with ⟨p, mid, hcode, hmid⟩
    rw [behind, Option.some.injEq] at hmid
    exact ⟨p, hmid ▸ hcode⟩
  · rintro ⟨p, rfl⟩
    rw [behind_flatten, behind, behind]

theorem behind_one_eq_none_iff {code : Code} :
    behind 1 code = none ↔ ∀ (p : Program) (rest : Code), code ≠ p.flatten ++ .leave :: rest := by
  rw [Option.eq_none_iff_forall_ne_some]
  simp only [ne_eq, behind_one_eq_some_iff, not_exists]
  exact forall_comm

theorem turn_primitive (p : Primitive) (rest : Code) (s : State) (stack : List Value) :
    turn p.action rest s stack = Prod.mk rest <$> p.eval s stack := by
  have hstep := Machine.step_primitive p s stack
  rw [Machine.step_of_skip_zero rfl] at hstep
  have hturn : turn p.action rest s stack =
      (Machine.active (s, stack)).perform p.action >>= fun m => .ok (rest, m.state, m.stack) := by
    cases p <;> rfl
  rw [hturn, hstep]
  cases p.eval s stack <;> rfl

theorem finish_of_turn (a : Action) (rest : Code) (s : State) (stack : List Value) :
    ((Machine.active (s, stack)).exec (a :: rest) >>= Machine.finish) =
      turn a rest s stack >>= fun r => (Machine.active r.2).exec r.1 >>= Machine.finish := by
  rw [Machine.exec_cons]
  rcases action_cases a with ⟨c, rfl⟩ | rfl | ⟨p, rfl⟩
  · simp only [Machine.step_of_skip_zero (m := Machine.active (s, stack)) rfl, Machine.perform, turn,
      bind_assoc]
    refine bind_congr fun p => bind_congr fun q => ?_
    simp only [Condition.holds_iff]
    by_cases h : c.Holds q.1 p.1
    · simp only [h, if_true]
      rfl
    · simp only [h, if_false]
      refine (finish_of_behind s q.2 1 rest).trans ?_
      cases behind 1 rest <;> rfl
  · rfl
  · rw [Machine.step_primitive, turn_primitive]
    cases p.eval s stack <;> rfl

theorem turn_enter (c : Condition) (a b : Word) (rest : Code) (s : State) (stack : List Value) :
    turn (.enter c) rest s (.word b :: .word a :: stack) =
      if c.Holds a b then .ok (rest, s, stack)
      else
        match behind 1 rest with
        | some rest => .ok (rest, s, stack)
        | none => .error .unclosedRegion := rfl

theorem turn_enter_cases (c : Condition) (rest : Code) (s : State) (stack : List Value) :
    (∃ a b below, stack = .word b :: .word a :: below) ∨
      ∃ f, f ≠ .unclosedRegion ∧ turn (.enter c) rest s stack = .error f :=
  match stack with
  | [] => .inr ⟨.stackUnderflow, by decide, rfl⟩
  | .quad _ :: _ => .inr ⟨.expectedWord, by decide, rfl⟩
  | [.word _] => .inr ⟨.stackUnderflow, by decide, rfl⟩
  | .word _ :: .quad _ :: _ => .inr ⟨.expectedWord, by decide, rfl⟩
  | .word b :: .word a :: below => .inl ⟨a, b, below, rfl⟩

theorem exec_of_turn {a : Action} {rest next : Code} {s t : State} {stack stack' : List Value}
    (h : turn a rest s stack = .ok (next, t, stack')) :
    next.length ≤ rest.length ∧ ∃ passed, a :: rest = passed ++ next ∧
      (Machine.active (s, stack)).exec passed = .ok (Machine.active (t, stack')) := by
  rcases action_cases a with ⟨c, rfl⟩ | rfl | ⟨p, rfl⟩
  · rcases turn_enter_cases c rest s stack with ⟨a, b, below, rfl⟩ | ⟨f, -, hf⟩
    · have henter := Machine.step_enter c a b s below
      rw [turn_enter] at h
      by_cases hc : c.Holds a b
      · rw [if_pos hc] at h henter
        cases h
        refine ⟨Nat.le_refl _, [.enter c], rfl, ?_⟩
        rw [Machine.exec_cons, henter]
        rfl
      · rw [if_neg hc] at h henter
        cases hend : behind 1 rest with
        | none =>
          rw [hend] at h
          cases h
        | some after =>
          rw [hend] at h
          cases h
          rcases behind_one_eq_some_iff.1 hend with ⟨body, rfl⟩
          refine ⟨by simp; omega, .enter c :: (body.flatten ++ [.leave]), by simp, ?_⟩
          rw [Machine.exec_cons, henter]
          show Machine.exec ⟨s, _, 0 + 1⟩ _ = _
          rw [Machine.exec_append, Machine.exec_skipped_flatten]
          rfl
    · rw [hf] at h
      cases h
  · cases h
    exact ⟨Nat.le_refl _, [.leave], rfl, rfl⟩
  · rw [turn_primitive] at h
    rcases map_eq_ok.1 h with ⟨_, hp, ⟨⟩⟩
    refine ⟨Nat.le_refl _, [p.action], rfl, ?_⟩
    rw [Machine.exec_cons, Machine.step_primitive, hp]
    rfl

theorem loop_eq {n : Nat} {code : Code} (h : code.length ≤ n) (s : State) (stack : List Value) :
    loop n code s stack = some ((Machine.active (s, stack)).exec code >>= Machine.finish) := by
  induction n generalizing code s stack with
  | zero =>
    cases List.length_eq_zero_iff.1 (Nat.le_zero.1 h)
    rfl
  | succ n ih =>
    cases code with
    | nil => rfl
    | cons a rest =>
      rw [finish_of_turn, loop]
      cases hturn : turn a rest s stack with
      | error f => rfl
      | ok r =>
        rcases r with ⟨next, t, stack'⟩
        have hlength := (exec_of_turn hturn).1
        exact ih (Nat.le_trans hlength (Nat.le_of_succ_le_succ h)) t stack'

/-- The run comes to a region that it does not enter and whose end is missing. -/
def GivesUp (code : Code) (s : State) (stack : List Value) : Prop :=
  ∃ x c y t a b below, code = x ++ .enter c :: y ∧
    (Machine.active (s, stack)).exec x = .ok (Machine.active (t, .word b :: .word a :: below)) ∧
    ¬c.Holds a b ∧ ∀ (p : Program) (rest : Code), y ≠ p.flatten ++ .leave :: rest

theorem GivesUp.finish {code : Code} {s : State} {stack : List Value} (h : code.GivesUp s stack) :
    ((Machine.active (s, stack)).exec code >>= Machine.finish) = .error .unclosedRegion := by
  rcases h with ⟨x, c, y, t, a, b, below, rfl, hx, hc, hy⟩
  rw [Machine.exec_append, hx]
  show ((Machine.active (t, .word b :: .word a :: below)).exec (.enter c :: y) >>= Machine.finish) = _
  rw [finish_of_turn, turn_enter, if_neg hc, behind_one_eq_none_iff.2 hy]
  rfl

theorem GivesUp.append {code next : Code} {s t : State} {stack stack' : List Value}
    (h : next.GivesUp t stack')
    (hcode : (Machine.active (s, stack)).exec code = .ok (Machine.active (t, stack'))) :
    (code ++ next).GivesUp s stack := by
  rcases h with ⟨x, c, y, u, a, b, below, rfl, hx, hc, hy⟩
  refine ⟨code ++ x, c, y, u, a, b, below, by simp, ?_, hc, hy⟩
  rw [Machine.exec_append, hcode]
  exact hx

theorem givesUp_of_turn {a : Action} {rest : Code} {s : State} {stack : List Value}
    (h : turn a rest s stack = .error .unclosedRegion) : GivesUp (a :: rest) s stack := by
  rcases action_cases a with ⟨c, rfl⟩ | rfl | ⟨p, rfl⟩
  · rcases turn_enter_cases c rest s stack with ⟨a, b, below, rfl⟩ | ⟨f, hne, hf⟩
    · rw [turn_enter] at h
      by_cases hc : c.Holds a b
      · rw [if_pos hc] at h
        cases h
      · rw [if_neg hc] at h
        cases hend : behind 1 rest with
        | none =>
          exact ⟨[], c, rest, s, a, b, below, rfl, rfl, hc, behind_one_eq_none_iff.1 hend⟩
        | some after =>
          rw [hend] at h
          cases h
    · rw [hf] at h
      cases h
      exact absurd rfl hne
  · cases h
  · rw [turn_primitive] at h
    cases hp : p.eval s stack with
    | error f =>
      rw [hp] at h
      cases h
      exact absurd rfl ((p.eval_ends s stack).error hp)
    | ok r =>
      rw [hp] at h
      cases h

theorem givesUp_of_finish {code : Code} {s : State} {stack : List Value}
    (h : ((Machine.active (s, stack)).exec code >>= Machine.finish) = .error .unclosedRegion) :
    code.GivesUp s stack := by
  induction hn : code.length using Nat.strongRecOn generalizing code s stack with
  | ind n ih =>
    subst hn
    cases code with
    | nil =>
      cases stack <;> cases h
    | cons a rest =>
      rw [finish_of_turn] at h
      cases hturn : turn a rest s stack with
      | error f =>
        rw [hturn] at h
        cases h
        exact givesUp_of_turn hturn
      | ok r =>
        rcases r with ⟨next, t, stack'⟩
        rcases exec_of_turn hturn with ⟨hlength, passed, hcode, hexec⟩
        rw [hturn] at h
        rw [hcode]
        exact (ih _ (Nat.lt_succ_of_le hlength) h rfl).append hexec

end Code

def Action.openBehind (n : Nat) : Action → Nat
  | .enter _ => n + 1
  | .leave => n - 1
  | _ => n

namespace Code

def openBehind (n : Nat) (code : Code) : Nat := code.foldl Action.openBehind n

/-- Behind the start of the innermost open region there is a program, and before it the others are
open. -/
theorem exists_open {code : Code} {n : Nat} (h : openBehind 0 code = n + 1) :
    ∃ x c, ∃ p : Program, code = x ++ .enter c :: p.flatten ∧ openBehind 0 x = n := by
  induction hlen : code.length using Nat.strongRecOn generalizing code n with
  | ind k ih =>
    subst hlen
    rcases List.eq_nil_or_concat code with rfl | ⟨code, a, rfl⟩
    · cases h
    · rw [List.concat_eq_append, openBehind, List.foldl_append] at h
      rcases action_cases a with ⟨c, rfl⟩ | rfl | ⟨p, rfl⟩
      · exact ⟨code, c, .done, by simp [Program.flatten], Nat.succ.inj h⟩
      · have hcode : openBehind 0 code = n + 1 + 1 := by
          change openBehind 0 code - 1 = n + 1 at h
          omega
        rcases ih _ (by simp) hcode rfl with ⟨x, c, body, rfl, hx⟩
        rcases ih _ (by simp) hx rfl with ⟨x', c', q, rfl, hx'⟩
        exact ⟨x', c', .seq q (.region c body), by simp [Program.flatten], hx'⟩
      · have hcode : openBehind 0 code = n + 1 := by
          cases p <;> exact h
        rcases ih _ (by simp) hcode rfl with ⟨x, c, q, rfl, hx⟩
        exact ⟨x, c, .seq q (.act p), by simp [Program.flatten], hx⟩

end Code

namespace Machine

theorem skip_le_step {m m' : Machine} {a : Action} {n : Nat} (hm : m.skip ≤ n) (h : m.step a = .ok m') :
    m'.skip ≤ a.openBehind n := by
  by_cases hs : m.skip = 0
  · rw [step_of_skip_zero hs] at h
    rcases skip_of_perform hs h with h0 | ⟨h1, hopens⟩
    · omega
    · cases a with
      | enter c => exact h1 ▸ Nat.le_add_left 1 n
      | _ => cases hopens
  · rw [step_of_skip hs] at h
    cases h
    cases a with
    | enter c => exact Nat.succ_le_succ hm
    | leave => exact Nat.sub_le_sub_right hm 1
    | _ => exact hm

theorem skip_le_exec {m m' : Machine} {code : Code} {n : Nat} (hm : m.skip ≤ n)
    (h : m.exec code = .ok m') : m'.skip ≤ code.openBehind n := by
  induction code generalizing m n with
  | nil =>
    cases h
    exact hm
  | cons a code ih =>
    rcases bind_eq_ok.1 h with ⟨k, hk, h⟩
    exact ih (skip_le_step hm hk) h

end Machine

theorem Code.run_stray {x : Code}
    (h : ∀ (w : Code) (c : Condition) (p : Program), x ≠ w ++ .enter c :: p.flatten) (y : Code) (s : State) :
    (x ++ .leave :: y).run s = (x ++ y).run s := by
  have hopen : openBehind 0 x = 0 := by
    cases hn : openBehind 0 x with
    | zero => rfl
    | succ n =>
      rcases exists_open hn with ⟨w, c, p, hx, -⟩
      exact absurd hx (h w c p)
  rw [run, run, Machine.exec_append, Machine.exec_append]
  cases hx : (Machine.start s).exec x with
  | error f => rfl
  | ok m =>
    have hskip : m.skip = 0 := Nat.le_zero.1 (hopen ▸ Machine.skip_le_exec (Nat.le_refl 0) hx)
    have hleave : m.step .leave = .ok m := Machine.step_of_skip_zero hskip .leave
    simp only [bind, Except.bind, Machine.exec_cons, hleave]

/-- Flat code runs as the program it comes from means, and pieces of it that leave nothing on the stack
are run one after the other. Any code at all is through after as many turns of the loop as it has
actions. An end does nothing if it closes no region, and the run gives up over a region exactly where
it comes to one that it does not enter and whose end is missing. -/
theorem run_follows_structure :
    (∀ (p : Program) (s : State), p.flatten.run s = p.run s) ∧
    (∀ (p q : Program) (s : State), (∀ t stack, p.eval s [] = .ok (t, stack) → stack = []) →
      (p.flatten ++ q.flatten).run s = p.flatten.run s >>= q.flatten.run) ∧
    ∀ (code : Code) (s : State),
      (∀ n, code.length ≤ n → Code.loop n code s [] = some (code.run s)) ∧
      (∀ x y, code = x ++ .leave :: y →
        (∀ (w : Code) (c : Condition) (p : Program), x ≠ w ++ .enter c :: p.flatten) →
        code.run s = (x ++ y).run s) ∧
      (code.run s = .error .unclosedRegion ↔
        ∃ x c y t a b below, code = x ++ .enter c :: y ∧
          (Machine.start s).exec x = .ok ⟨t, .word b :: .word a :: below, 0⟩ ∧ ¬c.Holds a b ∧
          ∀ (p : Program) (rest : Code), y ≠ p.flatten ++ .leave :: rest) ∧
      Fault.unclosedRegion.message = "Unclosed conditional region" := by
  refine ⟨Program.run_flatten, fun p q s h => Program.run_flatten_append h q, ?_⟩
  intro code s
  refine ⟨fun n h => Code.loop_eq h s [], ?_, ?_, rfl⟩
  · rintro x y rfl h
    exact Code.run_stray h y s
  · exact ⟨Code.givesUp_of_finish, Code.GivesUp.finish⟩

namespace Sample

def nested (outer : Word) : Program :=
  .seq (.act (.const outer)) (.seq (.act (.const 1)) (.region .eq
    (.seq (.act (.const 0)) (.seq (.act (.const 1)) (.seq
      (.region .eq (.seq (.act (.const 10)) (.act (.pull (.vi 2)))))
      (.seq (.act (.const 20)) (.act (.pull .i))))))))

theorem nested_then_nested :
    (∀ t stack, (nested 1).eval .initial [] = .ok (t, stack) → stack = []) ∧
    ((nested 1).flatten ++ (nested 0).flatten).run .initial =
      (nested 1).flatten.run .initial >>= (nested 0).flatten.run ∧
    ((nested 1).flatten.run .initial).map (fun t => (t.i, t.word (.vi 2))) = .ok (20, .ok 0) := by
  have hempty : ∀ t stack, (nested 1).eval .initial [] = .ok (t, stack) → stack = [] := by
    rintro t stack ⟨⟩
    rfl
  exact ⟨hempty, run_follows_structure.2.1 (nested 1) (nested 0) .initial hempty, rfl⟩

end Sample

end DualIssue
