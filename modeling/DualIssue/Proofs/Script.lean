import DualIssue.Proofs.Runnable

set_option autoImplicit false

namespace DualIssue

/-- The clock, and what the latch of Q hides. -/
def Field.isTiming : Field → Bool
  | .pipeTime | .qHeld | .qTarget => true
  | _ => false

def Action.Untimed (a : Action) : Prop := ∀ f, (a.pushes f || a.pulls f) = true → f.isTiming = false

inductive Piece where
  | action (a : Action)
  | release
  | releaseIfDue (t : Cycle)
  | hold (t latency : Cycle)
  deriving DecidableEq, Repr

def Piece.code : Piece → Code
  | .action a => [a]
  | .release => Latch.q.release
  | .releaseIfDue t => Latch.q.releaseIfDue t
  | .hold t latency => Latch.q.hold t latency

abbrev Script := List Piece

def Script.code (script : Script) : Code := script.flatMap Piece.code

theorem Action.Untimed.pulls {a : Action} (h : a.Untimed) {f : Field} (hf : f.isTiming = true) :
    a.pulls f = false := by
  apply Bool.eq_false_iff.2
  intro hp
  have := h f (by simp [hp])
  simp [hf] at this

theorem Action.untimed_of_mentions {code : Code}
    (h : ∀ f, code.mentions f = true → f.isTiming = false) : ∀ a ∈ code, a.Untimed := by
  induction code with
  | nil => simp
  | cons a code ih =>
    intro b hb
    obtain rfl | hb := List.mem_cons.1 hb
    · intro f hf
      exact h f (by simp [Code.mentions_cons, hf])
    · exact ih (fun f hf => h f (by simp [Code.mentions_cons, hf])) b hb

theorem Pair.Bracketed.untimed {p : Pair} {snapshot : Option Snapshot} {f : Field}
    (h : p.Bracketed snapshot f) : f.isTiming = false ∧ f ≠ .q := by
  obtain h | ⟨r, -, rfl⟩ | ⟨n, -, rfl⟩ := h
  · constructor
    · cases f <;> trivial
    · rintro rfl
      cases h
  · exact ⟨rfl, by simp⟩
  · exact ⟨rfl, by simp⟩

namespace Machine

theorem exec_hold_eq_ok_iff {m n : Machine} {t latency : Cycle} :
    m.exec (Latch.q.hold t latency) = .ok n ↔
      m.skip ≠ 0 ∧ n = m ∨ m.skip = 0 ∧ ∃ w rest, m.stack = .word w :: rest ∧
        n = ⟨{ m.state with qHeld := w, qTarget := m.state.pipeTime + (t + latency) }, rest, 0⟩ := by
  obtain ⟨state, stack, skip⟩ := m
  by_cases hs : skip = 0
  · subst hs
    cases stack with
    | nil => simp [Latch.hold, step, perform, popWord, bind, Except.bind]
    | cons v rest =>
      cases v with
      | quad v => simp [Latch.hold, step, perform, popWord, bind, Except.bind]
      | word w =>
        simp only [Latch.hold, Latch.q, exec_cons, exec_nil, step, if_true, perform, popWord,
          State.setWord, State.word, bind, Except.bind, Except.ok.injEq, ne_eq, not_true, false_and,
          true_and, false_or, List.cons.injEq, Value.word.injEq]
        constructor
        · rintro rfl
          exact ⟨w, rest, ⟨rfl, rfl⟩, rfl⟩
        · rintro ⟨w, rest, ⟨rfl, rfl⟩, rfl⟩
          rfl
  · simp [Latch.hold, step, skipped, hs, bind, Except.bind, eq_comm]

end Machine

namespace Sample

/-- A lower instruction 1 divides, which is to say that it queues a register for Q; an upper
instruction 1 copies Q. -/
def divisionScript (i : Issue) : Script :=
  if i.opcode = 1 then
    if i.address.toNat % 8 = 0 then [.action (.push (.vi 1)), .hold i.time divLatency]
    else [.action (.push .q), .action (.pull .i)]
  else []

def division : InstructionSet where
  branch _ _ := .straight
  effects a w := { readsQ := w = 1 ∧ a.toNat % 8 ≠ 0, writesQ := w = 1 ∧ a.toNat % 8 = 0 }
  target _ _ := 0
  code a w t := (divisionScript ⟨a, w, t⟩).code

def quotient : Memory where
  word a := if a = 0 ∨ a = 12 ∨ a = 60 then 1 else 0

def registersOf (w : Word) : State := { State.initial with vi := .fill viCount w }

theorem division_selfContained : division.SelfContained := by
  intro a w t
  simp only [division, divisionScript]
  split
  · split
    · exact ⟨rfl, fun _ => ⟨_, rfl⟩⟩
    · exact ⟨rfl, fun _ => ⟨_, rfl⟩⟩
  · exact Code.selfContained_nil

end Sample

end DualIssue
