import DualIssue.Table
import DualIssue.Lane

set_option autoImplicit false

namespace DualIssue

def vfCount : Nat := 32

def viCount : Nat := 16

/-- What the pending-jump field holds when no jump is pending: odd, so never an address of code. -/
def noJump : Address := 1

structure State where
  vf : Table vfCount Quad
  vi : Table viCount Word
  vfPreUp : Quad
  vfUpRes : Quad
  savedInt : Word
  savedIntTemp : Word
  pipeTime : Word
  delayedJump : Word
  i : Word
  q : Word
  qHeld : Word
  qTarget : Word
  deriving DecidableEq, Repr

namespace State

def initial : State where
  vf := .fill vfCount .zero
  vi := .fill viCount 0
  vfPreUp := .zero
  vfUpRes := .zero
  savedInt := 0
  savedIntTemp := 0
  pipeTime := 0
  delayedJump := noJump
  i := 0
  q := 0
  qHeld := 0
  qTarget := 0

def size : Nat := Field.qTarget.offset + Field.qTarget.width.bytes

def word (s : State) : Field → Except Fault Word
  | .vi r => s.vi.get r.toNat
  | .savedInt => .ok s.savedInt
  | .savedIntTemp => .ok s.savedIntTemp
  | .pipeTime => .ok s.pipeTime
  | .delayedJump => .ok s.delayedJump
  | .i => .ok s.i
  | .q => .ok s.q
  | .qHeld => .ok s.qHeld
  | .qTarget => .ok s.qTarget
  | .vf r => .error (.notWord (.vf r))
  | .vfPreUp => .error (.notWord .vfPreUp)
  | .vfUpRes => .error (.notWord .vfUpRes)

def setWord (s : State) (f : Field) (w : Word) : Except Fault State :=
  match f with
  | .vi r => do
    let vi ← s.vi.set r.toNat w
    .ok { s with vi }
  | .savedInt => .ok { s with savedInt := w }
  | .savedIntTemp => .ok { s with savedIntTemp := w }
  | .pipeTime => .ok { s with pipeTime := w }
  | .delayedJump => .ok { s with delayedJump := w }
  | .i => .ok { s with i := w }
  | .q => .ok { s with q := w }
  | .qHeld => .ok { s with qHeld := w }
  | .qTarget => .ok { s with qTarget := w }
  | .vf r => .error (.notWord (.vf r))
  | .vfPreUp => .error (.notWord .vfPreUp)
  | .vfUpRes => .error (.notWord .vfUpRes)

def quad (s : State) : Field → Except Fault Quad
  | .vf r => s.vf.get r.toNat
  | .vfPreUp => .ok s.vfPreUp
  | .vfUpRes => .ok s.vfUpRes
  | .vi r => .error (.notQuad (.vi r))
  | .savedInt => .error (.notQuad .savedInt)
  | .savedIntTemp => .error (.notQuad .savedIntTemp)
  | .pipeTime => .error (.notQuad .pipeTime)
  | .delayedJump => .error (.notQuad .delayedJump)
  | .i => .error (.notQuad .i)
  | .q => .error (.notQuad .q)
  | .qHeld => .error (.notQuad .qHeld)
  | .qTarget => .error (.notQuad .qTarget)

def setQuad (s : State) (f : Field) (v : Quad) : Except Fault State :=
  match f with
  | .vf r => do
    let vf ← s.vf.set r.toNat v
    .ok { s with vf }
  | .vfPreUp => .ok { s with vfPreUp := v }
  | .vfUpRes => .ok { s with vfUpRes := v }
  | .vi r => .error (.notQuad (.vi r))
  | .savedInt => .error (.notQuad .savedInt)
  | .savedIntTemp => .error (.notQuad .savedIntTemp)
  | .pipeTime => .error (.notQuad .pipeTime)
  | .delayedJump => .error (.notQuad .delayedJump)
  | .i => .error (.notQuad .i)
  | .q => .error (.notQuad .q)
  | .qHeld => .error (.notQuad .qHeld)
  | .qTarget => .error (.notQuad .qTarget)

theorem word_setWord {s t : State} {f : Field} {w : Word} (h : s.setWord f w = .ok t) (g : Field) :
    t.word g = if g = f then .ok w else s.word g := by
  cases f with
  | vi r =>
    simp only [setWord] at h
    cases hv : s.vi.set r.toNat w with
    | error e => simp [hv, bind, Except.bind] at h
    | ok vi =>
      simp only [hv, bind, Except.bind, Except.ok.injEq] at h
      subst h
      cases g <;> simp [word, Table.get_set hv, UInt8.toNat_inj]
  | vf r | vfPreUp | vfUpRes => simp [setWord] at h
  | _ =>
    simp only [setWord, Except.ok.injEq] at h
    subst h
    cases g <;> simp [word]

theorem quad_setWord {s t : State} {f : Field} {w : Word} (h : s.setWord f w = .ok t) (g : Field) :
    t.quad g = s.quad g := by
  cases f with
  | vi r =>
    simp only [setWord] at h
    cases hv : s.vi.set r.toNat w with
    | error e => simp [hv, bind, Except.bind] at h
    | ok vi =>
      simp only [hv, bind, Except.bind, Except.ok.injEq] at h
      subst h
      cases g <;> rfl
  | vf r | vfPreUp | vfUpRes => simp [setWord] at h
  | _ =>
    simp only [setWord, Except.ok.injEq] at h
    subst h
    cases g <;> rfl

theorem quad_setQuad {s t : State} {f : Field} {v : Quad} (h : s.setQuad f v = .ok t) (g : Field) :
    t.quad g = if g = f then .ok v else s.quad g := by
  cases f with
  | vf r =>
    simp only [setQuad] at h
    cases hv : s.vf.set r.toNat v with
    | error e => simp [hv, bind, Except.bind] at h
    | ok vf =>
      simp only [hv, bind, Except.bind, Except.ok.injEq] at h
      subst h
      cases g <;> simp [quad, Table.get_set hv, UInt8.toNat_inj]
  | vfPreUp | vfUpRes =>
    simp only [setQuad, Except.ok.injEq] at h
    subst h
    cases g <;> simp [quad]
  | _ => simp [setQuad] at h

theorem word_setQuad {s t : State} {f : Field} {v : Quad} (h : s.setQuad f v = .ok t) (g : Field) :
    t.word g = s.word g := by
  cases f with
  | vf r =>
    simp only [setQuad] at h
    cases hv : s.vf.set r.toNat v with
    | error e => simp [hv, bind, Except.bind] at h
    | ok vf =>
      simp only [hv, bind, Except.bind, Except.ok.injEq] at h
      subst h
      cases g <;> rfl
  | vfPreUp | vfUpRes =>
    simp only [setQuad, Except.ok.injEq] at h
    subst h
    cases g <;> rfl
  | _ => simp [setQuad] at h

def fields : List Field :=
  (List.range vfCount).map (fun r => .vf r.toUInt8) ++ (List.range viCount).map (fun r => .vi r.toUInt8) ++
    [.vfPreUp, .vfUpRes, .savedInt, .savedIntTemp, .pipeTime, .delayedJump, .i, .q, .qHeld, .qTarget]

end State

end DualIssue
