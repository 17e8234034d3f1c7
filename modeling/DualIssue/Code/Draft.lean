import DualIssue.Code.Shape

set_option autoImplicit false

namespace DualIssue

structure Draft where
  code : Code
  shape : Shape
  deriving DecidableEq, Repr

namespace Draft

def empty : Draft := ⟨[], .empty⟩

def emit (d : Draft) (piece : Code) : Except Fault Draft := do
  let shape ← d.shape.follow piece
  .ok ⟨d.code ++ piece, shape⟩

def isStackEmpty (d : Draft) : Bool := d.shape.stack.isEmpty

def finish (d : Draft) : Except Fault Code :=
  if d.shape.regions.isEmpty then .ok d.code else .error .unclosedRegion

theorem emit_eq_ok_iff {d e : Draft} {piece : Code} :
    d.emit piece = .ok e ↔ d.shape.follow piece = .ok e.shape ∧ e.code = d.code ++ piece := by
  cases h : d.shape.follow piece with
  | error f => simp [emit, h, bind, Except.bind]
  | ok s =>
    cases e
    simp [emit, h, bind, Except.bind]
    exact ⟨fun ⟨a, b⟩ => ⟨b, a.symm⟩, fun ⟨a, b⟩ => ⟨b.symm, a⟩⟩

theorem follow_code_emit {d e : Draft} {piece : Code} (h : d.emit piece = .ok e)
    (hd : Shape.empty.follow d.code = .ok d.shape) : Shape.empty.follow e.code = .ok e.shape := by
  obtain ⟨hs, hc⟩ := emit_eq_ok_iff.1 h
  rw [hc, Shape.follow_append, hd]
  exact hs

end Draft

end DualIssue
