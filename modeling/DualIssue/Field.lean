import DualIssue.Basic
import DualIssue.Text

/-!
The named pieces of the emulated state. Each field is a 32-bit word or a vector of four lanes,
and has a fixed place in the state's memory layout.

Besides the two register files there are scratch fields for values that compiled code sets aside
(a float register before the upper half wrote it, and what the upper half wrote; an old and the
current value of an integer register), the clock at the start of the block, the target of a
pending jump, the immediate register, and Q: its visible value, the value still in the pipeline
and the cycle at which that one becomes visible.
-/

set_option autoImplicit false

namespace DualIssue

inductive Width where
  | word
  | quad
  deriving DecidableEq, Repr

def Width.bytes : Width → Nat
  | .word => 4
  | .quad => 16

inductive Field where
  | vf : Register → Field
  | vi : Register → Field
  | vfPreUp
  | vfUpRes
  | savedInt
  | savedIntTemp
  | pipeTime
  | delayedJump
  | i
  | q
  | qHeld
  | qTarget
  deriving DecidableEq, Repr

namespace Field

def width : Field → Width
  | .vf _ | .vfPreUp | .vfUpRes => .quad
  | .vi _ | .savedInt | .savedIntTemp | .pipeTime | .delayedJump | .i | .q | .qHeld | .qTarget => .word

/-- The byte offset of the field in a state. Register numbers are not checked here. -/
def offset : Field → Nat
  | .vf r => 16 * r.toNat
  | .vi r => 512 + 4 * r.toNat
  | .vfPreUp => 576
  | .vfUpRes => 592
  | .savedInt => 608
  | .savedIntTemp => 612
  | .pipeTime => 616
  | .delayedJump => 620
  | .i => 624
  | .q => 628
  | .qHeld => 632
  | .qTarget => 636

def name : Field → String
  | .vf r => String.join ["vf", Text.decimal r.toNat]
  | .vi r => String.join ["vi", Text.decimal r.toNat]
  | .vfPreUp => "vf_pre_up"
  | .vfUpRes => "vf_up_res"
  | .savedInt => "saved_int_reg"
  | .savedIntTemp => "saved_int_reg_temp"
  | .pipeTime => "pipe_time"
  | .delayedJump => "delayed_jump_addr"
  | .i => "i"
  | .q => "q"
  | .qHeld => "q_held"
  | .qTarget => "q_target"

def rank : Field → Nat
  | .vf r => r.toNat
  | .vi r => 256 + r.toNat
  | .vfPreUp => 512
  | .vfUpRes => 513
  | .savedInt => 514
  | .savedIntTemp => 515
  | .pipeTime => 516
  | .delayedJump => 517
  | .i => 518
  | .q => 519
  | .qHeld => 520
  | .qTarget => 521

def sorted (fs : List Field) : List Field := fs.mergeSort fun f g => decide (f.rank ≤ g.rank)

end Field

end DualIssue
