import DualIssue.Memory.Image

set_option autoImplicit false

namespace DualIssue

/-- The word whose least significant byte comes first. -/
def littleEndian (a b c d : UInt8) : Word :=
  UInt32.ofNat (a.toNat + b.toNat <<< 8 + c.toNat <<< 16 + d.toNat <<< 24)

def byteOf (w : Word) (k : Nat) : UInt8 := UInt8.ofNat (w.toNat >>> (8 * k))

theorem littleEndian_byteOf (w : Word) :
    littleEndian (byteOf w 0) (byteOf w 1) (byteOf w 2) (byteOf w 3) = w := by
  apply UInt32.toNat_inj.1
  have h := w.toNat_lt
  simp [littleEndian, byteOf, Nat.shiftLeft_eq, Nat.shiftRight_eq_div_pow]; omega

def littleEndianBytes (w : Word) : List UInt8 := [byteOf w 0, byteOf w 1, byteOf w 2, byteOf w 3]

structure Dump where
  /-- The binary logarithm of the number of pairs. -/
  bits : Nat
  bytes : Vector UInt8 (1 <<< (bits + 3))
  deriving DecidableEq, Repr

namespace Dump

structure BadSize where
  size : Nat
  deriving DecidableEq, Repr

def BadSize.message (e : BadSize) : String :=
  String.join ["microcode image of ", Text.decimal e.size,
    " bytes is not a power-of-two number of instruction pairs"]

def ofBytes (bytes : Array UInt8) : Except BadSize Dump :=
  if h : bytes.size = 1 <<< (bytes.size.log2 - 3 + 3) then .ok ⟨bytes.size.log2 - 3, ⟨bytes, h⟩⟩
  else .error ⟨bytes.size⟩

def bytesOf (m : Image) : Array UInt8 := (m.words.toList.flatMap littleEndianBytes).toArray

def size (d : Dump) : Nat := 1 <<< (d.bits + 3)

def word (d : Dump) (a : Address) : Word :=
  let k := Image.slot (d.bits + 1) a
  have h : 4 * k.val + 3 < 1 <<< (d.bits + 3) := by
    have := k.isLt
    simp only [Nat.one_shiftLeft, Nat.pow_succ] at this ⊢; omega
  littleEndian d.bytes[4 * k.val] d.bytes[4 * k.val + 1] d.bytes[4 * k.val + 2] d.bytes[4 * k.val + 3]

def toMemory (d : Dump) : Memory := ⟨d.word⟩

def summary (d : Dump) : String :=
  String.join ["MappedMicrocode \x7b len: \"", Text.hex d.size, "\" \x7d"]

end Dump

end DualIssue
