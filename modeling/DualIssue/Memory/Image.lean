import DualIssue.Memory

set_option autoImplicit false

namespace DualIssue

structure Image where
  /-- The binary logarithm of the number of words. -/
  bits : Nat
  words : Vector Word (1 <<< bits)
  deriving DecidableEq, Repr

namespace Image

theorem size_pos (bits : Nat) : 0 < 1 <<< bits := by
  rw [Nat.one_shiftLeft]
  exact Nat.two_pow_pos bits

def slot (bits : Nat) (a : Address) : Fin (1 <<< bits) :=
  ⟨a.toNat / 4 % (1 <<< bits), Nat.mod_lt _ (size_pos bits)⟩

def blank (bits : Nat) : Image := ⟨bits, Vector.replicate (1 <<< bits) 0⟩

def zeros (size : Nat) : Except Fault Image :=
  if 1 <<< size.log2 = size then .ok (blank size.log2) else .error .sizeNotPowerOfTwo

/-- The number of bits after which a memory of at least two words has room for `n`. -/
def bitsFor (n : Nat) : Nat := (max 2 n - 1).log2 + 1

theorem le_size_bitsFor (n : Nat) : max 2 n ≤ 1 <<< bitsFor n := by
  have h := Nat.lt_log2_self (n := max 2 n - 1)
  simp only [bitsFor, Nat.one_shiftLeft]; omega

theorem size_bitsFor_lt (n : Nat) : 1 <<< bitsFor n < 2 * max 2 n := by
  have h := Nat.log2_self_le (n := max 2 n - 1) (by omega)
  simp only [bitsFor, Nat.one_shiftLeft, Nat.pow_succ]; omega

def ofWords (object : Array Word) : Image where
  bits := bitsFor object.size
  words := Vector.ofFn fun k => object.getD k.val 0

def word (m : Image) (a : Address) : Word := m.words[(slot m.bits a).val]

def toMemory (m : Image) : Memory := ⟨m.word⟩

def put (m : Image) (a : Address) (w : Word) : Image :=
  { m with words := m.words.set (slot m.bits a) w }

theorem word_put (m : Image) (a b : Address) (w : Word) :
    (m.put a w).word b = if slot m.bits a = slot m.bits b then w else m.word b := by
  simp [word, put, Vector.getElem_set, Fin.ext_iff]

def storeWord (m : Image) (a : Address) (w : Word) : Except Fault Image :=
  if a.toNat % 4 = 0 then .ok (m.put a w) else .error .misaligned

def storePair (m : Image) (a : Address) (lower upper : Word) : Except Fault Image :=
  if a.toNat % 8 = 0 then .ok ((m.put a lower).put (a + 4) upper) else .error .misaligned

end Image

end DualIssue
