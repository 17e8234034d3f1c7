import DualIssue.Memory.Dump
import Mathlib.Algebra.Group.Nat.Defs

set_option autoImplicit false

namespace DualIssue

theorem littleEndianBytes_littleEndian (a b c d : UInt8) :
    littleEndianBytes (littleEndian a b c d) = [a, b, c, d] := by
  have ha := a.toNat_lt
  have hb := b.toNat_lt
  have hc := c.toNat_lt
  have hd := d.toNat_lt
  have hvalue : (littleEndian a b c d).toNat =
      a.toNat + b.toNat * 256 + c.toNat * 65536 + d.toNat * 16777216 := by
    simp [littleEndian, Nat.shiftLeft_eq]; omega
  simp only [littleEndianBytes, byteOf, hvalue, Nat.shiftRight_eq_div_pow, List.cons.injEq, and_true,
    ← UInt8.toNat_inj, UInt8.toNat_ofNat']
  omega

theorem length_flatMap_littleEndianBytes (words : List Word) :
    (words.flatMap littleEndianBytes).length = 4 * words.length := by
  induction words with
  | nil => rfl
  | cons w words ih =>
    rw [List.flatMap_cons, List.length_append, ih, List.length_cons, littleEndianBytes]
    simp; omega

theorem getElem?_flatMap_littleEndianBytes {words : List Word} {k : Nat} {w : Word}
    (hw : words[k]? = some w) {j : Nat} (hj : j < 4) :
    (words.flatMap littleEndianBytes)[4 * k + j]? = some (byteOf w j) := by
  induction words generalizing k with
  | nil => simp at hw
  | cons v words ih =>
    cases k with
    | zero =>
      simp only [List.getElem?_cons_zero, Option.some.injEq] at hw
      subst hw
      have hcases : j = 0 ∨ j = 1 ∨ j = 2 ∨ j = 3 := by omega
      rcases hcases with rfl | rfl | rfl | rfl <;> rfl
    | succ k =>
      rw [List.getElem?_cons_succ] at hw
      rw [List.flatMap_cons, List.getElem?_append_right (by simp [littleEndianBytes]; omega), ← ih hw]
      congr 1
      simp [littleEndianBytes]; omega

theorem exists_words {n : Nat} {bytes : List UInt8} (h : bytes.length = 4 * n) :
    ∃ words : List Word, words.flatMap littleEndianBytes = bytes := by
  induction n generalizing bytes with
  | zero => exact ⟨[], (List.length_eq_zero_iff.1 h).symm⟩
  | succ n ih =>
    match bytes, h with
    | a :: b :: c :: d :: rest, h =>
      simp only [List.length_cons] at h
      have hrest : rest.length = 4 * n := by omega
      obtain ⟨words, rfl⟩ := ih hrest
      refine ⟨littleEndian a b c d :: words, ?_⟩
      rw [List.flatMap_cons, littleEndianBytes_littleEndian]
      rfl

/-- The memory that consists of the words over and over again, as far as addresses go. -/
structure Memory.Repeats (words : List Word) (m : Memory) : Prop where
  aligned : ∀ a : Address, a.toNat % 4 = 0 →
    ∃ w, words[a.toNat / 4 % words.length]? = some w ∧ m.fetch a = .ok w
  misaligned : ∀ a : Address, a.toNat % 4 ≠ 0 → m.fetch a = .error .misaligned

namespace Memory

variable {words : List Word} {m m' : Memory}

theorem repeats_of_word (h : ∀ a : Address, words[a.toNat / 4 % words.length]? = some (m.word a)) :
    m.Repeats words where
  aligned := by
    intro a ha
    exact ⟨m.word a, h a, if_pos ha⟩
  misaligned := by
    intro a ha
    exact if_neg ha

theorem Repeats.fetch_eq (h : m.Repeats words) (h' : m'.Repeats words) {a c : Address}
    (hc : c.toNat % (4 * words.length) = a.toNat % (4 * words.length)) : m.fetch a = m'.fetch c := by
  have hmod : c.toNat % 4 = a.toNat % 4 := by
    rw [← Nat.mod_mul_right_mod c.toNat 4 words.length, hc, Nat.mod_mul_right_mod]
  by_cases ha : a.toNat % 4 = 0
  · have hnumber : c.toNat / 4 % words.length = a.toNat / 4 % words.length := by
      rw [← Nat.mod_mul_right_div_self, hc, Nat.mod_mul_right_div_self]
    obtain ⟨w, hw, hm⟩ := h.aligned a ha
    obtain ⟨v, hv, hm'⟩ := h'.aligned c (by omega)
    rw [hnumber, hw] at hv
    cases hv
    rw [hm, hm']
  · rw [h.misaligned a ha, h'.misaligned c (by omega)]

end Memory

theorem Image.repeats (m : Image) : m.toMemory.Repeats m.words.toList := by
  apply Memory.repeats_of_word
  intro a
  simp [toMemory, word, slot]

namespace Dump

theorem word_eq {d : Dump} {a : Address} {w : Word}
    (h : ∀ j < 4, d.bytes.toList[4 * (Image.slot (d.bits + 1) a).val + j]? = some (byteOf w j)) :
    d.word a = w := by
  have hbyte : ∀ j (hj : j < 4) (hlt : 4 * (Image.slot (d.bits + 1) a).val + j < 1 <<< (d.bits + 3)),
      d.bytes[4 * (Image.slot (d.bits + 1) a).val + j] = byteOf w j := by
    intro j hj hlt
    obtain ⟨_, hget⟩ := List.getElem?_eq_some_iff.1 (h j hj)
    exact hget
  rw [← littleEndian_byteOf w]
  unfold word
  rw [← hbyte 0 (by decide), ← hbyte 1 (by decide), ← hbyte 2 (by decide), ← hbyte 3 (by decide)]
  rfl

theorem repeats {d : Dump} {words : List Word} (h : d.bytes.toList = words.flatMap littleEndianBytes) :
    d.toMemory.Repeats words := by
  have hlength : words.length = 1 <<< (d.bits + 1) := by
    have hsize := congrArg List.length h
    rw [length_flatMap_littleEndianBytes, Vector.length_toList] at hsize
    simp only [Nat.one_shiftLeft, Nat.pow_succ] at hsize ⊢
    omega
  apply Memory.repeats_of_word
  intro a
  have hslot : (Image.slot (d.bits + 1) a).val = a.toNat / 4 % words.length := by
    rw [hlength, Image.slot]
  have hlt : a.toNat / 4 % words.length < words.length := by
    rw [← hslot, hlength]
    exact (Image.slot (d.bits + 1) a).isLt
  have hw := List.getElem?_eq_getElem hlt
  have hword : d.word a = words[a.toNat / 4 % words.length] := by
    apply word_eq
    intro j hj
    rw [hslot, h]
    exact getElem?_flatMap_littleEndianBytes hw hj
  rw [hw, ← hword, toMemory]

theorem size_accepted_iff (n : Nat) : n = 1 <<< (n.log2 - 3 + 3) ↔ n.isPowerOfTwo ∧ 8 ≤ n := by
  rw [Nat.one_shiftLeft]
  constructor
  · intro h
    have hle : 2 ^ 3 ≤ 2 ^ (n.log2 - 3 + 3) := Nat.pow_le_pow_right (by decide) (by omega)
    exact ⟨⟨_, h⟩, by omega⟩
  · rintro ⟨⟨k, rfl⟩, h8⟩
    have hk : 3 ≤ k := (Nat.pow_le_pow_iff_right (by decide : 1 < 2)).1 h8
    rw [Nat.log2_two_pow, Nat.sub_add_cancel hk]

theorem exists_ofBytes_iff (bytes : Array UInt8) :
    (∃ d, ofBytes bytes = .ok d) ↔ bytes.size.isPowerOfTwo ∧ 8 ≤ bytes.size := by
  rw [← size_accepted_iff]
  by_cases h : bytes.size = 1 <<< (bytes.size.log2 - 3 + 3)
  · simp [ofBytes, ← h]
  · simp [ofBytes, h]

theorem toList_of_ofBytes {bytes : Array UInt8} {d : Dump} (h : ofBytes bytes = .ok d) :
    d.bytes.toList = bytes.toList := by
  unfold ofBytes at h
  split at h
  · cases h
    rfl
  · cases h

end Dump

namespace Image

theorem size_least (n : Nat) : (1 <<< bitsFor n).isPowerOfTwo ∧ max 2 n ≤ 1 <<< bitsFor n ∧
    ∀ p, p.isPowerOfTwo → max 2 n ≤ p → 1 <<< bitsFor n ≤ p := by
  refine ⟨⟨bitsFor n, Nat.one_shiftLeft _⟩, le_size_bitsFor n, ?_⟩
  rintro p ⟨k, rfl⟩ hp
  have hlt := size_bitsFor_lt n
  rw [Nat.one_shiftLeft] at hlt ⊢
  have hpow : 2 ^ bitsFor n < 2 ^ (k + 1) := by
    rw [Nat.pow_succ]
    omega
  have hbits := (Nat.pow_lt_pow_iff_right (by decide : 1 < 2)).1 hpow
  exact Nat.pow_le_pow_right (by decide) (by omega)

theorem toList_ofWords (object : Array Word) : (ofWords object).words.toList =
    object.toList ++ List.replicate (1 <<< bitsFor object.size - object.size) 0 := by
  have hle := le_size_bitsFor object.size
  apply List.ext_getElem
  · simp [ofWords]; omega
  · intro k h1 h2
    by_cases hk : k < object.size
    · simp [ofWords, hk]
    · rw [List.getElem_append_right (by simpa using hk), List.getElem_replicate]
      simp [ofWords, hk]

theorem toList_ofWords_of_pow {words : List Word} (hpow : words.length.isPowerOfTwo)
    (h2 : 2 ≤ words.length) : (ofWords words.toArray).words.toList = words := by
  obtain ⟨-, hle, hleast⟩ := size_least words.length
  have hsize := hleast words.length hpow (by omega)
  have hnone : 1 <<< bitsFor words.length - words.length = 0 := by omega
  rw [toList_ofWords, List.size_toArray, hnone, List.replicate_zero, List.append_nil]

end Image

/-- A mask takes the number of a word back into a memory of which the size is a power of two. -/
theorem mask_eq_mod {n : Nat} (h : n.isPowerOfTwo) (a : Address) :
    (a >>> 2).toNat &&& (n - 1) = a.toNat / 4 % n := by
  obtain ⟨k, rfl⟩ := h
  rw [Nat.and_two_pow_sub_one_eq_mod, UInt32.toNat_shiftRight, Nat.shiftRight_eq_div_pow]
  rfl

namespace Dump

theorem exists_ofBytes_of_words {words : List Word} (hpow : words.length.isPowerOfTwo)
    (h2 : 2 ≤ words.length) : ∃ d, ofBytes (words.flatMap littleEndianBytes).toArray = .ok d := by
  obtain ⟨k, hk⟩ := hpow
  rw [exists_ofBytes_iff, List.size_toArray, length_flatMap_littleEndianBytes]
  refine ⟨⟨k + 2, ?_⟩, by omega⟩
  rw [hk, Nat.pow_add, Nat.mul_comm]

theorem exists_words_of_ofBytes {bytes : Array UInt8} {d : Dump} (h : ofBytes bytes = .ok d)
    (hsize : bytes.size ≤ 2 ^ 32) :
    ∃ words : List Word, bytes.toList = words.flatMap littleEndianBytes ∧
      bytes.size = 4 * words.length ∧
      ∀ k w, words[k]? = some w → d.toMemory.fetch (UInt32.ofNat (4 * k)) = .ok w := by
  have hbytes := toList_of_ofBytes h
  have hfours : bytes.toList.length = 4 * (1 <<< (d.bits + 1)) := by
    rw [← hbytes, Vector.length_toList]
    simp only [Nat.one_shiftLeft, Nat.pow_succ]
    omega
  obtain ⟨words, hwords⟩ := exists_words hfours
  have hlength : bytes.size = 4 * words.length := by
    rw [← Array.length_toList, ← hwords, length_flatMap_littleEndianBytes]
  refine ⟨words, hwords.symm, hlength, ?_⟩
  intro k w hw
  have hk : k < words.length := (List.getElem?_eq_some_iff.1 hw).1
  have hvalue : (UInt32.ofNat (4 * k)).toNat = 4 * k :=
    UInt32.toNat_ofNat_of_lt' (by simp only [UInt32.size]; omega)
  have hrepeats := repeats (hbytes.trans hwords.symm)
  obtain ⟨v, hv, hfetch⟩ := hrepeats.aligned (UInt32.ofNat (4 * k)) (by omega)
  rw [hvalue, Nat.mul_div_cancel_left k (by decide), Nat.mod_eq_of_lt hk, hw] at hv
  cases hv
  exact hfetch

end Dump

/-- A string of bytes is a dump exactly if its size is a power of two and at least that of a pair. Where
a dump holds the bytes of the words of an image, either memory has the words again and again, and no
others: the number of a word is what a mask leaves of the address. Every dump that addresses reach
to the end of holds the bytes of the words read from it. An image of any words has these, and then
zeros up to the least power of two. -/
theorem dump_and_image_read_alike :
    (∀ bytes : Array UInt8, (∃ d, Dump.ofBytes bytes = .ok d) ↔
      bytes.size.isPowerOfTwo ∧ 8 ≤ bytes.size) ∧
    (∀ words : List Word, words.length.isPowerOfTwo → 2 ≤ words.length →
      (Image.ofWords words.toArray).words.toList = words ∧
      (∀ a : Address, (a >>> 2).toNat &&& (words.length - 1) = a.toNat / 4 % words.length) ∧
      ∃ d, Dump.ofBytes (words.flatMap littleEndianBytes).toArray = .ok d ∧
        ∀ m : Image, m.words.toList = words →
          d.toMemory.Repeats words ∧ m.toMemory.Repeats words ∧
          ∀ a c : Address, c.toNat % (4 * words.length) = a.toNat % (4 * words.length) →
            d.toMemory.fetch a = m.toMemory.fetch c) ∧
    (∀ (bytes : Array UInt8) (d : Dump), Dump.ofBytes bytes = .ok d → bytes.size ≤ 2 ^ 32 →
      ∃ words : List Word, bytes.toList = words.flatMap littleEndianBytes ∧
        bytes.size = 4 * words.length ∧
        ∀ k w, words[k]? = some w → d.toMemory.fetch (UInt32.ofNat (4 * k)) = .ok w) ∧
    ∀ object : Array Word, ∃ size : Nat,
      (Image.ofWords object).words.toList = object.toList ++ List.replicate (size - object.size) 0 ∧
      size.isPowerOfTwo ∧ max 2 object.size ≤ size ∧
      ∀ p : Nat, p.isPowerOfTwo → max 2 object.size ≤ p → size ≤ p := by
  refine ⟨Dump.exists_ofBytes_iff, ?_, fun bytes d => Dump.exists_words_of_ofBytes, ?_⟩
  · intro words hpow h2
    obtain ⟨d, hd⟩ := Dump.exists_ofBytes_of_words hpow h2
    refine ⟨Image.toList_ofWords_of_pow hpow h2, mask_eq_mod hpow, d, hd, ?_⟩
    rintro m rfl
    have hdump := Dump.repeats (Dump.toList_of_ofBytes hd)
    exact ⟨hdump, m.repeats, fun a c hc => hdump.fetch_eq m.repeats hc⟩
  · intro object
    exact ⟨_, Image.toList_ofWords object, Image.size_least object.size⟩

namespace Sample

def stored : List Word := [0x000002FF, 0x80000000, 0x12345678, 0xDEADBEEF]

theorem stored_read_alike : ∃ d, Dump.ofBytes (stored.flatMap littleEndianBytes).toArray = .ok d ∧
    d.toMemory.fetch 24 = .ok 0x12345678 ∧
    (Image.ofWords stored.toArray).toMemory.fetch 8 = d.toMemory.fetch 24 ∧
    d.toMemory.fetch 2 = .error .misaligned := by
  obtain ⟨hwords, -, d, hd, hread⟩ := dump_and_image_read_alike.2.1 stored ⟨2, rfl⟩ (by decide)
  obtain ⟨hdump, -, hsame⟩ := hread _ hwords
  obtain ⟨w, hw, hfetch⟩ := hdump.aligned 24 (by decide)
  cases hw
  exact ⟨d, hd, hfetch, (hsame 24 8 (by decide)).symm, hdump.misaligned 2 (by decide)⟩

end Sample

end DualIssue
