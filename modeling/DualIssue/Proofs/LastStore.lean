import DualIssue.Proofs.Aliasing

set_option autoImplicit false

namespace DualIssue

structure PairStore where
  address : Address
  lower : Word
  upper : Word
  deriving DecidableEq, Repr

namespace PairStore

/-- The last store that wraps to the address, in a memory of so many bytes. -/
def lastTo (bytes : Nat) (a : Address) (stores : List PairStore) : Option PairStore :=
  (stores.filter fun s => s.address.toNat % bytes = a.toNat % bytes).getLast?

theorem lastTo_cons (bytes : Nat) (a : Address) (s : PairStore) (stores : List PairStore) :
    lastTo bytes a (s :: stores) = (lastTo bytes a stores).or
      (if s.address.toNat % bytes = a.toNat % bytes then some s else none) := by
  by_cases h : s.address.toNat % bytes = a.toNat % bytes
  · simp only [lastTo, h, List.filter_cons, decide_true, if_true, List.getLast?_cons]
    cases (stores.filter _).getLast? <;> rfl
  · simp [lastTo, h]

end PairStore

def Memory.fetchPair (m : Memory) (a : Address) : Except Fault (Word × Word) := do
  let lower ← m.fetch a
  let upper ← m.fetch (a + 4)
  .ok (lower, upper)

theorem Memory.fetchPair_eq (m : Memory) {a : Address} (h : a.toNat % 8 = 0) :
    m.fetchPair a = .ok (m.word a, m.word (a + 4)) := by
  have hfour := toNat_add_four h
  have h0 : a.toNat % 4 = 0 := by omega
  have h4 : (a + 4).toNat % 4 = 0 := by omega
  rw [fetchPair, fetch, fetch, if_pos h0, if_pos h4]
  rfl

namespace Image

def bytes (m : Image) : Nat := 4 * 1 <<< m.bits

def load (m : Image) (stores : List PairStore) : Except Fault Image :=
  stores.foldlM (fun m s => m.storePair s.address s.lower s.upper) m

/-- Whatever pairs are stored in the memory, the last one that wraps to an address is found there. -/
def LastStoreWins (m : Image) : Prop :=
  ∀ stores : List PairStore, (∀ s ∈ stores, s.address.toNat % 8 = 0) →
    ∃ m', m.load stores = .ok m' ∧ ∀ a : Address, a.toNat % 8 = 0 →
      m'.toMemory.fetchPair a =
        match PairStore.lastTo m.bytes a stores with
        | some s => .ok (s.lower, s.upper)
        | none => m.toMemory.fetchPair a

/-- What the memory keeps of a pair. In a single word the upper half is written over the lower one. -/
def kept (m : Image) (s : PairStore) : Word × Word := (if m.bits = 0 then s.upper else s.lower, s.upper)

theorem slot_pair {bits n : Nat} (hn : 1 <<< bits = 2 * n) {a : Address} (ha : a.toNat % 8 = 0) :
    (slot bits a).val = 2 * (a.toNat / 8 % n) ∧ (slot bits (a + 4)).val = 2 * (a.toNat / 8 % n) + 1 := by
  have hlower : a.toNat / 4 / 2 = a.toNat / 8 := by omega
  have hupper : (a.toNat + 4) / 4 / 2 = a.toNat / 8 := by omega
  simp only [slot, hn, toNat_add_four ha, Nat.mod_mul, hlower, hupper]
  omega

variable {m m' : Image} {a b : Address} {lower upper : Word}

theorem word_put_put (x : Address) : ((m.put a lower).put b upper).word x =
    if slot m.bits b = slot m.bits x then upper
    else if slot m.bits a = slot m.bits x then lower else m.word x := by
  rw [word_put, word_put]
  rfl

theorem storePair_eq (ha : a.toNat % 8 = 0) :
    m.storePair a lower upper = .ok ((m.put a lower).put (a + 4) upper) := if_pos ha

theorem fetchPair_put_of_single (hm : m.bits = 0) (hb : b.toNat % 8 = 0) :
    ((m.put a lower).put (a + 4) upper).toMemory.fetchPair b = .ok (upper, upper) := by
  have hword : ∀ x, ((m.put a lower).put (a + 4) upper).word x = upper := by
    intro x
    have hslot : slot m.bits (a + 4) = slot m.bits x := by
      rw [Fin.ext_iff, slot, slot, hm]
      omega
    rw [word_put_put, if_pos hslot]
  simp only [Memory.fetchPair_eq _ hb, toMemory, hword]

theorem fetchPair_put_of_even (hm : m.bits ≠ 0) (ha : a.toNat % 8 = 0) (hb : b.toNat % 8 = 0) :
    ((m.put a lower).put (a + 4) upper).toMemory.fetchPair b =
      if a.toNat % m.bytes = b.toNat % m.bytes then .ok (lower, upper) else m.toMemory.fetchPair b := by
  obtain ⟨n, hn⟩ := even_size (Nat.one_le_iff_ne_zero.2 hm)
  obtain ⟨halo, hahi⟩ := slot_pair hn ha
  obtain ⟨hblo, hbhi⟩ := slot_pair hn hb
  have hbytes : m.bytes = 8 * n := by
    unfold bytes
    omega
  have hsame : a.toNat % m.bytes = b.toNat % m.bytes ↔ a.toNat / 8 % n = b.toNat / 8 % n := by
    rw [hbytes, Nat.mod_mul, Nat.mod_mul, ha, hb]
    omega
  have hlower : slot m.bits a = slot m.bits b ↔ a.toNat % m.bytes = b.toNat % m.bytes := by
    rw [Fin.ext_iff, hsame]
    omega
  have hupper : slot m.bits (a + 4) = slot m.bits (b + 4) ↔ a.toNat % m.bytes = b.toNat % m.bytes := by
    rw [Fin.ext_iff, hsame]
    omega
  have hapart : slot m.bits (a + 4) ≠ slot m.bits b ∧ slot m.bits a ≠ slot m.bits (b + 4) := by
    rw [Ne, Ne, Fin.ext_iff, Fin.ext_iff]
    omega
  simp only [Memory.fetchPair_eq _ hb, toMemory, word_put_put, hlower, hupper, hapart.1, hapart.2, if_false]
  split <;> rfl

theorem word_blank (bits : Nat) (x : Address) : (blank bits).word x = 0 := by
  simp [word, blank]

theorem fetchPair_storePair {s : PairStore} (hs : s.address.toNat % 8 = 0) (hb : b.toNat % 8 = 0)
    (h : m.storePair s.address s.lower s.upper = .ok m') : m'.toMemory.fetchPair b =
      if s.address.toNat % m.bytes = b.toNat % m.bytes then .ok (m.kept s) else m.toMemory.fetchPair b := by
  rw [storePair_eq hs] at h
  cases h
  by_cases hm : m.bits = 0
  · have hbytes : m.bytes = 4 := by
      rw [bytes, hm]
      rfl
    have hsame : s.address.toNat % m.bytes = b.toNat % m.bytes := by
      rw [hbytes]
      omega
    rw [fetchPair_put_of_single hm hb, if_pos hsame, kept, if_pos hm]
  · rw [fetchPair_put_of_even hm hs hb, kept, if_neg hm]

theorem load_eq {stores : List PairStore} (haligned : ∀ s ∈ stores, s.address.toNat % 8 = 0) :
    ∃ m', m.load stores = .ok m' ∧ ∀ a : Address, a.toNat % 8 = 0 →
      m'.toMemory.fetchPair a =
        match PairStore.lastTo m.bytes a stores with
        | some s => .ok (m.kept s)
        | none => m.toMemory.fetchPair a := by
  induction stores generalizing m with
  | nil => exact ⟨m, rfl, fun a _ => rfl⟩
  | cons s stores ih =>
    have hs : s.address.toNat % 8 = 0 := haligned s (by simp)
    have hstore : m.storePair s.address s.lower s.upper = _ := storePair_eq hs
    obtain ⟨m', hload, hfound⟩ := ih (m := (m.put s.address s.lower).put (s.address + 4) s.upper)
      fun t ht => haligned t (by simp [ht])
    refine ⟨m', ?_, ?_⟩
    · rw [load, List.foldlM_cons, hstore]
      exact hload
    · intro a ha
      rw [hfound a ha, PairStore.lastTo_cons, fetchPair_storePair hs ha hstore]
      show (match PairStore.lastTo m.bytes a stores with | some t => _ | none => _) = _
      cases PairStore.lastTo m.bytes a stores with
      | some t => rfl
      | none => by_cases hsame : s.address.toNat % m.bytes = a.toNat % m.bytes <;> simp [hsame]

theorem lastStoreWins_iff : m.LastStoreWins ↔ m.bits ≠ 0 := by
  constructor
  · intro h hm
    have haligned : ∀ s ∈ [(⟨0, 1, 2⟩ : PairStore)], s.address.toNat % 8 = 0 := by simp
    obtain ⟨m', hload, hwins⟩ := h _ haligned
    obtain ⟨m'', hload', hkept⟩ := load_eq (m := m) haligned
    rw [hload] at hload'
    cases hload'
    have hpair := (hwins 0 rfl).symm.trans (hkept 0 rfl)
    simp [PairStore.lastTo, kept, hm] at hpair
  · intro hm stores haligned
    obtain ⟨m', hload, hkept⟩ := load_eq (m := m) haligned
    refine ⟨m', hload, ?_⟩
    intro a ha
    rw [hkept a ha]
    cases PairStore.lastTo m.bytes a stores with
    | none => rfl
    | some s => simp only [kept, hm, if_false]

theorem bits_zeros {size : Nat} (h : zeros size = .ok m) : 1 <<< m.bits = size := by
  unfold zeros at h
  split at h
  · rename_i hsize
    cases h
    exact hsize
  · cases h

theorem exists_zeros_iff (size : Nat) : (∃ m, zeros size = .ok m) ↔ size.isPowerOfTwo := by
  constructor
  · rintro ⟨m, h⟩
    exact ⟨m.bits, (bits_zeros h).symm.trans (Nat.one_shiftLeft _)⟩
  · rintro ⟨k, rfl⟩
    have hsize : 1 <<< (2 ^ k).log2 = 2 ^ k := by rw [Nat.log2_two_pow, Nat.one_shiftLeft]
    exact ⟨_, if_pos hsize⟩

theorem lastTo_four {stores : List PairStore} (haligned : ∀ s ∈ stores, s.address.toNat % 8 = 0)
    (ha : a.toNat % 8 = 0) : PairStore.lastTo 4 a stores = stores.getLast? := by
  rw [PairStore.lastTo, List.filter_eq_self.2]
  intro s hs
  have h8 := haligned s hs
  simp only [decide_eq_true_eq]
  omega

end Image

/-- A memory of zeros can have any size that is a power of two. What is found in it is decided by the last
store that wraps there, whatever stores there are, exactly if it is not a single word; so it is in a memory
of given words, whatever these are. In a single word the upper half of the very last pair is found for
either half. -/
theorem last_store_wins_iff (size : Nat) (object : Array Word) :
    ((∃ m, Image.zeros size = .ok m) ↔ size.isPowerOfTwo) ∧
    (∀ m, Image.zeros size = .ok m → (m.LastStoreWins ↔ size ≠ 1)) ∧
    (Image.ofWords object).LastStoreWins ∧
    ∀ (m : Image) (stores : List PairStore), Image.zeros 1 = .ok m →
      (∀ s ∈ stores, s.address.toNat % 8 = 0) →
      ∃ m', m.load stores = .ok m' ∧ ∀ a : Address, a.toNat % 8 = 0 →
        m'.toMemory.fetchPair a =
          match stores.getLast? with
          | some s => .ok (s.upper, s.upper)
          | none => .ok (0, 0) := by
  refine ⟨Image.exists_zeros_iff size, ?_, ?_, ?_⟩
  · intro m h
    rw [Image.lastStoreWins_iff, ← Image.bits_zeros h, Nat.one_shiftLeft]
    simp
  · rw [Image.lastStoreWins_iff]
    exact Nat.succ_ne_zero _
  · intro m stores hm haligned
    cases hm
    obtain ⟨m', hload, hkept⟩ := Image.load_eq (m := Image.blank 0) haligned
    refine ⟨m', hload, ?_⟩
    intro a ha
    rw [hkept a ha, ← Image.lastTo_four haligned ha]
    show (match PairStore.lastTo 4 a stores with | some s => _ | none => _) = _
    cases PairStore.lastTo 4 a stores with
    | some s => rfl
    | none => simp only [Memory.fetchPair_eq _ ha, Image.toMemory, Image.word_blank]

namespace Sample

def stores : List PairStore := [⟨8, 1, 2⟩, ⟨24, 3, 4⟩, ⟨0, 5, 6⟩]

theorem last_of_two_found : ∃ m m', Image.zeros 4 = .ok m ∧ m.load stores = .ok m' ∧
    m'.toMemory.fetchPair 40 = .ok (3, 4) := by
  obtain ⟨haccepted, hwins, -⟩ := last_store_wins_iff 4 #[]
  obtain ⟨m, hm⟩ := haccepted.2 ⟨2, rfl⟩
  obtain ⟨m', hload, hfound⟩ := (hwins m hm).2 (by decide) stores (by decide)
  cases hm
  exact ⟨_, m', rfl, hload, hfound 40 rfl⟩

/-- In a single word the lower half of a pair is lost. -/
theorem lower_half_lost : ∃ m m', Image.zeros 1 = .ok m ∧ m.load [⟨0, 1, 2⟩] = .ok m' ∧
    PairStore.lastTo m.bytes 0 [⟨0, 1, 2⟩] = some ⟨0, 1, 2⟩ ∧
    m'.toMemory.fetchPair 0 = .ok (2, 2) ∧ ¬m.LastStoreWins := by
  refine ⟨_, _, rfl, rfl, rfl, rfl, ?_⟩
  intro h
  obtain ⟨m', hload, hfound⟩ := h [⟨0, 1, 2⟩] (by decide)
  cases hload
  cases hfound 0 rfl

end Sample

end DualIssue
