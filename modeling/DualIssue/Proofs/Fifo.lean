import DualIssue.Proofs.Coherence
import Mathlib.Data.List.Nodup

set_option autoImplicit false

namespace DualIssue

inductive Request where
  | get (memory : Memory) (block : Block)
  | invalidate (first stop : Address)
  | clear

abbrev Reply := Option (Except Stop Cache.Answer)

namespace Cache

def serve (isa : InstructionSet) (c : Cache) : Request → Reply × Cache
  | .get m b => (some (c.get isa m b).1, (c.get isa m b).2)
  | .invalidate first stop => (none, c.invalidate first stop)
  | .clear => (none, c.clear)

def serveAll (isa : InstructionSet) (c : Cache) : List Request → List Reply × Cache
  | [] => ([], c)
  | r :: requests =>
    ((c.serve isa r).1 :: ((c.serve isa r).2.serveAll isa requests).1,
      ((c.serve isa r).2.serveAll isa requests).2)

end Cache

/-- The last of the entries for each block, in the order of these. -/
def Entry.latest : List Entry → List Entry
  | [] => []
  | e :: rest => if rest.any (·.block == e.block) then latest rest else e :: latest rest

namespace Queue

variable (options : Options) (isa : InstructionSet) (capacity : Nat)

/-- One request to a queue: what it holds, what it is asked, what it answers, what it has to compile
for that, and what it holds then. -/
inductive Step : List Entry → Request → Reply → List Entry → List Entry → Prop
  | present {held : List Entry} {e : Entry} (m : Memory) (he : e ∈ held) :
    Step held (.get m e.block) (some (.ok ⟨e.code, 0⟩)) [] held
  | refused {held : List Entry} {m : Memory} {b : Block} {stop : Stop}
    (hb : ∀ e ∈ held, e.block ≠ b) (h : compile options isa m b = .error stop) :
    Step held (.get m b) (some (.error stop)) [] held
  | joins {held : List Entry} {m : Memory} {b : Block} {done : Compiled}
    (hb : ∀ e ∈ held, e.block ≠ b) (h : compile options isa m b = .ok done)
    (hroom : held.length < capacity) :
    Step held (.get m b) (some (.ok ⟨done.draft.code, done.issued.length⟩))
      [⟨b, done.report, done.draft.code⟩] (held ++ [⟨b, done.report, done.draft.code⟩])
  | replaces {oldest : Entry} {rest : List Entry} {m : Memory} {b : Block} {done : Compiled}
    (hb : ∀ e ∈ oldest :: rest, e.block ≠ b) (h : compile options isa m b = .ok done)
    (hfull : (oldest :: rest).length = capacity) :
    Step (oldest :: rest) (.get m b) (some (.ok ⟨done.draft.code, done.issued.length⟩))
      [⟨b, done.report, done.draft.code⟩] (rest ++ [⟨b, done.report, done.draft.code⟩])
  | invalidate {held kept : List Entry} (first stop : Address) (h : kept.Sublist held) :
    Step held (.invalidate first stop) none [] kept
  | clear {held : List Entry} : Step held .clear none [] []

inductive Runs : List Entry → List Request → List Reply → List Entry → List Entry → Prop
  | done {held : List Entry} : Runs held [] [] [] held
  | more {held mid held' new log : List Entry} {r : Request} {reply : Reply} {requests : List Request}
    {replies : List Reply} (h : Step options isa capacity held r reply new mid)
    (hs : Runs mid requests replies log held') :
    Runs held (r :: requests) (reply :: replies) (new ++ log) held'

end Queue

namespace Entry

theorem mem_of_mem_latest {e : Entry} {log : List Entry} (h : e ∈ latest log) : e ∈ log := by
  induction log with
  | nil => exact h
  | cons x log ih =>
    unfold latest at h
    split at h
    · exact List.mem_cons_of_mem x (ih h)
    · rcases List.mem_cons.1 h with rfl | h
      · exact List.mem_cons_self
      · exact List.mem_cons_of_mem x (ih h)

theorem nodup_latest (log : List Entry) : ((latest log).map (·.block)).Nodup := by
  induction log with
  | nil => exact List.nodup_nil
  | cons e log ih =>
    unfold latest
    split
    · exact ih
    · rename_i hnew
      rw [List.map_cons, List.nodup_cons]
      refine ⟨?_, ih⟩
      intro hmem
      obtain ⟨x, hx, hb⟩ := List.mem_map.1 hmem
      exact hnew (List.any_eq_true.2 ⟨x, mem_of_mem_latest hx, by simpa using hb⟩)

theorem latest_concat (log : List Entry) (e : Entry) :
    latest (log ++ [e]) = (latest log).filter (·.block ≠ e.block) ++ [e] := by
  induction log with
  | nil => simp [latest]
  | cons x log ih =>
    by_cases hx : x.block = e.block
    · have hlater : (log ++ [e]).any (·.block == x.block) = true := by simp [hx]
      rw [List.cons_append, latest, if_pos hlater, ih, latest]
      split
      · rfl
      · simp [hx]
    · have hsame : (log ++ [e]).any (·.block == x.block) = log.any (·.block == x.block) := by
        simp [Ne.symm hx]
      rw [List.cons_append, latest, hsame, latest]
      split
      · exact ih
      · rw [ih]
        simp [hx]

end Entry

namespace Queue

/-- The queue is as long as it may be at most, and holds last compilations in their order. -/
structure Ordered (capacity : Nat) (log held : List Entry) : Prop where
  bounded : held.length ≤ capacity
  inOrder : held.Sublist (Entry.latest log)

variable {options : Options} {isa : InstructionSet} {capacity : Nat}
  {log held held' new : List Entry} {r : Request} {reply : Reply}

theorem Ordered.distinct (h : Ordered capacity log held) : (held.map (·.block)).Nodup :=
  (Entry.nodup_latest log).sublist (h.inOrder.map _)

theorem Ordered.shrink (h : Ordered capacity log held) (hs : held'.Sublist held) :
    Ordered capacity log held' :=
  ⟨Nat.le_trans hs.length_le h.bounded, hs.trans h.inOrder⟩

theorem Ordered.join (h : Ordered capacity log held) {e : Entry} (hroom : held.length < capacity)
    (hb : ∀ x ∈ held, x.block ≠ e.block) : Ordered capacity (log ++ [e]) (held ++ [e]) := by
  constructor
  · rw [List.length_append, List.length_singleton]
    omega
  · rw [Entry.latest_concat]
    have hall : held.filter (·.block ≠ e.block) = held := by
      rw [List.filter_eq_self]
      intro x hx
      simpa using hb x hx
    have hfilter := h.inOrder.filter (·.block ≠ e.block)
    rw [hall] at hfilter
    exact hfilter.append (List.Sublist.refl [e])

theorem Step.ordered (h : Step options isa capacity held r reply new held')
    (ho : Ordered capacity log held) : Ordered capacity (log ++ new) held' := by
  cases h with
  | present m he => simpa using ho
  | refused hb hc => simpa using ho
  | joins hb hc hroom => exact ho.join hroom hb
  | replaces hb hc hfull =>
    refine (ho.shrink (List.sublist_cons_self _ _)).join ?_ ?_
    · simp only [List.length_cons] at hfull
      omega
    · intro x hx
      exact hb x (List.mem_cons_of_mem _ hx)
  | invalidate first stop hs => simpa using ho.shrink hs
  | clear => simpa using ho.shrink (List.nil_sublist held)

theorem Runs.ordered {requests : List Request} {replies : List Reply}
    (h : Runs options isa capacity held requests replies new held') (ho : Ordered capacity log held) :
    Ordered capacity (log ++ new) held' := by
  induction h generalizing log with
  | done => simpa using ho
  | more hstep _ ih =>
    rw [← List.append_assoc]
    exact ih (hstep.ordered ho)

theorem Step.keeps (h : Step options isa capacity held r reply new held')
    (hd : (held.map (·.block)).Nodup) {e e' : Entry} (he : e ∈ held) (he' : e' ∈ held')
    (hb : e.block = e'.block) : e = e' := by
  have hinj : ∀ {x}, x ∈ held → e.block = x.block → e = x := fun hx => List.inj_on_of_nodup_map hd he hx
  cases h with
  | present m _ => exact hinj he' hb
  | refused _ _ => exact hinj he' hb
  | joins habsent _ _ =>
    rcases List.mem_append.1 he' with he' | he'
    · exact hinj he' hb
    · rw [List.mem_singleton] at he'
      subst he'
      exact absurd hb (habsent e he)
  | replaces habsent _ _ =>
    rcases List.mem_append.1 he' with he' | he'
    · exact hinj (List.mem_cons_of_mem _ he') hb
    · rw [List.mem_singleton] at he'
      subst he'
      exact absurd hb (habsent e he)
  | invalidate first stop hs => exact hinj (hs.subset he') hb
  | clear => cases he'

end Queue

namespace Cache

variable {isa : InstructionSet} {c : Cache}

theorem find?_eq_none {b : Block} : c.find? b = none ↔ ∀ e ∈ c.entries, e.block ≠ b := by
  simp [find?]

theorem entries_makeRoom (c : Cache) :
    c.makeRoom.entries = if c.capacity ≤ c.size then c.entries.tail else c.entries := by
  unfold makeRoom isFull
  by_cases h : c.capacity ≤ c.size <;> simp [h]

theorem step_get (hisa : isa.ClosesRegions) (hsize : c.size ≤ c.capacity) (m : Memory) (b : Block) :
    ∃ new, Queue.Step c.options isa c.capacity c.entries (.get m b) (some (c.get isa m b).1) new
      (c.get isa m b).2.entries := by
  unfold get
  split
  · rename_i e he
    obtain ⟨hmem, rfl⟩ := find?_eq_some he
    exact ⟨[], .present m hmem⟩
  · rename_i hnone
    rw [find?_eq_none] at hnone
    split
    · rename_i stop hstop
      exact ⟨[], .refused hnone hstop⟩
    · rename_i done hdone
      simp only [hisa.finish hdone, add, entries_makeRoom]
      by_cases hfull : c.capacity ≤ c.size
      · have hpos := c.capacity_pos
        unfold size at hsize hfull
        cases hentries : c.entries with
        | nil =>
          simp [hentries] at hfull
          omega
        | cons oldest rest =>
          rw [hentries] at hnone hsize hfull
          rw [size, hentries, if_pos hfull]
          exact ⟨_, .replaces hnone hdone (Nat.le_antisymm hsize hfull)⟩
      · rw [if_neg hfull]
        exact ⟨_, .joins hnone hdone (Nat.lt_of_not_le hfull)⟩

theorem step_serve (hisa : isa.ClosesRegions) (hsize : c.size ≤ c.capacity) (r : Request) :
    ∃ new, Queue.Step c.options isa c.capacity c.entries r (c.serve isa r).1 new
      (c.serve isa r).2.entries := by
  cases r with
  | get m b => exact step_get hisa hsize m b
  | invalidate first stop => exact ⟨[], .invalidate first stop List.filter_sublist⟩
  | clear => exact ⟨[], .clear⟩

theorem capacity_get (c : Cache) (isa : InstructionSet) (m : Memory) (b : Block) :
    (c.get isa m b).2.capacity = c.capacity := by
  have hroom : c.makeRoom.capacity = c.capacity := by
    unfold makeRoom
    split <;> rfl
  unfold get
  split
  · rfl
  · split
    · rfl
    · split <;> exact hroom

theorem limits_serve (isa : InstructionSet) (c : Cache) (r : Request) :
    (c.serve isa r).2.options = c.options ∧ (c.serve isa r).2.capacity = c.capacity := by
  cases r with
  | get m b => exact ⟨options_get c isa m b, capacity_get c isa m b⟩
  | invalidate first stop => exact ⟨rfl, rfl⟩
  | clear => exact ⟨rfl, rfl⟩

theorem runs_serveAll (hisa : isa.ClosesRegions) {log : List Entry}
    (ho : Queue.Ordered c.capacity log c.entries) (requests : List Request) :
    ∃ new, Queue.Runs c.options isa c.capacity c.entries requests (c.serveAll isa requests).1 new
      (c.serveAll isa requests).2.entries := by
  induction requests generalizing c log with
  | nil => exact ⟨[], .done⟩
  | cons r requests ih =>
    obtain ⟨hoptions, hcapacity⟩ := limits_serve isa c r
    obtain ⟨new, hstep⟩ := step_serve hisa ho.bounded r
    have hnext := hstep.ordered ho
    rw [← hcapacity] at hnext
    obtain ⟨rest, hruns⟩ := ih hnext
    rw [hoptions, hcapacity] at hruns
    exact ⟨new ++ rest, .more hstep hruns⟩

theorem capacity_serveAll (isa : InstructionSet) (c : Cache) (requests : List Request) :
    (c.serveAll isa requests).2.capacity = c.capacity := by
  induction requests generalizing c with
  | nil => rfl
  | cons r requests ih =>
    unfold serveAll
    rw [ih, (limits_serve isa c r).2]

theorem new_eq_ok {options : Options} {capacity : Nat} (h : Cache.new options capacity = .ok c) :
    c.options = options ∧ c.capacity = capacity ∧ c.entries = [] := by
  unfold Cache.new at h
  split at h
  · cases h
    exact ⟨rfl, rfl, rfl⟩
  · cases h

/-- A cache answers any sequence of requests as a bounded queue does. It holds different blocks, no
more than it has room for, each as it was compiled last, in the order of these compilations, and
an entry that stays is not changed. -/
theorem serves_as_queue (hisa : isa.ClosesRegions) {options : Options} {capacity : Nat}
    (hc : Cache.new options capacity = .ok c) (requests : List Request) :
    let held := (c.serveAll isa requests).2.entries
    ∃ log, Queue.Runs options isa capacity [] requests (c.serveAll isa requests).1 log held ∧
      (held.map (·.block)).Nodup ∧ held.length ≤ capacity ∧ held.Sublist (Entry.latest log) ∧
      ∀ r, ∀ e ∈ held, ∀ e' ∈ ((c.serveAll isa requests).2.serve isa r).2.entries,
        e.block = e'.block → e = e' := by
  intro held
  obtain ⟨rfl, rfl, hempty⟩ := new_eq_ok hc
  have hstart : Queue.Ordered c.capacity [] c.entries := by
    rw [hempty]
    exact ⟨Nat.zero_le _, List.Sublist.refl []⟩
  obtain ⟨log, hruns⟩ := runs_serveAll hisa hstart requests
  have ho : Queue.Ordered c.capacity log held := hruns.ordered hstart
  rw [hempty] at hruns
  refine ⟨log, hruns, ho.distinct, ho.bounded, ho.inOrder, ?_⟩
  intro r e he e' he' hb
  have hsize : held.length ≤ (c.serveAll isa requests).2.capacity := by
    rw [capacity_serveAll]
    exact ho.bounded
  obtain ⟨new, hstep⟩ := step_serve hisa hsize r
  exact hstep.keeps ho.distinct he he' hb

end Cache

def Block.sixteen : Block := ⟨16, 20, rfl, rfl, by decide, by decide⟩

def Request.threeBlocks : List Request :=
  let m : Memory := ⟨fun _ => 0⟩
  [.get m .zero, .get m .eight, .get m .zero, .invalidate 0 8, .get m .zero, .get m .sixteen]

theorem Cache.replaces_oldest : ∃ c log, Cache.new {} 2 = .ok c ∧
    (c.serveAll literals Request.threeBlocks).2.entries.map (·.block) = [.zero, .sixteen] ∧
    Queue.Runs {} literals 2 [] Request.threeBlocks (c.serveAll literals Request.threeBlocks).1 log
      (c.serveAll literals Request.threeBlocks).2.entries ∧
    (c.serveAll literals Request.threeBlocks).2.entries.Sublist (Entry.latest log) := by
  have hnew : ∃ c, Cache.new {} 2 = .ok c ∧
      (c.serveAll literals Request.threeBlocks).2.entries.map (·.block) = [.zero, .sixteen] :=
    ⟨_, rfl, rfl⟩
  obtain ⟨c, hc, hblocks⟩ := hnew
  obtain ⟨log, hruns, -, -, hlatest, -⟩ := serves_as_queue closesRegions_literals hc Request.threeBlocks
  exact ⟨c, log, hc, hblocks, hruns, hlatest⟩

end DualIssue
