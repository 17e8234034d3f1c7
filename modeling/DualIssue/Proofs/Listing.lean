import DualIssue.Proofs.Spelling
import DualIssue.Proofs.Structured

set_option autoImplicit false

namespace DualIssue

theorem Text.splitOn_lines {ls : List (List Char)} (h : ∀ l ∈ ls, '\n' ∉ l) :
    (ls.flatMap fun l => l ++ ['\n']).splitOn '\n' = ls ++ [[]] := by
  induction ls with
  | nil => rfl
  | cons l ls ih =>
    have hl := h l (by simp)
    have hls := ih fun k hk => h k (by simp [hk])
    rw [List.flatMap_cons, List.append_assoc, List.singleton_append,
      List.splitOn_append_cons_self_of_not_mem hl, hls, List.cons_append]

/-- The indentation of the line for the action, in regions, if `n` are open in front of it. -/
def Action.indent (n : Nat) : Action → Nat
  | .leave => n - 1
  | _ => n

def Action.checkedIndent (n : Nat) : Action → Option Nat
  | .leave => if n = 0 then none else some (n - 1)
  | _ => some n

theorem Action.openBehind_eq (a : Action) (n : Nat) : a.openBehind n = a.indent n + a.opens.toNat := by
  cases a <;> rfl

namespace Code

/-- The lines, unless the count of open regions would go below zero. It goes down in front of the line for
the end of a region, and up behind the line for the start of one. -/
def checkedLines (n : Nat) : Code → Option (List String)
  | [] => some []
  | a :: rest => do
    let depth ← a.checkedIndent n
    let below ← checkedLines (depth + a.opens.toNat) rest
    some (lines.line depth a :: below)

def leavesOpen : Code → Bool
  | .enter _ :: rest => (behind 1 rest).isNone
  | _ => false

/-- The number of regions that start before the action numbered `i` and are still open behind it. -/
def regionsAround (code : Code) (i : Nat) : Nat :=
  (List.range i).countP fun j => leavesOpen ((code.take (i + 1)).drop j)

def checkedListing (code : Code) : Option String :=
  (checkedLines 0 code).map fun ls => String.join (ls.flatMap fun line => [line, "\n"])

theorem lines_cons (n : Nat) (a : Action) (rest : Code) :
    lines n (a :: rest) = lines.line (a.indent n) a :: lines (a.openBehind n) rest := by
  cases a <;> rfl

theorem toList_line (n : Nat) (a : Action) :
    (lines.line n a).toList = List.replicate (4 * n) ' ' ++ a.text.toList := by
  simp [lines.line]

theorem openBehind_cons (n : Nat) (a : Action) (rest : Code) :
    openBehind n (a :: rest) = openBehind (a.openBehind n) rest := rfl

theorem openBehind_append (n : Nat) (x y : Code) : openBehind n (x ++ y) = openBehind (openBehind n x) y :=
  List.foldl_append

theorem openBehind_concat (n : Nat) (x : Code) (a : Action) :
    openBehind n (x ++ [a]) = a.openBehind (openBehind n x) := openBehind_append n x [a]

theorem openBehind_flatten (n : Nat) (p : Program) : openBehind n p.flatten = n := by
  induction p generalizing n with
  | done => rfl
  | act p => cases p <;> rfl
  | seq x y hx hy => rw [Program.flatten, openBehind_append, hx, hy]
  | region c body ih =>
    rw [Program.flatten, openBehind_cons, openBehind_append, ih]
    rfl

theorem checkedLines_of_follow {s t : Shape} {code : Code} (h : s.follow code = .ok t) :
    checkedLines s.regions.length code = some (lines s.regions.length code) := by
  induction code generalizing s with
  | nil => rfl
  | cons a code ih =>
    rcases bind_eq_ok.1 h with ⟨u, hu, h⟩
    have hcount := Shape.regions_step hu
    have hdepth : a.checkedIndent s.regions.length = some (a.indent s.regions.length) := by
      cases a with
      | leave =>
        have hpos : u.regions.length + 1 = s.regions.length := hcount
        exact if_neg (by omega)
      | _ => rfl
    have hbehind : u.regions.length = a.openBehind s.regions.length := by
      cases a with
      | leave => exact Nat.eq_sub_of_add_eq hcount
      | _ => exact hcount
    rw [checkedLines, hdepth, lines_cons, ← hbehind]
    simp only [Option.bind_eq_bind, Option.bind_some]
    rw [← Action.openBehind_eq, ← hbehind, ih h]
    rfl

def strays : Code → Nat
  | [] => 0
  | .enter _ :: rest => strays rest - 1
  | .leave :: rest => strays rest + 1
  | _ :: rest => strays rest

def unclosed : Code → Nat
  | [] => 0
  | a :: rest => unclosed rest + (leavesOpen (a :: rest)).toNat

theorem behind_eq_none_iff (depth : Nat) (code : Code) : behind depth code = none ↔ strays code < depth := by
  fun_induction behind depth code with
  | case1 code => simp
  | case2 depth => simp [strays]
  | case3 depth c code ih =>
    rw [ih, strays]
    omega
  | case4 depth code ih =>
    rw [ih, strays]
    omega
  | case5 depth a code hc hl ih =>
    cases a with
    | enter c => exact absurd rfl (hc c)
    | leave => exact absurd rfl hl
    | _ => exact ih

/-- Behind the code, its own starts that have no end are open, and of the regions open before it those that
its stray ends have left over. -/
theorem openBehind_eq (n : Nat) (code : Code) : openBehind n code = unclosed code + (n - strays code) := by
  induction code generalizing n with
  | nil => simp [openBehind, unclosed, strays]
  | cons a code ih =>
    rw [openBehind_cons, ih, unclosed]
    cases a with
    | enter c =>
      -- the region that starts here is closed by the first stray end of the rest, if there is one
      have hopen : leavesOpen (.enter c :: code) = decide (strays code < 1) := by
        rw [leavesOpen, Bool.eq_iff_iff, Option.isNone_iff_eq_none, behind_eq_none_iff, decide_eq_true_iff]
      rw [hopen, strays, Action.openBehind]
      by_cases hs : strays code < 1
      · simp only [hs, decide_true, Bool.toNat_true]
        omega
      · simp only [hs, decide_false, Bool.toNat_false]
        omega
    | leave =>
      rw [strays, Action.openBehind]
      show _ = unclosed code + 0 + _
      omega
    | _ => rfl

theorem unclosed_eq_countP (code : Code) :
    unclosed code = (List.range code.length).countP fun j => leavesOpen (code.drop j) := by
  induction code with
  | nil => rfl
  | cons a code ih =>
    rw [unclosed, ih, List.length_cons, List.range_succ_eq_map, List.countP_cons, List.countP_map]
    simp only [Function.comp_def, Nat.succ_eq_add_one, List.drop_succ_cons, List.drop_zero]
    cases leavesOpen (a :: code) <;> rfl

theorem regionsAround_append (x : Code) (a : Action) (y : Code) :
    regionsAround (x ++ a :: y) x.length = a.indent (openBehind 0 x) := by
  have htake : (x ++ a :: y).take (x.length + 1) = x ++ [a] := by
    rw [List.take_length_add_append]
    rfl
  have hlast : leavesOpen ((x ++ [a]).drop x.length) = a.opens := by
    rw [List.drop_left]
    cases a <;> rfl
  have hcount : unclosed (x ++ [a]) = regionsAround (x ++ a :: y) x.length + a.opens.toNat := by
    rw [unclosed_eq_countP, List.length_append, List.length_singleton, List.range_succ, List.countP_append,
      List.countP_singleton, hlast, regionsAround, htake]
    cases a.opens <;> rfl
  have hopen := openBehind_eq 0 (x ++ [a])
  rw [hcount, openBehind_concat, Action.openBehind_eq] at hopen
  omega

theorem regionsAround_end (x : Code) (c : Condition) (p : Program) (y : Code) :
    regionsAround (x ++ .enter c :: (p.flatten ++ .leave :: y)) (x.length + p.flatten.length + 1) =
      regionsAround (x ++ .enter c :: (p.flatten ++ .leave :: y)) x.length := by
  have hcode : x ++ .enter c :: (p.flatten ++ .leave :: y) = (x ++ .enter c :: p.flatten) ++ .leave :: y := by
    simp
  have hlength : x.length + p.flatten.length + 1 = (x ++ .enter c :: p.flatten).length := by
    simp; omega
  rw [regionsAround_append, hcode, hlength, regionsAround_append, openBehind_append, openBehind_cons,
    openBehind_flatten]
  rfl

theorem map_toList_lines (x y : Code) : (lines (openBehind 0 x) y).map String.toList =
    y.mapIdx fun i a => List.replicate (4 * regionsAround (x ++ y) (x.length + i)) ' ' ++ a.text.toList := by
  induction y generalizing x with
  | nil => rfl
  | cons a y ih =>
    rw [lines_cons, List.map_cons, toList_line, ← openBehind_concat, ih, List.mapIdx_cons, Nat.add_zero,
      regionsAround_append]
    simp [Nat.add_assoc, Nat.add_comm 1]

theorem splitOn_listing (code : Code) : code.listing.toList.splitOn '\n' =
    (code.mapIdx fun i a => List.replicate (4 * code.regionsAround i) ' ' ++ a.text.toList) ++ [[]] := by
  have hlisting : code.listing.toList =
      ((lines (openBehind 0 []) code).map String.toList).flatMap fun l => l ++ ['\n'] := by
    simp [listing, openBehind, List.flatMap_map, List.flatMap_assoc]
  rw [hlisting, map_toList_lines]
  simp only [List.nil_append, List.length_nil, Nat.zero_add]
  apply Text.splitOn_lines
  intro l hl
  rcases List.mem_mapIdx.1 hl with ⟨i, hi, rfl⟩
  have htext := code[i].newline_not_mem_text
  simp [htext]

def read (listing : String) : Option Code :=
  (listing.toList.splitOn '\n').dropLast.mapM fun line => Action.ofText (line.dropWhile (· == ' '))

theorem ofText_indented (k : Nat) (a : Action) :
    Action.ofText ((List.replicate k ' ' ++ a.text.toList).dropWhile (· == ' ')) = some a := by
  have hspaces : ∀ c ∈ List.replicate k ' ', (c == ' ') = true := by
    intro c hc
    rw [(List.mem_replicate.1 hc).2]
    rfl
  have htext : a.text.toList.dropWhile (· == ' ') = a.text.toList := by
    have hhead := a.head?_text
    cases h : a.text.toList with
    | nil => rfl
    | cons c rest =>
      rw [h] at hhead
      exact List.dropWhile_cons_of_neg (by simpa using hhead)
  rw [List.dropWhile_append_of_pos hspaces, htext, Action.ofText_text]

theorem mapM_ofText (depth : Nat → Nat) (code : Code) :
    (code.mapIdx fun i a => List.replicate (depth i) ' ' ++ a.text.toList).mapM
      (fun line => Action.ofText (line.dropWhile (· == ' '))) = some code := by
  induction code generalizing depth with
  | nil => rfl
  | cons a code ih =>
    rw [List.mapIdx_cons, List.mapM_cons, ofText_indented, ih]
    rfl

theorem read_listing (code : Code) : read code.listing = some code := by
  rw [read, splitOn_listing, List.dropLast_concat]
  exact mapM_ofText (fun i => 4 * code.regionsAround i) code

end Code

/-- The draft comes of calls that have all been accepted, each of which adds a piece of code. -/
def Draft.Recorded (d : Draft) : Prop := ∃ calls : List Code, calls.foldlM Draft.emit .empty = .ok d

theorem Draft.Recorded.follow_code {d : Draft} (h : d.Recorded) : Shape.empty.follow d.code = .ok d.shape := by
  rcases h with ⟨calls, hcalls⟩
  exact foldlM_induction (P := fun d : Draft => Shape.empty.follow d.code = .ok d.shape)
    (fun _ _ _ _ hd he => Draft.follow_code_emit he hd) rfl hcalls

theorem Draft.Recorded.checkedListing_eq {d : Draft} (h : d.Recorded) :
    d.code.checkedListing = some d.code.listing := by
  have hlines : d.code.checkedLines 0 = some (d.code.lines 0) := Code.checkedLines_of_follow h.follow_code
  rw [Code.checkedListing, hlines]
  rfl

/-- The count of open regions does not go below zero in the listing of a draft. Cut behind its lines, the
listing has one for every action, indented by four spaces for every region around the action and no further,
and the end of a region stands under its start. The code can be read back from it, so drafts that are listed
alike hold the same code. -/
theorem listing_shows_code :
    (∀ d : Draft, d.Recorded →
      d.code.checkedListing = some d.code.listing ∧
      d.code.listing.toList.splitOn '\n' =
        (d.code.mapIdx fun i a => List.replicate (4 * d.code.regionsAround i) ' ' ++ a.text.toList) ++ [[]] ∧
      (∀ a ∈ d.code, a.text.toList.head? ≠ some ' ') ∧
      (∀ x c (p : Program) y, d.code = x ++ .enter c :: (p.flatten ++ .leave :: y) →
        d.code.regionsAround (x.length + p.flatten.length + 1) = d.code.regionsAround x.length) ∧
      Code.read d.code.listing = some d.code) ∧
    ∀ d e : Draft, d.Recorded → e.Recorded → d.code.listing = e.code.listing → d.code = e.code := by
  constructor
  · intro d hd
    refine ⟨hd.checkedListing_eq, d.code.splitOn_listing, fun a _ => a.head?_text, ?_, d.code.read_listing⟩
    intro x c p y hcode
    rw [hcode]
    exact Code.regionsAround_end x c p y
  · intro d e _ _ hlisting
    have hread := congrArg Code.read hlisting
    rw [Code.read_listing, Code.read_listing] at hread
    exact Option.some.inj hread

namespace Sample

def nestedCalls (copy : List Code) : List Code :=
  [[.push .i], [.const 0x40], [.enter .ne], [.push (.vi 255)], [.const 0xDEADBEEF], [.enter .lt]] ++ copy ++
    [[.leave], [.leave]]

theorem nested_listed : ∃ d e : Draft,
    (nestedCalls [Code.move (.vf 31) (.vf 0)]).foldlM Draft.emit .empty = .ok d ∧
    (nestedCalls [[.pushVec (.vf 0)], [.pullVec (.vf 31)]]).foldlM Draft.emit .empty = .ok e ∧
    d.code.regionsAround 7 = 2 ∧ d.code.regionsAround 8 = d.code.regionsAround 5 ∧
    d.code.checkedListing = some d.code.listing ∧ Code.read d.code.listing = some d.code ∧
    d.code = e.code := by
  have hd : (⟨_, _⟩ : Draft).Recorded := ⟨nestedCalls [Code.move (.vf 31) (.vf 0)], rfl⟩
  have he : (⟨_, _⟩ : Draft).Recorded := ⟨nestedCalls [[.pushVec (.vf 0)], [.pullVec (.vf 31)]], rfl⟩
  have hshown := listing_shows_code.1 _ hd
  refine ⟨_, _, rfl, rfl, rfl, rfl, ?_, ?_, ?_⟩
  · exact hshown.1
  · exact hshown.2.2.2.2
  · exact listing_shows_code.2 _ _ hd he rfl

end Sample

end DualIssue
