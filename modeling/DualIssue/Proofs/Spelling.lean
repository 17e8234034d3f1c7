import DualIssue.Code.Action

set_option autoImplicit false

namespace DualIssue

namespace Text

def isWord (s : List Char) : Bool := s.all fun c => c != ' ' && c != '\n'

def digitValue (c : Char) : Nat :=
  if c.isDigit then c.toNat - '0'.toNat else c.toNat - 'a'.toNat + 10

def value (base : Nat) (digits : List Char) : Nat :=
  digits.foldl (fun n c => base * n + digitValue c) 0

theorem digitValue_digitChar {d : Nat} (h : d < 16) : digitValue d.digitChar = d := by
  have hall : ∀ d < 16, digitValue d.digitChar = d := by decide
  exact hall d h

theorem value_toDigits {base : Nat} (h1 : 1 < base) (h16 : base ≤ 16) (n : Nat) :
    value base (Nat.toDigits base n) = n := by
  induction n using Nat.strongRecOn with
  | ind n ih =>
    rw [Nat.toDigits_eq_if h1]
    split
    · rename_i hlt
      simp [value, digitValue_digitChar (Nat.lt_of_lt_of_le hlt h16)]
    · rename_i hge
      have hdiv : n / base < n := Nat.div_lt_self (by omega) h1
      have hmod : n % base < 16 := Nat.lt_of_lt_of_le (Nat.mod_lt n (by omega)) h16
      have hvalue := ih _ hdiv
      rw [value] at hvalue ⊢
      rw [List.foldl_append, hvalue, List.foldl_cons, List.foldl_nil, digitValue_digitChar hmod]
      exact Nat.div_add_mod n base

theorem isWord_append (x y : List Char) : isWord (x ++ y) = (isWord x && isWord y) := List.all_append

theorem not_mem_of_isWord {s : List Char} (h : isWord s = true) : ' ' ∉ s ∧ '\n' ∉ s := by
  have hall := List.all_eq_true.1 h
  constructor
  · intro hmem
    cases hall _ hmem
  · intro hmem
    cases hall _ hmem

theorem isWord_toDigits {base : Nat} (h1 : 1 < base) (n : Nat) : isWord (Nat.toDigits base n) = true := by
  have hdigit : ∀ d : Nat, isWord [d.digitChar] = true := by
    intro d
    have hspace := Nat.digitChar_ne (n := d) ' ' rfl
    have hline := Nat.digitChar_ne (n := d) '\n' rfl
    simp [isWord, hspace, hline]
  induction n using Nat.strongRecOn with
  | ind n ih =>
    rw [Nat.toDigits_eq_if h1]
    split
    · exact hdigit n
    · rw [isWord_append, ih _ (Nat.div_lt_self (by omega) h1), hdigit]
      rfl

theorem newline_not_mem_intercalate {words : List (List Char)} (h : ∀ w ∈ words, '\n' ∉ w) :
    '\n' ∉ [' '].intercalate words := by
  induction words with
  | nil => simp
  | cons w rest ih =>
    cases rest with
    | nil => simpa using h
    | cons v rest =>
      have hw := h w (by simp)
      have hrest := ih fun u hu => h u (by simp [hu])
      simp [List.intercalate_cons_cons, hw, hrest]

def readHex (numeral : String) : Option Nat :=
  match numeral.toList with
  | '0' :: 'x' :: digits => some (value 16 digits)
  | _ => none

theorem toList_hex (n : Nat) : (hex n).toList = '0' :: 'x' :: Nat.toDigits 16 n := by
  simp [hex]

theorem isWord_hex (n : Nat) : isWord (hex n).toList = true := by
  rw [toList_hex]
  exact isWord_toDigits (by decide : 1 < 16) n

theorem readHex_hex (n : Nat) : readHex (hex n) = some n := by
  rw [readHex, toList_hex]
  simp only [value_toDigits (by decide : 1 < 16) (by decide) n]

end Text

namespace Field

def single : List Field :=
  [.vfPreUp, .vfUpRes, .savedInt, .savedIntTemp, .pipeTime, .delayedJump, .i, .q, .qHeld, .qTarget]

def ofName (name : String) : Option Field :=
  match single.find? (·.name == name) with
  | some f => some f
  | none =>
    match name.toList with
    | 'v' :: 'f' :: digits => some (.vf (UInt8.ofNat (Text.value 10 digits)))
    | 'v' :: 'i' :: digits => some (.vi (UInt8.ofNat (Text.value 10 digits)))
    | _ => none

theorem toList_name_vf (r : Register) : (vf r).name.toList = ['v', 'f'] ++ Nat.toDigits 10 r.toNat := by
  simp [name, Text.decimal]

theorem toList_name_vi (r : Register) : (vi r).name.toList = ['v', 'i'] ++ Nat.toDigits 10 r.toNat := by
  simp [name, Text.decimal]

theorem find?_single_eq_none {name : String} {stem : List Char} {n : Nat}
    (h : name.toList = stem ++ Nat.toDigits 10 n) : single.find? (·.name == name) = none := by
  have hsingle : ∀ f ∈ single, f.name.toList.all (!·.isDigit) = true := by decide
  rcases List.exists_mem_of_ne_nil _ (Nat.toDigits_ne_nil (n := n) (b := 10)) with ⟨c, hc⟩
  have hdigit : c.isDigit = true := Nat.isDigit_of_mem_toDigits (by decide) (by decide) hc
  have hmem : c ∈ name.toList := h ▸ List.mem_append_right stem hc
  rw [List.find?_eq_none]
  intro f hf heq
  rw [← beq_iff_eq.1 heq] at hmem
  have hnot := List.all_eq_true.1 (hsingle f hf) c hmem
  simp [hdigit] at hnot

theorem ofName_name (f : Field) : ofName f.name = some f := by
  cases f with
  | vf r =>
    rw [ofName, find?_single_eq_none (toList_name_vf r), toList_name_vf]
    simp [Text.value_toDigits]
  | vi r =>
    rw [ofName, find?_single_eq_none (toList_name_vi r), toList_name_vi]
    simp [Text.value_toDigits]
  | _ => rfl

def mark (f : Field) : String := String.join ["@", Text.hex f.offset]

theorem toList_mark (f : Field) : f.mark.toList = ['@'] ++ (Text.hex f.offset).toList := by
  simp [mark]

theorem isWord_mark (f : Field) : Text.isWord f.mark.toList = true := by
  rw [toList_mark, Text.isWord_append, Text.isWord_hex]
  rfl

theorem isWord_name (f : Field) : Text.isWord f.name.toList = true := by
  cases f with
  | vf r =>
    rw [toList_name_vf, Text.isWord_append, Text.isWord_toDigits (by decide)]
    rfl
  | vi r =>
    rw [toList_name_vi, Text.isWord_append, Text.isWord_toDigits (by decide)]
    rfl
  | _ => rfl

end Field

def Condition.ofName : String → Option Condition
  | "Eq" => some .eq
  | "Ne" => some .ne
  | "Lt" => some .lt
  | "Ge" => some .ge
  | _ => none

theorem Condition.ofName_name (c : Condition) : ofName c.name = some c := by
  cases c <;> rfl

namespace Action

def words : Action → List String
  | .push f => ["push", f.name, f.mark]
  | .pull f => ["pull", f.name, f.mark]
  | .pushVec f => ["push.v", f.name, f.mark]
  | .pullVec f => ["pull.v", f.name, f.mark]
  | .const w => ["const", Text.hex w.toNat]
  | .add => ["add"]
  | .addVec => ["add.v"]
  | .enter c => ["if", c.name]
  | .leave => ["endif"]

/-- The offset of a field is passed over, since its name says all. -/
def ofWords : List String → Option Action
  | ["push", name, _] => (Field.ofName name).map .push
  | ["pull", name, _] => (Field.ofName name).map .pull
  | ["push.v", name, _] => (Field.ofName name).map .pushVec
  | ["pull.v", name, _] => (Field.ofName name).map .pullVec
  | ["const", numeral] => (Text.readHex numeral).map fun n => .const (UInt32.ofNat n)
  | ["add"] => some .add
  | ["add.v"] => some .addVec
  | ["if", name] => (Condition.ofName name).map .enter
  | ["endif"] => some .leave
  | _ => none

theorem ofWords_words (a : Action) : ofWords a.words = some a := by
  cases a <;> simp [words, ofWords, Field.ofName_name, Condition.ofName_name, Text.readHex_hex]

theorem isWord_words (a : Action) : ∀ w ∈ a.words, Text.isWord w.toList = true := by
  cases a with
  | push f | pull f | pushVec f | pullVec f =>
    simp only [words, List.forall_mem_cons]
    exact ⟨rfl, f.isWord_name, f.isWord_mark, by simp⟩
  | const w =>
    simp only [words, List.forall_mem_cons]
    exact ⟨rfl, Text.isWord_hex _, by simp⟩
  | enter c => cases c <;> decide
  | add | addVec | leave => decide

theorem toList_text (a : Action) : a.text.toList = [' '].intercalate (a.words.map String.toList) := by
  cases a <;> simp [text, place, words, Field.toList_mark, List.intercalate]

/-- Cut at its spaces, the text of an action falls into its words. -/
theorem splitOn_text (a : Action) : a.text.toList.splitOn ' ' = a.words.map String.toList := by
  rw [toList_text]
  apply List.splitOn_intercalate
  · intro cs hcs
    rcases List.mem_map.1 hcs with ⟨w, hw, rfl⟩
    exact (Text.not_mem_of_isWord (isWord_words a w hw)).1
  · cases a <;> simp [words]

def ofText (text : List Char) : Option Action := ofWords ((text.splitOn ' ').map String.ofList)

theorem ofText_text (a : Action) : ofText a.text.toList = some a := by
  have hback : String.ofList ∘ String.toList = id := funext fun _ => String.ofList_toList
  rw [ofText, splitOn_text, List.map_map, hback, List.map_id, ofWords_words]

theorem newline_not_mem_text (a : Action) : '\n' ∉ a.text.toList := by
  rw [toList_text]
  apply Text.newline_not_mem_intercalate
  intro cs hcs
  rcases List.mem_map.1 hcs with ⟨w, hw, rfl⟩
  exact (Text.not_mem_of_isWord (isWord_words a w hw)).2

theorem head?_text (a : Action) : a.text.toList.head? ≠ some ' ' := by
  cases a <;> simp [text]

end Action

end DualIssue
