import DualIssue.Proofs.Execution

set_option autoImplicit false

namespace DualIssue

def Action.opens : Action → Bool
  | .enter _ => true
  | _ => false

def Action.closes : Action → Bool
  | .leave => true
  | _ => false

namespace Shape

theorem regions_popped {s t : Shape} {w : Width} (h : s.popped w = .ok t) : t.regions = s.regions := by
  obtain ⟨stack, regions⟩ := s
  cases stack with
  | nil => simp [popped] at h
  | cons v rest =>
    by_cases hv : v = w
    · simp only [popped, hv, if_true, Except.ok.injEq] at h
      subst h
      rfl
    · simp [popped, hv] at h

theorem regions_step {s t : Shape} {a : Action} (h : s.step a = .ok t) :
    t.regions.length + a.closes.toNat = s.regions.length + a.opens.toNat := by
  cases a with
  | push f | pushVec f =>
    obtain ⟨_, -, h⟩ := bind_eq_ok.1 h
    cases h
    rfl
  | pull f | pullVec f =>
    obtain ⟨_, -, h⟩ := bind_eq_ok.1 h
    rw [regions_popped h]
    rfl
  | const w =>
    cases h
    rfl
  | add | addVec =>
    obtain ⟨u, hu, h⟩ := bind_eq_ok.1 h
    obtain ⟨v, hv, h⟩ := bind_eq_ok.1 h
    cases h
    simp only [pushed, regions_popped hv, regions_popped hu]
    rfl
  | enter c =>
    obtain ⟨u, hu, h⟩ := bind_eq_ok.1 h
    obtain ⟨v, hv, h⟩ := bind_eq_ok.1 h
    cases h
    simp [regions_popped hv, regions_popped hu, Action.opens, Action.closes]
  | leave =>
    simp only [step] at h
    split at h
    · cases h
    · rename_i depth rest hr
      split at h
      · cases h
        simp [hr, Action.opens, Action.closes]
      · cases h

theorem regions_follow {s t : Shape} {code : Code} (h : s.follow code = .ok t) :
    t.regions.length + code.countP (·.closes) = s.regions.length + code.countP (·.opens) := by
  induction code generalizing s with
  | nil =>
    cases h
    simp
  | cons a code ih =>
    obtain ⟨u, hu, h⟩ := bind_eq_ok.1 h
    have h1 := regions_step hu
    have h2 := ih h
    simp only [List.countP_cons]
    cases hc : a.closes <;> cases ho : a.opens <;> simp [hc, ho] at h1 ⊢ <;> omega

end Shape

namespace Code

/-- From where no region is open, the code leads to where none is. -/
def ClosesRegions (code : Code) : Prop :=
  ∀ s t : Shape, s.regions = [] → s.follow code = .ok t → t.regions = []

theorem closesRegions_of_count {code : Code} (h : code.countP (·.opens) = code.countP (·.closes)) :
    code.ClosesRegions := by
  intro s t hs ht
  have hr := Shape.regions_follow ht
  simp only [hs, List.length_nil] at hr
  exact List.length_eq_zero_iff.1 (by omega)

theorem SelfContained.closesRegions {code : Code} (h : code.SelfContained) : code.ClosesRegions := by
  have hr := Shape.regions_follow h.balanced
  exact closesRegions_of_count (by omega)

theorem ClosesRegions.append {x y : Code} (hx : x.ClosesRegions) (hy : y.ClosesRegions) :
    (x ++ y).ClosesRegions := by
  intro s t hs h
  rw [Shape.follow_append, bind_eq_ok] at h
  obtain ⟨u, hu, h⟩ := h
  exact hy u t (hx s u hs hu) h

theorem closesRegions_nil : ClosesRegions [] := closesRegions_of_count rfl

theorem closesRegions_move (dest src : Field) : (move dest src).ClosesRegions := by
  apply closesRegions_of_count
  cases h : src.width <;> simp [move, h, Action.opens, Action.closes]

end Code

end DualIssue
