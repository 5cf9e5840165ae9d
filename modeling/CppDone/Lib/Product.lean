import CppDone.Lib.Machine

/-!
# Two machines side by side

A component is often modelled for itself, with the calls it makes or answers as labels of its own.
Their composition has labels again: one of them moves the left machine, the right one or both, as
`left` and `right` say, where `guard` allows it. A call from one machine to the other is a label
that moves both.

Nothing has to be proved again of the parts. A run of the product is a run of either of them, with
the labels that do not concern it left out.
-/

set_option autoImplicit false

namespace CppDone

namespace Machine

variable {σ τ α β γ : Type}

/-- The step of a label, if there is one. -/
def stepIf (M : Machine σ α) (s : σ) : Option α → Option σ
  | none => some s
  | some a => M.step s a

/-- `M` and `N`, moved by the labels of `γ`. -/
def product (M : Machine σ α) (N : Machine τ β) (left : γ → Option α) (right : γ → Option β)
    (guard : σ → τ → γ → Bool) : Machine (σ × τ) γ where
  init := (M.init, N.init)
  step := fun s c =>
    if guard s.1 s.2 c then
      (M.stepIf s.1 (left c)).bind fun s₁ => (N.stepIf s.2 (right c)).map fun s₂ => (s₁, s₂)
    else none

variable {M : Machine σ α} {N : Machine τ β} {left : γ → Option α} {right : γ → Option β}
  {guard : σ → τ → γ → Bool} {s t : σ × τ} {cs : List γ}

theorem product_step {c : γ} :
    (M.product N left right guard).step s c = some t ↔
      guard s.1 s.2 c = true ∧ M.stepIf s.1 (left c) = some t.1 ∧
        N.stepIf s.2 (right c) = some t.2 := by
  unfold product
  cases hg : guard s.1 s.2 c with
  | false => simp [hg]
  | true => simp [hg, Option.bind_eq_some_iff, Prod.ext_iff]

theorem stepIf_runFrom {M : Machine σ α} {s s' : σ} {a : Option α} (h : M.stepIf s a = some s') :
    M.runFrom s a.toList = some s' := by
  cases a with
  | none => exact h
  | some a => exact Option.bind_eq_some_iff.mpr ⟨s', h, rfl⟩

theorem filterMap_cons_toList {f : γ → Option α} {c : γ} :
    (c :: cs).filterMap f = (f c).toList ++ cs.filterMap f := by
  cases hc : f c with
  | none => simp [hc]
  | some a => simp [hc]

theorem product_runFrom_left (h : (M.product N left right guard).runFrom s cs = some t) :
    M.runFrom s.1 (cs.filterMap left) = some t.1 := by
  induction cs generalizing s with
  | nil =>
    obtain rfl : s = t := by simpa using h
    rfl
  | cons c cs ih =>
    obtain ⟨u, hu, h'⟩ := Option.bind_eq_some_iff.mp h
    rw [filterMap_cons_toList, runFrom_append, stepIf_runFrom (product_step.mp hu).2.1]
    exact ih h'

theorem product_runFrom_right (h : (M.product N left right guard).runFrom s cs = some t) :
    N.runFrom s.2 (cs.filterMap right) = some t.2 := by
  induction cs generalizing s with
  | nil =>
    obtain rfl : s = t := by simpa using h
    rfl
  | cons c cs ih =>
    obtain ⟨u, hu, h'⟩ := Option.bind_eq_some_iff.mp h
    rw [filterMap_cons_toList, runFrom_append, stepIf_runFrom (product_step.mp hu).2.2]
    exact ih h'

theorem product_reachable_left (h : (M.product N left right guard).Reachable s) : M.Reachable s.1 :=
  let ⟨cs, hcs⟩ := h
  ⟨cs.filterMap left, product_runFrom_left hcs⟩

theorem product_reachable_right (h : (M.product N left right guard).Reachable s) :
    N.Reachable s.2 :=
  let ⟨cs, hcs⟩ := h
  ⟨cs.filterMap right, product_runFrom_right hcs⟩

end Machine

end CppDone
