import CppDone.Lib.Product

/-!
# One machine follows another

`M` is the finer machine: some of its steps are seen as steps of `N`, and the others as nothing.
If a relation between the states says what `N` would have done by now, every run of `M` is a run
of `N` with the unseen steps left out. What is known of the runs of `N` then holds of those of `M`.
-/

set_option autoImplicit false

namespace CppDone

namespace Machine

variable {σ τ α β : Type}

/-- `N` follows `M`, step by step as `seen` says. A step that is not seen leaves the state of `N` as
it is. -/
structure Follows (M : Machine σ α) (N : Machine τ β) (seen : α → Option β) (R : σ → τ → Prop) :
    Prop where
  init : R M.init N.init
  step : ∀ {s t a s'}, R s t → M.step s a = some s' →
    ∃ t', N.stepIf t (seen a) = some t' ∧ R s' t'

variable {M : Machine σ α} {N : Machine τ β} {seen : α → Option β} {R : σ → τ → Prop}

/-- **A run of the finer machine is a run of the other**, as far as it is seen. -/
theorem Follows.run (h : M.Follows N seen R) {as : List α} {s : σ} (hs : M.run as = some s) :
    ∃ t, N.run (as.filterMap seen) = some t ∧ R s t := by
  refine run_induction (P := fun as s => ∃ t, N.run (as.filterMap seen) = some t ∧ R s t)
    ⟨N.init, rfl, h.init⟩ ?_ hs
  intro as s a s' _ ih hstep
  obtain ⟨t, ht, hR⟩ := ih
  obtain ⟨t', ht', hR'⟩ := h.step hR hstep
  refine ⟨t', ?_, hR'⟩
  rw [List.filterMap_append, filterMap_cons_toList, List.filterMap_nil, List.append_nil]
  exact run_append.mpr ⟨t, ht, stepIf_runFrom ht'⟩

/-- A third one that follows the second. -/
theorem Follows.trans {υ γ : Type} {O : Machine υ γ} {seen' : β → Option γ} {R' : τ → υ → Prop}
    (h : M.Follows N seen R) (h' : N.Follows O seen' R') :
    M.Follows O (fun a => (seen a).bind seen') fun s u => ∃ t, R s t ∧ R' t u where
  init := ⟨N.init, h.init, h'.init⟩
  step := by
    rintro s u a s' ⟨t, hR, hR'⟩ hs
    obtain ⟨t', ht, hRt⟩ := h.step hR hs
    cases hb : seen a with
    | none =>
      rw [hb] at ht
      obtain rfl := Option.some.inj ht
      exact ⟨u, rfl, t, hRt, hR'⟩
    | some b =>
      rw [hb] at ht
      obtain ⟨u', hu, hRu⟩ := h'.step hR' ht
      exact ⟨u', hu, t', hRt, hRu⟩

theorem Follows.reachable (h : M.Follows N seen R) {s : σ} (hs : M.Reachable s) :
    ∃ t, N.Reachable t ∧ R s t :=
  let ⟨_, has⟩ := hs
  let ⟨t, ht, hR⟩ := h.run has
  ⟨t, ⟨_, ht⟩, hR⟩

end Machine

end CppDone
