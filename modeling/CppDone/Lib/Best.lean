import Mathlib.Data.List.Basic

/-!
# Keeping the best value offered

`R v h` reads "`v` beats `h`". A holder that replaces what it has exactly when it is beaten
(`keep`) ends up, after any list of offers, with a value that was offered and that none of the
offers beats, provided nothing beats itself and beating is transitive. If moreover one of two
different values always beats the other, that value is determined by *which* values were
offered, not by their order.
-/

set_option autoImplicit false

namespace CppDone

variable {V : Type} {R : V → V → Bool}

/-- Replace the held value exactly if the new one beats it. -/
def keep (R : V → V → Bool) (held new : V) : V := if R new held then new else held

/-- `h` was offered and no offer beats it. -/
structure IsBest (R : V → V → Bool) (vs : List V) (h : V) : Prop where
  mem : h ∈ vs
  unbeaten : ∀ v ∈ vs, R v h = false

theorem IsBest.singleton (hirr : ∀ v, R v v = false) (h : V) : IsBest R [h] h :=
  ⟨by simp, by simpa using hirr h⟩

/-- One more offer. Transitivity is what carries the old offers over a replacement. -/
theorem IsBest.snoc (hirr : ∀ v, R v v = false)
    (htrans : ∀ a b c, R a b = true → R b c = true → R a c = true) {vs : List V} {h : V}
    (hb : IsBest R vs h) (v : V) : IsBest R (vs ++ [v]) (keep R h v) := by
  unfold keep
  split
  · rename_i hv
    refine ⟨by simp, fun w hw => ?_⟩
    rcases List.mem_append.mp hw with hw | hw
    · by_contra hwv
      rw [Bool.not_eq_false] at hwv
      have hwh := htrans w v h hwv hv
      rw [hb.unbeaten w hw] at hwh
      cases hwh
    · rw [List.mem_singleton.mp hw]; exact hirr v
  · rename_i hv
    refine ⟨List.mem_append_left _ hb.mem, fun w hw => ?_⟩
    rcases List.mem_append.mp hw with hw | hw
    · exact hb.unbeaten w hw
    · rw [List.mem_singleton.mp hw]; simpa using hv

/-- The same offers have one best value, whatever their order. -/
theorem IsBest.unique (htotal : ∀ a b, a ≠ b → R a b = true ∨ R b a = true) {vs ws : List V}
    {h h' : V} (hb : IsBest R vs h) (hb' : IsBest R ws h') (hmem : ∀ v, v ∈ vs ↔ v ∈ ws) :
    h = h' := by
  by_contra hne
  rcases htotal h h' hne with hr | hr
  · rw [hb'.unbeaten h ((hmem h).mp hb.mem)] at hr; cases hr
  · rw [hb.unbeaten h' ((hmem h').mpr hb'.mem)] at hr; cases hr

end CppDone
