import Mathlib.Data.List.Induction

/-!
# A list with some positions deleted

The survivors of a stream when what was lost is known by its position. Positions and not values:
a stream may bring the same value twice and lose it once.
-/

set_option autoImplicit false

namespace CppDone

variable {α : Type}

/-- The elements whose position is not in `ps`, in order. -/
def deleted (xs : List α) (ps : List Nat) : List α :=
  (xs.zipIdx.filter fun x => x.2 ∉ ps).map Prod.fst

theorem deleted_sublist (xs : List α) (ps : List Nat) : (deleted xs ps).Sublist xs := by
  have h : ((xs.zipIdx.filter fun x => x.2 ∉ ps).map Prod.fst).Sublist (xs.zipIdx.map Prod.fst) :=
    List.filter_sublist.map Prod.fst
  rw [List.zipIdx_map_fst] at h
  exact h

/-- One more element survives unless its position is deleted. -/
theorem deleted_snoc (xs : List α) (x : α) (ps : List Nat) :
    deleted (xs ++ [x]) ps = deleted xs ps ++ if xs.length ∈ ps then [] else [x] := by
  unfold deleted
  rw [List.zipIdx_append, List.filter_append, List.map_append]
  by_cases hx : xs.length ∈ ps <;> simp [hx]

/-- A position behind the end deletes nothing. -/
theorem deleted_snoc_position {xs : List α} {p : Nat} (hp : xs.length ≤ p) (ps : List Nat) :
    deleted xs (ps ++ [p]) = deleted xs ps := by
  unfold deleted
  congr 1
  apply List.filter_congr
  intro x hx
  have hlt : x.2 < xs.length := by
    have hlt' := List.snd_lt_of_mem_zipIdx hx
    omega
  have hne : x.2 ≠ p := by omega
  simp [hne]

/-- Behind the last deleted position everything survives. -/
theorem deleted_append {xs ys : List α} {ps : List Nat} (hps : ∀ p ∈ ps, p < xs.length) :
    deleted (xs ++ ys) ps = deleted xs ps ++ ys := by
  induction ys using List.reverseRecOn with
  | nil => rw [List.append_nil, List.append_nil]
  | append_singleton ys y ih =>
    have hy : (xs ++ ys).length ∉ ps := by
      intro hmem
      have hlt := hps _ hmem
      rw [List.length_append] at hlt
      omega
    rw [← List.append_assoc, deleted_snoc, ih, if_neg hy, List.append_assoc]

end CppDone
