import Mathlib.Data.List.Nodup
import Mathlib.Data.List.Sort

/-!
# The smallest elements of a list

A sorted copy of a list begins with its smallest elements. What a program takes from there, and
deletes from the list itself, is accounted for here: how many elements that are, and that nothing
smaller is left.
-/

set_option autoImplicit false

namespace CppDone

section Order

variable {α : Type} [LinearOrder α] {n : Nat} {l : List α}

/-- The first `n` elements of the sorted list. -/
def smallest (n : Nat) (l : List α) : List α := (l.insertionSort (· ≤ ·)).take n

theorem mem_of_mem_smallest {a : α} (h : a ∈ smallest n l) : a ∈ l :=
  (List.mem_insertionSort (· ≤ ·)).mp (List.mem_of_mem_take h)

theorem length_smallest (h : n ≤ l.length) : (smallest n l).length = n := by
  unfold smallest
  rw [List.length_take, List.length_insertionSort]
  exact Nat.min_eq_left h

theorem nodup_smallest (h : l.Nodup) : (smallest n l).Nodup := by
  have hsorted : (l.insertionSort (· ≤ ·)).Nodup :=
    (List.perm_insertionSort (· ≤ ·) l).nodup_iff.mpr h
  exact hsorted.sublist (List.take_sublist n _)

/-- What is not among them is behind them. -/
theorem le_of_mem_smallest {a b : α} (ha : a ∈ smallest n l) (hb : b ∈ l)
    (hnot : b ∉ smallest n l) : a ≤ b := by
  have hsorted : (smallest n l ++ (l.insertionSort (· ≤ ·)).drop n).Pairwise (· ≤ ·) := by
    unfold smallest
    rw [List.take_append_drop]
    exact List.pairwise_insertionSort (· ≤ ·) l
  have hbehind : b ∈ (l.insertionSort (· ≤ ·)).drop n := by
    have hmem : b ∈ l.insertionSort (· ≤ ·) := (List.mem_insertionSort (· ≤ ·)).mpr hb
    rw [← List.take_append_drop n (l.insertionSort (· ≤ ·))] at hmem
    rcases List.mem_append.mp hmem with hfirst | hbehind
    · exact absurd hfirst hnot
    · exact hbehind
  exact (List.pairwise_append.mp hsorted).2.2 a ha b hbehind

end Order

/-! ## Deleting elements

How many elements a filter leaves, when those to go are all in the list. -/

section Delete

variable {α : Type} [BEq α] [LawfulBEq α] {l xs : List α}

theorem length_filter_mem (hl : l.Nodup) (hxs : xs.Nodup) (hsub : xs ⊆ l) :
    (l.filter (· ∈ xs)).length = xs.length := by
  apply List.Perm.length_eq
  apply (List.perm_ext_iff_of_nodup (hl.filter _) hxs).mpr
  intro a
  rw [List.mem_filter, decide_eq_true_iff]
  exact ⟨fun h => h.2, fun h => ⟨hsub h, h⟩⟩

theorem length_filter_not_mem (hl : l.Nodup) (hxs : xs.Nodup) (hsub : xs ⊆ l) :
    (l.filter (· ∉ xs)).length = l.length - xs.length := by
  have hsplit := List.length_eq_length_filter_add (l := l) fun a => decide (a ∈ xs)
  rw [length_filter_mem hl hxs hsub] at hsplit
  have hnot : l.filter (· ∉ xs) = l.filter fun a => !decide (a ∈ xs) := by
    apply List.filter_congr
    intro a _
    exact decide_not
  rw [hnot]
  omega

end Delete

end CppDone
