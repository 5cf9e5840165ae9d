import Mathlib.Data.List.Basic

/-!
# Delimited text

The loop `while (getline(stream, item, delim))` over a whole text. Two points of it are easy to
get wrong and are the reason for a module: a delimiter at the very end does not open one more,
empty item (the stream is exhausted and the loop ends), and a text without a delimiter is one
item, unless it is empty.

`getline` is one read; `getlines` is the loop, by recursion on the text, and `getlines_eq` says
that it is the loop.
-/

set_option autoImplicit false

namespace CppDone

variable {α : Type} [DecidableEq α]

/-- One read: the item before the next delimiter and what is left of the stream after it. Fails
only on an exhausted stream. -/
def getline (delim : α) (s : List α) : Option (List α × List α) :=
  if s = [] then none
  else some (s.takeWhile (· ≠ delim), (s.dropWhile (· ≠ delim)).tail)

/-- All reads, until one fails. -/
def getlines (delim : α) : List α → List (List α)
  | [] => []
  | c :: s =>
    if c = delim then [] :: getlines delim s
    else
      match getlines delim s with
      | [] => [[c]]
      | item :: items => (c :: item) :: items

@[simp] theorem getlines_nil (delim : α) : getlines delim [] = [] := rfl

@[simp] theorem getlines_delim_cons (delim : α) (s : List α) :
    getlines delim (delim :: s) = [] :: getlines delim s := by
  simp [getlines]

/-- The recursion on the text is the loop of reads. -/
theorem getlines_eq (delim : α) (s : List α) :
    getlines delim s =
      match getline delim s with
      | none => []
      | some (item, rest) => item :: getlines delim rest := by
  induction s with
  | nil => rfl
  | cons c s ih =>
    by_cases hc : c = delim
    · subst hc
      simp [getline]
    · have hread : getline delim (c :: s) =
          some (c :: s.takeWhile (· ≠ delim), (s.dropWhile (· ≠ delim)).tail) := by
        simp [getline, hc]
      simp only [hread, getlines, if_neg hc, ih]
      unfold getline
      split_ifs with hs
      · subst hs
        rfl
      · rfl

/-- A delimited item is read whole and the loop goes on behind its delimiter. -/
theorem getlines_append_delim {delim : α} {item : List α} (h : delim ∉ item) (s : List α) :
    getlines delim (item ++ delim :: s) = item :: getlines delim s := by
  induction item with
  | nil => exact getlines_delim_cons delim s
  | cons c item ih =>
    rw [List.mem_cons, not_or] at h
    rw [List.cons_append, getlines, if_neg (Ne.symm h.1), ih h.2]

/-- What follows the last delimiter is one more item, unless it is empty. -/
theorem getlines_of_not_mem {delim : α} {item : List α} (h : delim ∉ item) (hne : item ≠ []) :
    getlines delim item = [item] := by
  induction item with
  | nil => exact absurd rfl hne
  | cons c item ih =>
    rw [List.mem_cons, not_or] at h
    rw [getlines, if_neg (Ne.symm h.1)]
    cases item with
    | nil => rfl
    | cons d item => rw [ih h.2 (List.cons_ne_nil d item)]

/-- Items that are all delimited are read one after the other. -/
theorem getlines_flatMap_append {delim : α} {items : List (List α)}
    (h : ∀ item ∈ items, delim ∉ item) (s : List α) :
    getlines delim (items.flatMap (fun item => item ++ [delim]) ++ s) =
      items ++ getlines delim s := by
  induction items with
  | nil => rfl
  | cons item items ih =>
    rw [List.forall_mem_cons] at h
    rw [List.flatMap_cons, List.append_assoc, List.append_assoc, List.singleton_append,
      getlines_append_delim h.1, ih h.2, List.cons_append]

theorem getlines_ne_nil {delim : α} {s : List α} (h : s ≠ []) : getlines delim s ≠ [] := by
  cases s with
  | nil => exact absurd rfl h
  | cons c s =>
    rw [getlines]
    split_ifs with hc
    · exact List.cons_ne_nil _ _
    · split <;> exact List.cons_ne_nil _ _

/-- One item for each delimiter, and one more if there is something behind the last of them. -/
theorem length_getlines (delim : α) (s : List α) :
    (getlines delim s).length =
      s.count delim + if s = [] ∨ s.getLast? = some delim then 0 else 1 := by
  induction s with
  | nil => rfl
  | cons c s ih =>
    by_cases hs : s = []
    · subst hs
      by_cases hc : c = delim
      · simp [getlines, hc]
      · simp [getlines, hc]
    · have hlast : (c :: s).getLast? = s.getLast? := List.getLast?_cons_of_ne_nil hs
      have hne : getlines delim s ≠ [] := getlines_ne_nil hs
      rw [hlast]
      simp only [hs, false_or] at ih
      simp only [reduceCtorEq, false_or]
      by_cases hc : c = delim
      · rw [hc, getlines_delim_cons, List.length_cons, ih, List.count_cons_self]
        omega
      · have hlen : (getlines delim (c :: s)).length = (getlines delim s).length := by
          rw [getlines, if_neg hc]
          cases hg : getlines delim s with
          | nil => exact absurd hg hne
          | cons item items => rfl
        rw [hlen, ih, List.count_cons_of_ne hc]

end CppDone
