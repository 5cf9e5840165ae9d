import Mathlib.Algebra.BigOperators.Group.Finset.Piecewise
import CppDone.Lib.Machine

/-!
# Logs

Where a state does not remember how it came about, a run is made to write it down: every step may
give out an entry, which depends on the state before it. In a system of many parties an entry has
the number of its party, the entries of one party are those with its number, and what is counted of
the whole is the sum of what is counted of each.
-/

set_option autoImplicit false

namespace CppDone

open scoped BigOperators

namespace Machine

variable {σ α ε : Type}

/-- `emit` is what a step writes down. -/
def emitted (M : Machine σ α) (emit : σ → α → Option ε) : σ → List α → List ε
  | _, [] => []
  | s, a :: as =>
    (emit s a).toList ++
      match M.step s a with
      | some s' => M.emitted emit s' as
      | none => []

theorem emitted_snoc {M : Machine σ α} {emit : σ → α → Option ε} {s t : σ} {as : List α} {a : α}
    (h : M.runFrom s as = some t) :
    M.emitted emit s (as ++ [a]) = M.emitted emit s as ++ (emit t a).toList := by
  induction as generalizing s with
  | nil =>
    obtain rfl : s = t := by simpa using h
    show (emit s a).toList ++ _ = _
    cases M.step s a with
    | none => simp [emitted]
    | some s' => simp [emitted]
  | cons b as ih =>
    obtain ⟨u, hu, h'⟩ := Option.bind_eq_some_iff.mp h
    simp [emitted, hu, ih h']

/-- What a step's entry comes to. -/
theorem filterMap_toList {ε' : Type} (f : ε → Option ε') (e : Option ε) :
    e.toList.filterMap f = (e.bind f).toList := by
  cases e with
  | none => rfl
  | some e => cases h : f e <;> simp [h]

end Machine

/-! ## Whose calls they are

A log of several parties, each entry with the number of its party. Every party has its own log in
it. -/

section Numbered

variable {ε : Type}

/-- The entries of number `i`. -/
def entriesOf (i : Nat) (log : List (Nat × ε)) : List ε :=
  log.filterMap fun x => if x.1 = i then some x.2 else none

theorem entriesOf_append (i : Nat) (log log' : List (Nat × ε)) :
    entriesOf i (log ++ log') = entriesOf i log ++ entriesOf i log' :=
  List.filterMap_append

theorem entriesOf_singleton_self (i : Nat) (e : ε) : entriesOf i [(i, e)] = [e] := by
  simp [entriesOf]

theorem entriesOf_singleton_of_ne {i j : Nat} (h : j ≠ i) (e : ε) : entriesOf i [(j, e)] = [] := by
  simp [entriesOf, h]

/-- What is counted of all is counted of each. -/
theorem countP_eq_sum_entriesOf (p : ε → Bool) {n : Nat} {log : List (Nat × ε)}
    (h : ∀ x ∈ log, x.1 < n) :
    log.countP (fun x => p x.2) = ∑ i ∈ Finset.range n, (entriesOf i log).countP p := by
  induction log with
  | nil => simp [entriesOf]
  | cons x log ih =>
    have hx : x.1 ∈ Finset.range n := Finset.mem_range.mpr (h x List.mem_cons_self)
    have hrest := ih fun y hy => h y (List.mem_cons_of_mem _ hy)
    have hcons : ∀ i, (entriesOf i (x :: log)).countP p =
        (if x.1 = i then (if p x.2 then 1 else 0) else 0) + (entriesOf i log).countP p := by
      intro i
      by_cases hi : x.1 = i
      · simp [entriesOf, hi, List.countP_cons, Nat.add_comm]
      · simp [entriesOf, hi]
    rw [Finset.sum_congr rfl fun i _ => hcons i, Finset.sum_add_distrib, ← hrest,
      Finset.sum_ite_eq, if_pos hx, List.countP_cons, Nat.add_comm]

end Numbered

end CppDone
