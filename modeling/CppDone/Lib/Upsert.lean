import Mathlib.Data.List.Basic
import Mathlib.Tactic.Tauto

/-!
# Replace the first match, or append

The loop of an update: scan a list for the first element that a test accepts, put the new element
in its place, and append it when there is none. What the update leaves alone is a question of the
one element that was replaced, so every result here goes through `upsert_cases`, which names it.

`emplace` is the insertion into a table that leaves what it finds: the pair is appended only when
its key is new, so a pair that goes in under a key in use is lost.
-/

set_option autoImplicit false

namespace CppDone

variable {α κ : Type} (p : α → Prop) [DecidablePred p] (x : α)

def upsert : List α → List α
  | [] => [x]
  | y :: ys => if p y then x :: ys else y :: upsert ys

/-- Nothing is accepted and `x` is appended, or `x` is in the place of the first accepted `y`. -/
theorem upsert_cases (l : List α) :
    (l.find? (fun y => p y) = none ∧ upsert p x l = l ++ [x]) ∨
      ∃ pre y post, l.find? (fun y => p y) = some y ∧ l = pre ++ y :: post ∧
        upsert p x l = pre ++ x :: post := by
  induction l with
  | nil => exact Or.inl ⟨rfl, rfl⟩
  | cons z l ih =>
    by_cases hz : p z
    · refine Or.inr ⟨[], z, l, ?_, rfl, ?_⟩
      · simp [hz]
      · simp [upsert, hz]
    · rcases ih with ⟨hnone, happ⟩ | ⟨pre, y, post, hy, rfl, hput⟩
      · refine Or.inl ⟨?_, ?_⟩
        · simp [hz, hnone]
        · simp [upsert, hz, happ]
      · refine Or.inr ⟨z :: pre, y, post, ?_, rfl, ?_⟩
        · simpa [List.find?_cons, hz] using hy
        · simp [upsert, hz, hput]

theorem mem_upsert (l : List α) : x ∈ upsert p x l := by
  rcases upsert_cases p x l with ⟨-, happ⟩ | ⟨pre, y, post, -, -, hput⟩
  · simp [happ]
  · simp [hput]

theorem mem_of_mem_upsert {y : α} {l : List α} (h : y ∈ upsert p x l) : y = x ∨ y ∈ l := by
  rcases upsert_cases p x l with ⟨-, happ⟩ | ⟨pre, z, post, -, rfl, hput⟩
  · simpa [happ, or_comm] using h
  · simp only [hput, List.mem_append, List.mem_cons] at h ⊢
    tauto

variable (key : α → κ)

/-- **The elements under other keys are left alone** exactly when the replaced element, if there
is one, has the key of the new one. -/
theorem filter_upsert_iff [DecidableEq κ] (l : List α) :
    (upsert p x l).filter (fun y => key y ≠ key x) = l.filter (fun y => key y ≠ key x) ↔
      ∀ y, l.find? (fun y => p y) = some y → key y = key x := by
  rcases upsert_cases p x l with ⟨hnone, happ⟩ | ⟨pre, y, post, hy, rfl, hput⟩
  · rw [happ, hnone]
    simp
  · rw [hy, hput]
    by_cases hkey : key y = key x
    · simp [hkey]
    · -- the replaced element is one of those that were to stay
      simp [hkey]

/-- Keys stay different if only an element of the same key is replaced, and every element of that
key is accepted. -/
theorem nodup_map_upsert (hp : ∀ y, key y = key x → p y) {l : List α}
    (h : ∀ y, l.find? (fun y => p y) = some y → key y = key x) (hnodup : (l.map key).Nodup) :
    ((upsert p x l).map key).Nodup := by
  rcases upsert_cases p x l with ⟨hnone, happ⟩ | ⟨pre, y, post, hy, rfl, hput⟩
  · have hfresh : key x ∉ l.map key := by
      rw [List.mem_map]
      rintro ⟨y, hy, hkey⟩
      have hno := List.find?_eq_none.mp hnone y hy
      exact absurd (hp y hkey) (by simpa using hno)
    rw [happ, List.map_append, List.map_singleton]
    exact List.nodup_append.mpr ⟨hnodup, by simp, by simpa using hfresh⟩
  · rw [hput, List.map_append, List.map_cons, ← h y hy, ← List.map_cons, ← List.map_append]
    exact hnodup

/-! ## Append if the key is new

A table by pairs. Under a key that is in use nothing is put in, and nothing is said. -/

section Emplace

variable {β : Type} [DecidableEq κ] {l : List (κ × β)} {k : κ} {b : β}

def emplace (l : List (κ × β)) (k : κ) (b : β) : List (κ × β) :=
  if l.lookup k = none then l ++ [(k, b)] else l

theorem emplace_of_lookup_none (h : l.lookup k = none) : emplace l k b = l ++ [(k, b)] :=
  if_pos h

theorem nodup_keys_emplace (hkeys : (l.map Prod.fst).Nodup) :
    ((emplace l k b).map Prod.fst).Nodup := by
  unfold emplace
  split
  · next hnew =>
    rw [List.map_append, List.map_singleton]
    refine List.nodup_append.mpr ⟨hkeys, List.pairwise_singleton _ _, ?_⟩
    rintro a ha b hb rfl
    obtain ⟨q, hq, rfl⟩ := List.mem_map.mp ha
    have hne := List.lookup_eq_none_iff.mp hnew q hq
    exact absurd (List.mem_singleton.mp hb).symm (bne_iff_ne.mp hne)
  · exact hkeys

/-- Under keys used once, what is in the table is what a lookup finds. -/
theorem lookup_of_mem (hkeys : (l.map Prod.fst).Nodup) (h : (k, b) ∈ l) : l.lookup k = some b := by
  obtain ⟨l₁, l₂, rfl⟩ := List.append_of_mem h
  refine List.lookup_eq_some_iff.mpr ⟨l₁, l₂, rfl, fun q hq => ?_⟩
  rw [List.map_append, List.map_cons, List.nodup_append] at hkeys
  rw [bne_iff_ne]
  exact (hkeys.2.2 q.1 (List.mem_map_of_mem hq) k List.mem_cons_self).symm

end Emplace

end CppDone
