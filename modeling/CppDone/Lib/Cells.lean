import Mathlib

/-!
# Ordered maps read one key at a time

A `std::map` is modelled by `Std.TreeMap`, over a comparison that is only required to be a
strict weak order (`TransCmp`): two keys the comparison cannot tell apart are *the same key* to
the map without being equal, and the map keeps the key object it was first given. `cell` is the
reading everything else here goes through: what is bound under a key, the stored key object
included, or nothing.

The second half is the argument that makes sharding and batching harmless. An operation that
looks at and changes only the cell of its own key is `Local`; a list of local operations then
acts on the cell of `k` as the sublist of the operations on `k` does (`Local.foldl`). Two stores
driven by lists that agree key by key therefore end up with the same cells, whatever the two
lists do between different keys.
-/

set_option autoImplicit false

namespace CppDone

open Std

variable {K V : Type} {cmp : K → K → Ordering}

/-! ## Cells of a `TreeMap`

The stored key, not only that there is one, since a comparison may take two different keys for the
same. `insert` under a key that is there stores the new key object with the new value, as an `erase`
and an `insertIfNew` would. -/

/-- What the map binds under `k`: the stored key object and its value. -/
def cell (t : TreeMap K V cmp) (k : K) : Option (K × V) :=
  (t.getKey? k).bind fun k' => t[k]?.map fun v => (k', v)

@[simp] theorem cell_empty (k : K) : cell (∅ : TreeMap K V cmp) k = none := by
  simp [cell]

variable [TransCmp cmp]

theorem getKey?_isSome_iff {t : TreeMap K V cmp} {k : K} :
    (t.getKey? k).isSome = t[k]?.isSome := by
  rw [TreeMap.isSome_getElem?_eq_contains, ← TreeMap.contains_eq_isSome_getKey?]

@[simp] theorem cell_map_snd (t : TreeMap K V cmp) (k : K) : (cell t k).map Prod.snd = t[k]? := by
  have h := getKey?_isSome_iff (t := t) (k := k)
  cases hk : t.getKey? k <;> cases hv : t[k]? <;> simp_all [cell]

theorem cell_eq_none_iff {t : TreeMap K V cmp} {k : K} : cell t k = none ↔ t[k]? = none := by
  rw [← cell_map_snd, Option.map_eq_none_iff]

theorem getElem?_of_cell {t : TreeMap K V cmp} {k k' : K} {v : V} (h : cell t k = some (k', v)) :
    t[k]? = some v := by
  rw [← cell_map_snd, h]; rfl

theorem cell_congr {t : TreeMap K V cmp} {k k' : K} (h : cmp k k' = .eq) :
    cell t k = cell t k' := by
  simp only [cell, TreeMap.getKey?_congr h, TreeMap.getElem?_congr h]

/-- The stored key object is the same key to the map. -/
theorem cell_key {t : TreeMap K V cmp} {k : K} {p : K × V} (h : cell t k = some p) :
    cmp p.1 k = .eq := by
  obtain ⟨k', hk, hp⟩ := Option.bind_eq_some_iff.mp h
  obtain ⟨v, -, rfl⟩ := Option.map_eq_some_iff.mp hp
  have hself := TreeMap.compare_getKey?_self (t := t) (k := k)
  rw [hk] at hself
  simpa using hself

theorem cell_insertIfNew_of_absent {t : TreeMap K V cmp} {k : K} (h : t[k]? = none) (v : V)
    (a : K) : cell (t.insertIfNew k v) a = if cmp k a = .eq then some (k, v) else cell t a := by
  have hk : k ∉ t := by rw [TreeMap.mem_iff_isSome_getElem?, h]; simp
  simp only [cell, TreeMap.getKey?_insertIfNew, TreeMap.getElem?_insertIfNew, hk, not_false_iff,
    and_true]
  split <;> rfl

theorem cell_insert (t : TreeMap K V cmp) (k : K) (v : V) (a : K) :
    cell (t.insert k v) a = if cmp k a = .eq then some (k, v) else cell t a := by
  simp only [cell, TreeMap.getKey?_insert, TreeMap.getElem?_insert]
  split <;> rfl

theorem cell_erase (t : TreeMap K V cmp) (k a : K) :
    cell (t.erase k) a = if cmp k a = .eq then none else cell t a := by
  simp only [cell, TreeMap.getKey?_erase, TreeMap.getElem?_erase]
  split <;> rfl

theorem mem_toList_iff_cell {t : TreeMap K V cmp} {p : K × V} :
    p ∈ t.toList ↔ cell t p.1 = some p := by
  obtain ⟨k, v⟩ := p
  rw [TreeMap.mem_toList_iff_getKey?_eq_some_and_getElem?_eq_some]
  constructor
  · rintro ⟨hk, hv⟩
    simp [cell, hk, hv]
  · intro h
    have hv := getElem?_of_cell h
    refine ⟨?_, hv⟩
    simp only [cell, hv, Option.map_some, Option.bind_eq_some_iff, Option.some.injEq,
      Prod.mk.injEq, and_true] at h
    obtain ⟨k', hk, rfl⟩ := h
    exact hk

theorem nodup_toList (t : TreeMap K V cmp) : t.toList.Nodup :=
  (TreeMap.distinct_keys_toList (t := t)).imp fun {a b} hab heq => by
    subst heq; exact hab ReflCmp.compare_self

/-! ## Local operations

`get` reads the cell of a key in a store of any kind, `op` performs an item on the store and
`act` says what the item does to the cell of its own key. -/

section Local

variable {T C ι : Type} {key : ι → K} {get : T → K → C} {op : T → ι → T} {act : ι → C → C}

/-- The item `x` is about the key `k`. -/
def onKey (cmp : K → K → Ordering) (key : ι → K) (k : K) (x : ι) : Bool := cmp (key x) k == .eq

omit [TransCmp cmp] in
@[simp] theorem onKey_iff {k : K} {x : ι} : onKey cmp key k x = true ↔ cmp (key x) k = .eq := by
  simp [onKey]

/-- `op` changes the cell of the item's own key, by `act`, and no other. -/
def Local (cmp : K → K → Ordering) (key : ι → K) (get : T → K → C) (op : T → ι → T)
    (act : ι → C → C) : Prop :=
  ∀ t x k, get (op t x) k = if cmp (key x) k = .eq then act x (get t k) else get t k

omit [TransCmp cmp] in
/-- **One key sees only its own items**: after a list of local operations the cell of `k` is
what the items on `k`, in their order, make of the cell before. -/
theorem Local.foldl (h : Local cmp key get op act) (xs : List ι) (t : T) (k : K) :
    get (xs.foldl op t) k
      = (xs.filter (onKey cmp key k)).foldl (fun c x => act x c) (get t k) := by
  induction xs generalizing t with
  | nil => rfl
  | cons x xs ih =>
    by_cases hk : cmp (key x) k = .eq
    · simp [ih, h t x k, hk]
    · simp [ih, h t x k, hk]

omit [TransCmp cmp] in
/-- Items dealt out to groups by a function of their key: the group of `k` holds every item on
`k`, in the order of the whole list. -/
theorem filter_group {n : Nat} {g : K → Fin n} (hg : ∀ a b, cmp a b = .eq → g a = g b)
    (xs : List ι) (k : K) :
    (xs.filter fun x => g (key x) == g k).filter (onKey cmp key k)
      = xs.filter (onKey cmp key k) := by
  rw [List.filter_filter]
  refine List.filter_congr fun x _ => ?_
  by_cases hk : cmp (key x) k = .eq
  · simp [hg _ _ hk]
  · simp [hk]

omit [TransCmp cmp] in
/-- A group that is not the group of `k` holds no item on `k`. -/
theorem filter_other_group {n : Nat} {g : K → Fin n} (hg : ∀ a b, cmp a b = .eq → g a = g b)
    (xs : List ι) {k : K} {i : Fin n} (hi : i ≠ g k) :
    (xs.filter fun x => g (key x) == i).filter (onKey cmp key k) = [] := by
  rw [List.filter_filter, List.filter_eq_nil_iff]
  intro x _
  simp only [Bool.and_eq_true, onKey_iff, beq_iff_eq, not_and]
  intro hk hx
  exact hi (by rw [← hx, hg _ _ hk])

end Local

/-! ## Dealing a list out to groups

The groups of a list, put back together group by group, are the list in another order. -/

theorem flatMap_insert_perm {α : Type} {n : Nat} {i : Fin n} (x : α) (f : Fin n → List α) :
    ∀ {is : List (Fin n)}, is.Nodup → i ∈ is →
      (is.flatMap fun j => if i = j then x :: f j else f j).Perm (x :: is.flatMap f)
  | j :: is, hn, hi => by
    obtain ⟨hj, hn⟩ := List.nodup_cons.mp hn
    rw [List.flatMap_cons, List.flatMap_cons]
    by_cases hij : i = j
    · subst hij
      -- the other groups do not change
      have hrest : (is.flatMap fun k => if i = k then x :: f k else f k) = is.flatMap f :=
        List.flatMap_congr fun k hk => if_neg fun h => hj (by rwa [h])
      rw [if_pos rfl, hrest, List.cons_append]
    · rw [if_neg hij]
      have hi : i ∈ is := (List.mem_cons.mp hi).resolve_left hij
      exact ((flatMap_insert_perm x f hn hi).append_left (f j)).trans List.perm_middle

theorem perm_flatMap_group {α : Type} {n : Nat} (g : α → Fin n) (xs : List α) :
    ((List.finRange n).flatMap fun i => xs.filter fun x => g x == i).Perm xs := by
  induction xs with
  | nil => simp
  | cons x xs ih =>
    have hcons : (fun i => (x :: xs).filter fun x => g x == i)
        = fun i => if g x = i then x :: xs.filter (fun x => g x == i)
            else xs.filter fun x => g x == i := by
      funext i
      simp [List.filter_cons]
    rw [hcons]
    exact (flatMap_insert_perm x _ (List.nodup_finRange n) (List.mem_finRange _)).trans
      (ih.cons x)

end CppDone
