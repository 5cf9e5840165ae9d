import Mathlib.Order.Lattice
import Mathlib.Data.List.Pairwise

/-!
# Agendas: keys in order, a list for each

An ordered map from keys to lists that is only ever extended at the end of one key's list and read
off from its smallest key on: the shape of a table of things to do later. The order of the keys is
a field of the structure, so the first entry is the earliest one by construction. `At` says what
stands where, and `push`, `first` and `dropFirst` are described by it.

Within one key the values keep the order in which they came. Two keys that come in the wrong order
are put right, and that is all the reordering there is (`flat_insert`).
-/

set_option autoImplicit false

namespace CppDone

section Stands

variable {κ ν : Type}

/-- `v` stands in `l` at `k`. -/
def Stands (l : List (κ × List ν)) (k : κ) (v : ν) : Prop := ∃ vs, (k, vs) ∈ l ∧ v ∈ vs

theorem not_stands_nil {k : κ} {v : ν} : ¬ Stands [] k v := by
  rintro ⟨vs, h, -⟩
  cases h

theorem stands_cons {k₀ : κ} {vs : List ν} {l : List (κ × List ν)} {k : κ} {v : ν} :
    Stands ((k₀, vs) :: l) k v ↔ k = k₀ ∧ v ∈ vs ∨ Stands l k v := by
  constructor
  · rintro ⟨ws, hmem, hv⟩
    rcases List.mem_cons.mp hmem with heq | hmem
    · obtain ⟨rfl, rfl⟩ := Prod.mk.inj heq
      exact Or.inl ⟨rfl, hv⟩
    · exact Or.inr ⟨ws, hmem, hv⟩
  · rintro (⟨rfl, hv⟩ | ⟨ws, hmem, hv⟩)
    · exact ⟨vs, List.mem_cons_self, hv⟩
    · exact ⟨ws, List.mem_cons_of_mem _ hmem, hv⟩

end Stands

/-- A key whose list is empty is not left out, since nobody takes a single value off. -/
structure Agenda (κ ν : Type) [LinearOrder κ] where
  entries : List (κ × List ν)
  sorted : entries.Pairwise fun x y => x.1 < y.1
deriving DecidableEq

namespace Agenda

variable {κ ν : Type} [LinearOrder κ]

def empty : Agenda κ ν := ⟨[], List.Pairwise.nil⟩

/-! ## Inserting

The key is looked for from the front. An agenda has no two entries under one key, so a value goes to
the entry that is there, behind the ones it has, or to a new entry at the place of its key. -/

/-- `v` behind what stands at `k`. -/
def insert (k : κ) (v : ν) : List (κ × List ν) → List (κ × List ν)
  | [] => [(k, [v])]
  | (k', vs) :: rest =>
    if k < k' then (k, [v]) :: (k', vs) :: rest
    else if k = k' then (k', vs ++ [v]) :: rest
    else (k', vs) :: insert k v rest

theorem key_of_mem_insert {k : κ} {v : ν} {l : List (κ × List ν)} {x : κ × List ν}
    (h : x ∈ insert k v l) : x.1 = k ∨ ∃ y ∈ l, y.1 = x.1 := by
  -- the new key is put in, or found, or lies further on
  induction l with
  | nil =>
    obtain rfl := List.mem_singleton.mp h
    exact Or.inl rfl
  | cons e rest ih =>
    obtain ⟨k', vs⟩ := e
    unfold insert at h
    split at h
    · rcases List.mem_cons.mp h with rfl | h
      · exact Or.inl rfl
      · exact Or.inr ⟨x, h, rfl⟩
    · split at h
      · rcases List.mem_cons.mp h with rfl | h
        · exact Or.inr ⟨(k', vs), List.mem_cons_self, rfl⟩
        · exact Or.inr ⟨x, List.mem_cons_of_mem _ h, rfl⟩
      · rcases List.mem_cons.mp h with rfl | h
        · exact Or.inr ⟨(k', vs), List.mem_cons_self, rfl⟩
        · rcases ih h with hk | ⟨y, hy, hyx⟩
          · exact Or.inl hk
          · exact Or.inr ⟨y, List.mem_cons_of_mem _ hy, hyx⟩

theorem sorted_insert (k : κ) (v : ν) {l : List (κ × List ν)}
    (h : l.Pairwise fun x y => x.1 < y.1) : (insert k v l).Pairwise fun x y => x.1 < y.1 := by
  induction l with
  | nil => exact List.pairwise_singleton _ _
  | cons e rest ih =>
    obtain ⟨k', vs⟩ := e
    obtain ⟨hhead, hrest⟩ := List.pairwise_cons.mp h
    unfold insert
    split
    -- it comes in front of all the others
    · next hlt =>
      refine List.pairwise_cons.mpr ⟨?_, h⟩
      intro y hy
      rcases List.mem_cons.mp hy with rfl | hy
      · exact hlt
      · exact lt_trans hlt (hhead y hy)
    · next hge =>
      split
      · exact List.pairwise_cons.mpr ⟨hhead, hrest⟩
      -- it lies behind this one, and so do all that are in the rest
      · next hne =>
        refine List.pairwise_cons.mpr ⟨?_, ih hrest⟩
        intro y hy
        rcases key_of_mem_insert hy with hyk | ⟨z, hz, hzy⟩
        · exact hyk ▸ lt_of_le_of_ne (not_lt.mp hge) (Ne.symm hne)
        · exact hzy ▸ hhead z hz

def push (a : Agenda κ ν) (k : κ) (v : ν) : Agenda κ ν :=
  ⟨insert k v a.entries, sorted_insert k v a.sorted⟩

/-- The entry with the smallest key. -/
def first (a : Agenda κ ν) : Option (κ × List ν) := a.entries.head?

def dropFirst (a : Agenda κ ν) : Agenda κ ν := ⟨a.entries.tail, a.sorted.tail⟩

/-- `v` stands in an agenda at `k`. -/
def At (a : Agenda κ ν) (k : κ) (v : ν) : Prop := Stands a.entries k v

theorem stands_insert {k₀ : κ} {v₀ : ν} {l : List (κ × List ν)} {k : κ} {v : ν} :
    Stands (insert k₀ v₀ l) k v ↔ Stands l k v ∨ k = k₀ ∧ v = v₀ := by
  -- a list of its own for a new key
  have hnew : Stands [(k₀, [v₀])] k v ↔ k = k₀ ∧ v = v₀ := by
    rw [stands_cons, List.mem_singleton]
    exact or_iff_left not_stands_nil
  induction l with
  | nil =>
    rw [insert, hnew]
    exact (or_iff_right not_stands_nil).symm
  | cons e rest ih =>
    obtain ⟨k', vs⟩ := e
    unfold insert
    split
    · rw [stands_cons, List.mem_singleton]
      exact or_comm
    · split
      · next heq =>
        subst heq
        rw [stands_cons, stands_cons, List.mem_append, List.mem_singleton, and_or_left, or_assoc,
          or_assoc, or_comm (b := Stands rest k v)]
      · rw [stands_cons, stands_cons, or_assoc]
        exact or_congr_right ih

theorem at_push {a : Agenda κ ν} {k₀ : κ} {v₀ : ν} {k : κ} {v : ν} :
    (a.push k₀ v₀).At k v ↔ a.At k v ∨ k = k₀ ∧ v = v₀ :=
  stands_insert

/-- What stands in an agenda stands in its first entry or behind it. -/
theorem at_iff_first {a : Agenda κ ν} {k₀ : κ} {vs : List ν} (h : a.first = some (k₀, vs)) {k : κ}
    {v : ν} : a.At k v ↔ k = k₀ ∧ v ∈ vs ∨ a.dropFirst.At k v := by
  obtain ⟨entries, sorted⟩ := a
  cases entries with
  | nil => cases h
  | cons e rest =>
    obtain rfl : e = (k₀, vs) := Option.some.inj h
    exact stands_cons

/-! ### The agenda as one list

Every value with its key, in the order in which they come off. Pushing puts a value behind those
that are not later. -/

/-- Entries with every value under its own key. -/
def flat (l : List (κ × List ν)) : List (κ × ν) := l.flatMap fun e => e.2.map fun v => (e.1, v)

omit [LinearOrder κ] in
theorem mem_flat {l : List (κ × List ν)} {k : κ} {v : ν} : (k, v) ∈ flat l ↔ Stands l k v := by
  simp only [flat, List.mem_flatMap, List.mem_map, Stands]
  constructor
  · rintro ⟨e, he, v', hv', heq⟩
    obtain ⟨rfl, rfl⟩ := Prod.mk.inj heq
    exact ⟨e.2, he, hv'⟩
  · rintro ⟨vs, hmem, hv⟩
    exact ⟨(k, vs), hmem, v, hv, rfl⟩

omit [LinearOrder κ] in
theorem flat_cons (e : κ × List ν) (l : List (κ × List ν)) :
    flat (e :: l) = e.2.map (fun v => (e.1, v)) ++ flat l :=
  List.flatMap_cons

theorem lt_of_mem_flat {k : κ} {l : List (κ × List ν)} (h : ∀ y ∈ l, k < y.1) {x : κ × ν}
    (hx : x ∈ flat l) : k < x.1 := by
  obtain ⟨vs, hmem, -⟩ := mem_flat.mp hx
  exact h _ hmem

/-- A new value goes behind all that are not later. -/
theorem flat_insert (k : κ) (v : ν) {l : List (κ × List ν)}
    (h : l.Pairwise fun x y => x.1 < y.1) :
    ∃ before after, flat l = before ++ after ∧ flat (insert k v l) = before ++ (k, v) :: after ∧
      (∀ x ∈ before, x.1 ≤ k) ∧ ∀ x ∈ after, k < x.1 := by
  induction l with
  | nil => exact ⟨[], [], rfl, rfl, nofun, nofun⟩
  | cons e rest ih =>
    obtain ⟨k', vs⟩ := e
    obtain ⟨hhead, hrest⟩ := List.pairwise_cons.mp h
    have hown : ∀ x ∈ vs.map fun u => (k', u), x.1 = k' := by
      intro x hx
      obtain ⟨u, -, rfl⟩ := List.mem_map.mp hx
      rfl
    unfold insert
    -- in front, at the end of the list of its key, or further on
    split_ifs with hlt heq
    · refine ⟨[], flat ((k', vs) :: rest), rfl, rfl, nofun, fun x hx => lt_of_mem_flat ?_ hx⟩
      intro y hy
      rcases List.mem_cons.mp hy with rfl | hy
      · exact hlt
      · exact lt_trans hlt (hhead y hy)
    · subst heq
      refine ⟨vs.map fun u => (k, u), flat rest, flat_cons _ _, ?_,
        fun x hx => le_of_eq (hown x hx), fun x hx => lt_of_mem_flat hhead hx⟩
      rw [flat_cons, List.map_append, List.append_assoc]
      rfl
    · have hgt : k' < k := lt_of_le_of_ne (not_lt.mp hlt) (Ne.symm heq)
      obtain ⟨before, after, hsplit, hins, hbefore, hafter⟩ := ih hrest
      refine ⟨(vs.map fun u => (k', u)) ++ before, after, ?_, ?_, ?_, hafter⟩
      · rw [flat_cons, hsplit, List.append_assoc]
      · rw [flat_cons, hins, List.append_assoc]
      · intro x hx
        rcases List.mem_append.mp hx with hx | hx
        · rw [hown x hx]
          exact le_of_lt hgt
        · exact hbefore x hx

/-- All that stands in an agenda, in its order. -/
def items (a : Agenda κ ν) : List (κ × ν) := flat a.entries

theorem mem_items {a : Agenda κ ν} {k : κ} {v : ν} : (k, v) ∈ a.items ↔ a.At k v := mem_flat

theorem items_push (a : Agenda κ ν) (k : κ) (v : ν) :
    ∃ before after, a.items = before ++ after ∧ (a.push k v).items = before ++ (k, v) :: after ∧
      (∀ x ∈ before, x.1 ≤ k) ∧ ∀ x ∈ after, k < x.1 :=
  flat_insert k v a.sorted

theorem items_first {a : Agenda κ ν} {k : κ} {vs : List ν} (h : a.first = some (k, vs)) :
    a.items = vs.map (fun v => (k, v)) ++ a.dropFirst.items := by
  obtain ⟨entries, sorted⟩ := a
  cases entries with
  | nil => cases h
  | cons e rest =>
    obtain rfl : e = (k, vs) := Option.some.inj h
    exact flat_cons (k, vs) rest

/-- Nothing stands before the first entry. -/
theorem first_le {a : Agenda κ ν} {x : κ × ν} (hx : x ∈ a.items) :
    ∃ k vs, a.first = some (k, vs) ∧ k ≤ x.1 := by
  obtain ⟨entries, sorted⟩ := a
  cases entries with
  | nil => cases hx
  | cons e rest =>
    obtain ⟨k, vs⟩ := e
    obtain ⟨hhead, -⟩ := List.pairwise_cons.mp sorted
    obtain ⟨ws, hmem, -⟩ := mem_flat.mp hx
    refine ⟨k, vs, rfl, ?_⟩
    rcases List.mem_cons.mp hmem with heq | hmem
    · exact le_of_eq (Prod.mk.inj heq).1.symm
    · exact le_of_lt (hhead _ hmem)

end Agenda

end CppDone
