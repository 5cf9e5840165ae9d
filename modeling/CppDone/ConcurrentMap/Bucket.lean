import CppDone.Lib.Cells

/-!
# `ConcurrentBucket`: one locked `std::map`

Each public member of the source's class takes the bucket's lock for its whole body, so a member
is one function of the `std::map` it protects. The three `*WithoutLock` members carry the whole
meaning of the container; the batch members are loops over them.

The lemmas are about cells only. A write or a removal at a key changes the cell of that key and no
other, a write by `writeCell`: that is all the rest of the development ever uses of the tree.

A cell keeps the stored key beside the value, since `erase` and `insert` replace both while a
refused write replaces neither: with a comparison that takes different keys for equal, `GetAllKey`
shows which of them came last.
-/

set_option autoImplicit false

namespace CppDone

open Std

variable {K V : Type} {cmp : K → K → Ordering}

/-- The state of a bucket: the map that `rwlock_` protects. The lock is not part of it: it is what
makes a member one step, and is modelled where that is shown. -/
structure ConcurrentBucket (K V : Type) (cmp : K → K → Ordering) where
  map_ : TreeMap K V cmp

namespace ConcurrentBucket

def empty : ConcurrentBucket K V cmp := ⟨∅⟩

/-- `value` is the caller's variable: it is assigned only when the key is found. -/
def lookup (b : ConcurrentBucket K V cmp) (key : K) (value : V) : Bool × V :=
  match b.map_[key]? with
  | some v => (true, v)
  | none => (false, value)

/-- `std::map::size`, the number of keys. -/
def size (b : ConcurrentBucket K V cmp) : Nat := b.map_.size

def clear (_ : ConcurrentBucket K V cmp) : ConcurrentBucket K V cmp := ⟨∅⟩

def contain (b : ConcurrentBucket K V cmp) (key : K) : Bool := b.map_.contains key

/-- `find`, and `erase` of what was found: a key that is absent leaves the tree alone. -/
def removeWithoutLock (b : ConcurrentBucket K V cmp) (key : K) : ConcurrentBucket K V cmp :=
  if b.map_.contains key then ⟨b.map_.erase key⟩ else b

variable (Compare : V → V → Bool)

/-- The body `InsertWithoutLock` and `UpdateWithoutLock` share: a held value is replaced exactly
if `Compare(new, held)`. They differ in what an absent key does (`bindAbsent`). -/
-- `std::map::insert` never overwrites, hence `insertIfNew`; the source erases first.
def writeWithoutLock (bindAbsent : Bool) (b : ConcurrentBucket K V cmp) (key : K) (value : V) :
    Bool × ConcurrentBucket K V cmp :=
  match b.map_[key]? with
  | none => if bindAbsent then (true, ⟨b.map_.insertIfNew key value⟩) else (false, b)
  | some held =>
    if Compare value held then (true, ⟨(b.map_.erase key).insertIfNew key value⟩)
    else (false, b)

def insertWithoutLock (b : ConcurrentBucket K V cmp) (key : K) (value : V) :
    Bool × ConcurrentBucket K V cmp :=
  writeWithoutLock Compare true b key value

def updateWithoutLock (b : ConcurrentBucket K V cmp) (key : K) (value : V) :
    Bool × ConcurrentBucket K V cmp :=
  writeWithoutLock Compare false b key value

def insert (b : ConcurrentBucket K V cmp) (key : K) (value : V) :
    Bool × ConcurrentBucket K V cmp :=
  b.insertWithoutLock Compare key value

def update (b : ConcurrentBucket K V cmp) (key : K) (value : V) :
    Bool × ConcurrentBucket K V cmp :=
  b.updateWithoutLock Compare key value

def remove (b : ConcurrentBucket K V cmp) (key : K) : ConcurrentBucket K V cmp :=
  b.removeWithoutLock key

/-- Appends this bucket's pairs, in key order, to the caller's list. -/
def getAllKey (b : ConcurrentBucket K V cmp) (list : List (K × V)) : List (K × V) :=
  list ++ b.map_.toList

/-- The items one after the other under one `write_lock`; what each would answer is not looked at.
-/
def insertKeyBatch (b : ConcurrentBucket K V cmp) (list : List (K × V)) :
    ConcurrentBucket K V cmp :=
  list.foldl (fun b kv => (b.insertWithoutLock Compare kv.1 kv.2).2) b

def updateKeyBatch (b : ConcurrentBucket K V cmp) (list : List (K × V)) :
    ConcurrentBucket K V cmp :=
  list.foldl (fun b kv => (b.updateWithoutLock Compare kv.1 kv.2).2) b

def removeKeyBatch (b : ConcurrentBucket K V cmp) (list : List K) : ConcurrentBucket K V cmp :=
  list.foldl (fun b key => b.removeWithoutLock key) b

end ConcurrentBucket

/-! ## What the members do to the cell of their key

A member that is given a key reads and writes one cell of the tree. So it is enough to say what
becomes of that cell, and that the others stay as they are. -/

section Cells

variable (Compare : V → V → Bool)

/-- A write on a cell; the flag is the returned boolean. -/
def writeCell (bindAbsent : Bool) (key : K) (value : V) :
    Option (K × V) → Bool × Option (K × V)
  | none => if bindAbsent then (true, some (key, value)) else (false, none)
  | some held => if Compare value held.2 then (true, some (key, value)) else (false, some held)

end Cells

namespace ConcurrentBucket

/-- The cell of a key in this bucket. -/
def cell (b : ConcurrentBucket K V cmp) (k : K) : Option (K × V) := CppDone.cell b.map_ k

@[simp] theorem cell_empty (k : K) : (empty : ConcurrentBucket K V cmp).cell k = none := by
  simp [cell, empty]

@[simp] theorem cell_clear (b : ConcurrentBucket K V cmp) (k : K) : b.clear.cell k = none := by
  simp [cell, clear]

variable [TransCmp cmp]

theorem lookup_eq (b : ConcurrentBucket K V cmp) (key : K) (value : V) :
    b.lookup key value = ((b.cell key).isSome, ((b.cell key).map Prod.snd).getD value) := by
  have h := cell_map_snd b.map_ key
  unfold lookup
  rw [← h]
  cases hc : CppDone.cell b.map_ key <;> simp [cell, hc]

theorem contain_eq (b : ConcurrentBucket K V cmp) (key : K) :
    b.contain key = (b.cell key).isSome := by
  rw [contain, ← TreeMap.isSome_getElem?_eq_contains, ← cell_map_snd, Option.isSome_map, cell]

theorem cell_removeWithoutLock (b : ConcurrentBucket K V cmp) (key k : K) :
    (b.removeWithoutLock key).cell k = if cmp key k = .eq then none else b.cell k := by
  unfold removeWithoutLock
  split
  · exact CppDone.cell_erase _ _ _
  · rename_i hc
    split
    · rename_i hk
      rw [cell, ← CppDone.cell_congr hk, cell_eq_none_iff]
      simpa [← TreeMap.mem_iff_contains] using hc
    · rfl

theorem cell_congr (b : ConcurrentBucket K V cmp) {key k : K} (h : cmp key k = .eq) :
    b.cell key = b.cell k := CppDone.cell_congr h

/-- Erasing a key and inserting it again is an overwrite. -/
theorem cell_erase_insertIfNew (b : ConcurrentBucket K V cmp) (key : K) (value : V) (k : K) :
    cell ⟨(b.map_.erase key).insertIfNew key value⟩ k
      = if cmp key k = .eq then some (key, value) else b.cell k := by
  rw [cell, cell_insertIfNew_of_absent (by simp), CppDone.cell_erase]
  split <;> rfl

theorem cell_insertIfNew (b : ConcurrentBucket K V cmp) {key : K} (h : b.cell key = none)
    (value : V) (k : K) :
    cell ⟨b.map_.insertIfNew key value⟩ k
      = if cmp key k = .eq then some (key, value) else b.cell k :=
  cell_insertIfNew_of_absent (cell_eq_none_iff.mp h) value k

variable (Compare : V → V → Bool)

theorem writeWithoutLock_eq (bindAbsent : Bool) (b : ConcurrentBucket K V cmp) (key : K)
    (value : V) :
    b.writeWithoutLock Compare bindAbsent key value =
      match b.cell key with
      | none => if bindAbsent then (true, ⟨b.map_.insertIfNew key value⟩) else (false, b)
      | some held =>
        if Compare value held.2 then (true, ⟨(b.map_.erase key).insertIfNew key value⟩)
        else (false, b) := by
  unfold writeWithoutLock
  rw [← cell_map_snd, ← cell]
  cases b.cell key <;> rfl

theorem writeWithoutLock_fst (bindAbsent : Bool) (b : ConcurrentBucket K V cmp) (key : K)
    (value : V) :
    (b.writeWithoutLock Compare bindAbsent key value).1
      = (writeCell Compare bindAbsent key value (b.cell key)).1 := by
  rw [writeWithoutLock_eq]
  cases b.cell key <;> simp only [writeCell] <;> split <;> rfl

theorem cell_writeWithoutLock (bindAbsent : Bool) (b : ConcurrentBucket K V cmp) (key : K)
    (value : V) (k : K) :
    (b.writeWithoutLock Compare bindAbsent key value).2.cell k
      = if cmp key k = .eq then (writeCell Compare bindAbsent key value (b.cell k)).2
        else b.cell k := by
  rw [writeWithoutLock_eq]
  by_cases hk : cmp key k = .eq
  · rw [if_pos hk]
    have hc : b.cell key = b.cell k := b.cell_congr hk
    -- the key that is written: `find` stops at its cell, and that is the one that changes
    cases h : b.cell k with
    | none =>
      rw [h] at hc
      cases bindAbsent with
      | true => simp [hc, cell_insertIfNew b hc, hk, writeCell]
      | false => simp [hc, h, writeCell]
    | some held =>
      rw [h] at hc
      simp only [hc, writeCell]
      split
      · simp [cell_erase_insertIfNew, hk]
      · exact h
  · rw [if_neg hk]
    -- any other key: what is erased and inserted is not in its cell
    cases hc : b.cell key with
    | none =>
      cases bindAbsent with
      | true => simp [cell_insertIfNew b hc, hk]
      | false => rfl
    | some held =>
      dsimp only
      split
      · simp [cell_erase_insertIfNew, hk]
      · rfl

end ConcurrentBucket

end CppDone
