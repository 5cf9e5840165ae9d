import CppDone.ConcurrentMap.Map

/-!
# One plain map, and what it means to stand for a `ConcurrentMap`

This file is the specification side: not translated from the source, but the statement of what
the container is for. A client of `ConcurrentMap` should be able to think of one map in which
`Insert` binds an absent key or replaces the held value exactly if `Compare(new, held)`,
`Update` replaces exactly if the key is bound and `Compare(new, held)`, `Delete` unbinds, and a
batch call is its items one after the other.

`Represents m t` is the relation between the two: the bucket a key hashes to holds what `t` holds
under the key, and no other bucket holds anything under it. Everything that touches the buckets
does so through single-key operations, so one fact is enough to keep the relation
(`Represents.section`): items applied to the bucket of their keys on one side, and to the plain
map in the same order on the other.
-/

set_option autoImplicit false

namespace CppDone

open Std

variable {K V : Type} {cmp : K → K → Ordering}

namespace ConcurrentMap

/-! ## Single-key operations

All members but the traversals and `Clear` are made of these. Seen from the cell of its key an
operation does the same in a bucket and in one plain map; this is where the two sides meet. -/

/-- The items of a batch are inserts, updates or removals as well. -/
inductive KeyOp (K V : Type) where
  | lookUp (key : K) (value : V)
  | contain (key : K)
  | insert (key : K) (value : V)
  | update (key : K) (value : V)
  | delete (key : K)
  deriving Repr, DecidableEq

/-- The single-key operations a call stands for, in the order of its list. -/
def Op.keyOps : Op K V → List (KeyOp K V)
  | .lookUp key value => [.lookUp key value]
  | .contain key => [.contain key]
  | .insert key value => [.insert key value]
  | .update key value => [.update key value]
  | .delete key => [.delete key]
  | .insertKeyBatch list => list.map fun kv => .insert kv.1 kv.2
  | .updateKeyBatch list => list.map fun kv => .update kv.1 kv.2
  | .removeKeyBatch list => list.map .delete
  | .getAllKey _ | .size | .clear => []

namespace KeyOp

def key : KeyOp K V → K
  | .lookUp key _ | .contain key | .insert key _ | .update key _ | .delete key => key

variable (Compare : V → V → Bool)

/-- What the operation returns and leaves, seen from the cell of its key. -/
def onCell : KeyOp K V → Option (K × V) → Ret K V × Option (K × V)
  | .lookUp _ value, c => (.looked c.isSome ((c.map Prod.snd).getD value), c)
  | .contain _, c => (.bool c.isSome, c)
  | .insert key value, c =>
    let r := writeCell Compare true key value c
    (.bool r.1, r.2)
  | .update key value, c =>
    let r := writeCell Compare false key value c
    (.bool r.1, r.2)
  | .delete _, _ => (.bool true, none)

/-- The member of the bucket behind the operation. -/
def onBucket : KeyOp K V → ConcurrentBucket K V cmp → Ret K V × ConcurrentBucket K V cmp
  | .lookUp key value, b => let r := b.lookup key value; (.looked r.1 r.2, b)
  | .contain key, b => (.bool (b.contain key), b)
  | .insert key value, b => let r := b.insert Compare key value; (.bool r.1, r.2)
  | .update key value, b => let r := b.update Compare key value; (.bool r.1, r.2)
  | .delete key, b => (.bool true, b.remove key)

/-- A write to one unsharded map. `Insert` binds an absent key, `Update` does not; both replace a
held value exactly if `Compare(new, held)`. -/
def plainWrite (bindAbsent : Bool) (t : TreeMap K V cmp) (key : K) (value : V) :
    Bool × TreeMap K V cmp :=
  let writes := match t[key]? with
    | none => bindAbsent
    | some held => Compare value held
  (writes, if writes then t.insert key value else t)

/-- The operation on one unsharded map. -/
def onPlain : KeyOp K V → TreeMap K V cmp → Ret K V × TreeMap K V cmp
  | .lookUp key value, t => (.looked (t.contains key) (t.getD key value), t)
  | .contain key, t => (.bool (t.contains key), t)
  | .insert key value, t => let r := plainWrite Compare true t key value; (.bool r.1, r.2)
  | .update key value, t => let r := plainWrite Compare false t key value; (.bool r.1, r.2)
  | .delete key, t => (.bool true, t.erase key)

variable [TransCmp cmp]

theorem onBucket_fst (x : KeyOp K V) (b : ConcurrentBucket K V cmp) :
    (x.onBucket Compare b).1 = (x.onCell Compare (b.cell x.key)).1 := by
  cases x with
  | lookUp key value => simp [onBucket, onCell, KeyOp.key, ConcurrentBucket.lookup_eq]
  | contain key => simp [onBucket, onCell, KeyOp.key, ConcurrentBucket.contain_eq]
  | insert key value =>
    exact congrArg Ret.bool (ConcurrentBucket.writeWithoutLock_fst Compare true b key value)
  | update key value =>
    exact congrArg Ret.bool (ConcurrentBucket.writeWithoutLock_fst Compare false b key value)
  | delete key => rfl

theorem onBucket_local :
    Local cmp KeyOp.key ConcurrentBucket.cell
      (fun (b : ConcurrentBucket K V cmp) x => (onBucket Compare x b).2)
      (fun x c => (onCell Compare x c).2) := by
  intro b x k
  cases x with
  | lookUp key value => simp [onBucket, onCell]
  | contain key => simp [onBucket, onCell]
  | insert key value => exact ConcurrentBucket.cell_writeWithoutLock Compare true b key value k
  | update key value => exact ConcurrentBucket.cell_writeWithoutLock Compare false b key value k
  | delete key => exact ConcurrentBucket.cell_removeWithoutLock b key k

theorem contains_eq_isSome_cell (t : TreeMap K V cmp) (key : K) :
    t.contains key = (cell t key).isSome := by
  rw [← TreeMap.isSome_getElem?_eq_contains, ← cell_map_snd, Option.isSome_map]

theorem plainWrite_fst (bindAbsent : Bool) (t : TreeMap K V cmp) (key : K) (value : V) :
    (plainWrite Compare bindAbsent t key value).1
      = (writeCell Compare bindAbsent key value (cell t key)).1 := by
  simp only [plainWrite, ← cell_map_snd]
  cases cell t key <;> simp only [Option.map_none, Option.map_some, writeCell] <;>
    split <;> simp_all

theorem cell_plainWrite (bindAbsent : Bool) (t : TreeMap K V cmp) (key : K) (value : V) (k : K) :
    cell (plainWrite Compare bindAbsent t key value).2 k
      = if cmp key k = .eq then (writeCell Compare bindAbsent key value (cell t k)).2
        else cell t k := by
  have hw : (plainWrite Compare bindAbsent t key value).2
      = if (plainWrite Compare bindAbsent t key value).1 then t.insert key value else t := rfl
  rw [hw, plainWrite_fst]
  by_cases hk : cmp key k = .eq
  · rw [if_pos hk, cell_congr hk]
    cases hc : cell t k <;> simp only [writeCell] <;> split <;> simp_all [cell_insert]
  · rw [if_neg hk]
    split
    · rw [cell_insert, if_neg hk]
    · rfl

theorem onPlain_fst (x : KeyOp K V) (t : TreeMap K V cmp) :
    (x.onPlain Compare t).1 = (x.onCell Compare (cell t x.key)).1 := by
  cases x with
  | lookUp key value =>
    simp [onPlain, onCell, KeyOp.key, contains_eq_isSome_cell, TreeMap.getD_eq_getD_getElem?]
  | contain key => simp [onPlain, onCell, KeyOp.key, contains_eq_isSome_cell]
  | insert key value => exact congrArg Ret.bool (plainWrite_fst Compare true t key value)
  | update key value => exact congrArg Ret.bool (plainWrite_fst Compare false t key value)
  | delete key => rfl

theorem onPlain_local :
    Local cmp KeyOp.key cell
      (fun (t : TreeMap K V cmp) x => (onPlain Compare x t).2)
      (fun x c => (onCell Compare x c).2) := by
  intro t x k
  cases x with
  | lookUp key value => simp [onPlain, onCell]
  | contain key => simp [onPlain, onCell]
  | insert key value => exact cell_plainWrite Compare true t key value k
  | update key value => exact cell_plainWrite Compare false t key value k
  | delete key => exact cell_erase t key k

end KeyOp

/-! ## The relation

A plain map stands for the buckets if it agrees with them cell by cell: with the bucket a key hashes
to, while no other bucket binds the key. In which order a bucket keeps its keys does not matter. -/

/-- `t` is the plain map a `ConcurrentMap` stands for: under every key, the bucket the key
hashes to holds what `t` holds, and every other bucket holds nothing. -/
def Represents {L : Layout K cmp} (m : ConcurrentMap V L) (t : TreeMap K V cmp) : Prop :=
  ∀ i k, (m.buckets_ i).cell k = if i = L.bucketIndex k then cell t k else none

section Represents

variable {L : Layout K cmp} {m : ConcurrentMap V L} {t : TreeMap K V cmp}

theorem represents_empty (L : Layout K cmp) :
    Represents (empty L : ConcurrentMap V L) (∅ : TreeMap K V cmp) := by
  intro i k
  simp [empty]

theorem Represents.cell_getBucket (h : Represents m t) (k : K) :
    (m.getBucket k).cell k = cell t k := by
  rw [getBucket, h, if_pos rfl]

variable [TransCmp cmp] (Compare : V → V → Bool)

/-- Items applied to a bucket, in order. -/
def sectionBucket (xs : List (KeyOp K V)) (b : ConcurrentBucket K V cmp) :
    ConcurrentBucket K V cmp :=
  xs.foldl (fun b x => (x.onBucket Compare b).2) b

/-- The same items applied to a plain map. -/
def sectionPlain (xs : List (KeyOp K V)) (t : TreeMap K V cmp) : TreeMap K V cmp :=
  xs.foldl (fun t x => (x.onPlain Compare t).2) t

theorem cell_sectionBucket (xs : List (KeyOp K V)) (b : ConcurrentBucket K V cmp) (k : K) :
    (sectionBucket Compare xs b).cell k
      = (xs.filter (onKey cmp KeyOp.key k)).foldl (fun c x => (x.onCell Compare c).2)
          (b.cell k) :=
  (KeyOp.onBucket_local Compare).foldl xs b k

theorem cell_sectionPlain (xs : List (KeyOp K V)) (t : TreeMap K V cmp) (k : K) :
    cell (sectionPlain Compare xs t) k
      = (xs.filter (onKey cmp KeyOp.key k)).foldl (fun c x => (x.onCell Compare c).2)
          (cell t k) :=
  (KeyOp.onPlain_local Compare).foldl xs t k

/-- **One locked section**: items of one bucket, applied there and to the plain map. -/
theorem Represents.section (h : Represents m t) {i : Fin L.bucketNums} {xs : List (KeyOp K V)}
    (hxs : ∀ x ∈ xs, L.bucketIndex x.key = i) :
    Represents (m.setBucket i (sectionBucket Compare xs (m.buckets_ i)))
      (sectionPlain Compare xs t) := by
  intro j k
  have hnone : i ≠ L.bucketIndex k → xs.filter (onKey cmp KeyOp.key k) = [] := by
    intro hi
    rw [List.filter_eq_nil_iff]
    intro x hx hk
    exact hi (by rw [← hxs x hx, L.bucketIndex_congr _ _ (onKey_iff.mp hk)])
  rw [buckets_setBucket, cell_sectionPlain]
  by_cases hj : j = i
  · subst hj
    rw [if_pos rfl, cell_sectionBucket, h]
    by_cases hi : j = L.bucketIndex k
    · rw [if_pos hi, if_pos hi]
    · rw [if_neg hi, if_neg hi, hnone hi]; rfl
  · rw [if_neg hj, h]
    by_cases hjk : j = L.bucketIndex k
    · rw [if_pos hjk, if_pos hjk, hnone (by rw [← hjk]; exact Ne.symm hj)]; rfl
    · rw [if_neg hjk, if_neg hjk]

/-- **A whole batch**: its items dealt out to the buckets on one side, in list order on the
other. Items on different keys may change places; those on one key stay in one bucket, in
order. -/
theorem Represents.batch (h : Represents m t) (xs : List (KeyOp K V)) :
    Represents (m.forBuckets fun i b => sectionBucket Compare (L.lists KeyOp.key xs i) b)
      (sectionPlain Compare xs t) := by
  intro i k
  rw [buckets_forBuckets, cell_sectionBucket, cell_sectionPlain, L.lists_eq_filter, h]
  by_cases hi : i = L.bucketIndex k
  · rw [if_pos hi, if_pos hi, hi, filter_group L.bucketIndex_congr]
  · rw [if_neg hi, if_neg hi, filter_other_group L.bucketIndex_congr xs hi]; rfl

end Represents

end ConcurrentMap

end CppDone
