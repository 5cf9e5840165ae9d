import CppDone.ConcurrentMap.Plain

/-!
# One client sees one plain map

`ConcurrentMap` refines the plain map of `Plain.lean`, call by call and for call sequences of any
length: `calls_agree`. The relation is `Represents`; every member keeps it and answers what the
plain map answers. Two members read all buckets, and for them the relation is used once more, as
a fact about lists: the pairs of all buckets, one bucket after the other, are the pairs of the
plain map in another order (`pairs_perm`).
-/

set_option autoImplicit false

namespace CppDone

open Std

variable {K V : Type} {cmp : K → K → Ordering}

namespace ConcurrentMap

/-! ## Reading all buckets

A traversal lists the buckets one after the other. Put together, the lists have every binding of the
plain map once, in an order of their own. -/

section Pairs

variable {L : Layout K cmp} {m : ConcurrentMap V L} {t : TreeMap K V cmp}

/-- The pairs of all buckets, one bucket after the other. -/
def pairs (m : ConcurrentMap V L) : List (K × V) :=
  (List.finRange L.bucketNums).flatMap fun i => (m.buckets_ i).map_.toList

theorem getAllKey_eq_pairs (m : ConcurrentMap V L) (list : List (K × V)) :
    m.getAllKey list = m.pairs := by
  -- what the caller's list held is dropped, so the accumulator starts empty
  suffices h : ∀ (is : List (Fin L.bucketNums)) (acc : List (K × V)),
      is.foldl (fun list i => (m.buckets_ i).getAllKey list) acc
        = acc ++ is.flatMap fun i => (m.buckets_ i).map_.toList by
    simpa [getAllKey, pairs] using h _ []
  intro is
  induction is with
  | nil => simp
  | cons i is ih =>
    intro acc
    rw [List.foldl_cons, ih, List.flatMap_cons, ConcurrentBucket.getAllKey, List.append_assoc]

theorem size_eq_length_pairs [TransCmp cmp] (m : ConcurrentMap V L) :
    m.size = m.pairs.length := by
  suffices h : ∀ (is : List (Fin L.bucketNums)) (acc : Nat),
      is.foldl (fun total i => total + (m.buckets_ i).size) acc
        = acc + (is.flatMap fun i => (m.buckets_ i).map_.toList).length by
    simpa [size, pairs] using h _ 0
  intro is
  induction is with
  | nil => simp
  | cons i is ih =>
    intro acc
    rw [List.foldl_cons, ih, List.flatMap_cons, List.length_append, TreeMap.length_toList,
      ConcurrentBucket.size, Nat.add_assoc]

variable [TransCmp cmp]

theorem mem_bucket_toList_iff (h : Represents m t) {i : Fin L.bucketNums} {p : K × V} :
    p ∈ (m.buckets_ i).map_.toList ↔ i = L.bucketIndex p.1 ∧ p ∈ t.toList := by
  have hcell := h i p.1
  rw [ConcurrentBucket.cell] at hcell
  rw [mem_toList_iff_cell, mem_toList_iff_cell, hcell]
  by_cases hi : i = L.bucketIndex p.1
  · simp [hi]
  · simp [hi]

theorem mem_pairs_iff (h : Represents m t) {p : K × V} : p ∈ m.pairs ↔ p ∈ t.toList := by
  simp only [pairs, List.mem_flatMap, List.mem_finRange, true_and, mem_bucket_toList_iff h]
  constructor
  · rintro ⟨_, _, hp⟩; exact hp
  · intro hp; exact ⟨_, rfl, hp⟩

theorem pairs_nodup (h : Represents m t) : m.pairs.Nodup := by
  rw [pairs, List.nodup_flatMap]
  refine ⟨fun i _ => nodup_toList _, (List.nodup_finRange _).imp fun {i j} hij => ?_⟩
  -- a pair in two buckets would be in the bucket its key selects twice
  intro p hi hj
  rw [mem_bucket_toList_iff h] at hi hj
  exact hij (hi.1.trans hj.1.symm)

/-- **The buckets hold the bindings of the plain map**, each once. -/
theorem pairs_perm (h : Represents m t) : m.pairs.Perm t.toList :=
  (List.perm_ext_iff_of_nodup (pairs_nodup h) (nodup_toList t)).mpr fun _ => mem_pairs_iff h

end Pairs

/-! ## The plain map as a client sees it

One call on one map, without buckets. Answers agree if they are equal, but for the order of a list
of bindings, which `ConcurrentMap` does not promise. -/

/-- No key appears twice. -/
def DistinctKeys (cmp : K → K → Ordering) (list : List (K × V)) : Prop :=
  list.Pairwise fun a b => cmp a.1 b.1 ≠ .eq

theorem distinctKeys_of_perm [TransCmp cmp] {t : TreeMap K V cmp} {list : List (K × V)}
    (h : list.Perm t.toList) : DistinctKeys cmp list := by
  have hsymm : ∀ {a b : K × V}, cmp a.1 b.1 ≠ .eq → cmp b.1 a.1 ≠ .eq :=
    fun hab hba => hab (OrientedCmp.eq_comm.mp hba)
  exact (h.pairwise_iff hsymm).mpr TreeMap.distinct_keys_toList

variable (Compare : V → V → Bool)

/-- A call on one unsharded map. -/
def plainCall (t : TreeMap K V cmp) : Op K V → Ret K V × TreeMap K V cmp
  | .lookUp key value => (KeyOp.lookUp key value).onPlain Compare t
  | .contain key => (KeyOp.contain key).onPlain Compare t
  | .insert key value => (KeyOp.insert key value).onPlain Compare t
  | .update key value => (KeyOp.update key value).onPlain Compare t
  | .delete key => (KeyOp.delete key).onPlain Compare t
  | .insertKeyBatch list => (.void, sectionPlain Compare (Op.insertKeyBatch list).keyOps t)
  | .updateKeyBatch list => (.void, sectionPlain Compare (Op.updateKeyBatch list).keyOps t)
  | .removeKeyBatch list => (.void, sectionPlain Compare (Op.removeKeyBatch list).keyOps t)
  | .getAllKey _ => (.list t.toList, t)
  | .size => (.size t.size, t)
  | .clear => (.void, ∅)

def plainCalls (t : TreeMap K V cmp) : List (Op K V) → List (Ret K V) × TreeMap K V cmp
  | [] => ([], t)
  | op :: ops =>
    let r := plainCall Compare t op
    let rest := plainCalls r.2 ops
    (r.1 :: rest.1, rest.2)

/-- Two answers are the same to the client: equal, except that a list of bindings may come in
any order and names no key twice. -/
inductive Ret.Agrees (cmp : K → K → Ordering) : Ret K V → Ret K V → Prop
  | void : Agrees cmp .void .void
  | bool (ret : Bool) : Agrees cmp (.bool ret) (.bool ret)
  | looked (ret : Bool) (value : V) : Agrees cmp (.looked ret value) (.looked ret value)
  | size (total : Nat) : Agrees cmp (.size total) (.size total)
  | list {list list' : List (K × V)} : list.Perm list' → DistinctKeys cmp list →
      Agrees cmp (.list list) (.list list')

theorem KeyOp.agrees_onPlain {x : KeyOp K V} {t : TreeMap K V cmp} {r : Ret K V}
    (h : r = (x.onPlain Compare t).1) : r.Agrees cmp (x.onPlain Compare t).1 := by
  subst h
  cases x with
  | lookUp => exact .looked _ _
  | contain => exact .bool _
  | insert => exact .bool _
  | update => exact .bool _
  | delete => exact .bool _

/-! ## Every member keeps the relation

Member by member: the answers agree, and so do the maps afterwards. A batch is dealt out to the
buckets on one side and taken in its own order on the other. -/

section Call

variable {L : Layout K cmp} {m : ConcurrentMap V L} {t : TreeMap K V cmp}

theorem represents_clear (m : ConcurrentMap V L) :
    Represents m.clear (∅ : TreeMap K V cmp) := by
  intro i k
  rw [clear, buckets_forBuckets, ConcurrentBucket.cell_clear]
  simp

theorem lists_map {ι : Type} (L : Layout K cmp) (keyOf : ι → K) (f : ι → KeyOp K V)
    (hf : ∀ x, (f x).key = keyOf x) (list : List ι) (i : Fin L.bucketNums) :
    (L.lists keyOf list i).map f = L.lists KeyOp.key (list.map f) i := by
  rw [L.lists_eq_filter, L.lists_eq_filter, List.filter_map]
  simp [Function.comp_def, hf]

theorem insertKeyBatch_eq (m : ConcurrentMap V L) (list : List (K × V)) :
    m.insertKeyBatch Compare list = m.forBuckets fun i b =>
      sectionBucket Compare (L.lists KeyOp.key (Op.insertKeyBatch list).keyOps i) b := by
  simp only [insertKeyBatch, Op.keyOps]
  congr 1
  funext i b
  rw [← lists_map L Prod.fst _ (fun _ => rfl), sectionBucket, List.foldl_map]
  rfl

theorem updateKeyBatch_eq (m : ConcurrentMap V L) (list : List (K × V)) :
    m.updateKeyBatch Compare list = m.forBuckets fun i b =>
      sectionBucket Compare (L.lists KeyOp.key (Op.updateKeyBatch list).keyOps i) b := by
  simp only [updateKeyBatch, Op.keyOps]
  congr 1
  funext i b
  rw [← lists_map L Prod.fst _ (fun _ => rfl), sectionBucket, List.foldl_map]
  rfl

theorem removeKeyBatch_eq (m : ConcurrentMap V L) (list : List K) :
    m.removeKeyBatch list = m.forBuckets fun i b =>
      sectionBucket Compare (L.lists KeyOp.key (Op.removeKeyBatch list).keyOps i) b := by
  simp only [removeKeyBatch, Op.keyOps]
  congr 1
  funext i b
  rw [← lists_map L id _ (fun _ => rfl), sectionBucket, List.foldl_map]
  rfl

variable [TransCmp cmp]

/-- A single-key member: its answer comes from the cell of the key, which both sides share. -/
theorem Represents.keyOp (h : Represents m t) (x : KeyOp K V) :
    (x.onBucket Compare (m.getBucket x.key)).1 = (x.onPlain Compare t).1 ∧
      Represents
        (m.setBucket (L.bucketIndex x.key) (x.onBucket Compare (m.getBucket x.key)).2)
        (x.onPlain Compare t).2 := by
  constructor
  · rw [KeyOp.onBucket_fst, KeyOp.onPlain_fst, h.cell_getBucket]
  · have hhome : ∀ y ∈ [x], L.bucketIndex y.key = L.bucketIndex x.key := by simp
    exact h.section Compare hhome

/-- **One call**: the answers agree and the relation is kept. -/
theorem call_agrees (h : Represents m t) (op : Op K V) :
    (m.call Compare op).1.Agrees cmp (plainCall Compare t op).1 ∧
      Represents (m.call Compare op).2 (plainCall Compare t op).2 := by
  -- a single-key member: `KeyOp.onBucket` in the bucket of the key
  have hkey : ∀ x : KeyOp K V,
      ((x.onBucket Compare (m.getBucket x.key)).1).Agrees cmp (x.onPlain Compare t).1 :=
    fun x => KeyOp.agrees_onPlain Compare (h.keyOp Compare x).1
  cases op with
  | lookUp key value => exact ⟨hkey (.lookUp key value), h⟩
  | contain key => exact ⟨hkey (.contain key), h⟩
  | insert key value =>
    exact ⟨hkey (.insert key value), (h.keyOp Compare (.insert key value)).2⟩
  | update key value =>
    exact ⟨hkey (.update key value), (h.keyOp Compare (.update key value)).2⟩
  | delete key => exact ⟨hkey (.delete key), (h.keyOp Compare (.delete key)).2⟩
  | getAllKey list =>
    have hp := pairs_perm h
    rw [← getAllKey_eq_pairs m list] at hp
    exact ⟨.list hp (distinctKeys_of_perm hp), h⟩
  | insertKeyBatch list =>
    refine ⟨.void, ?_⟩
    simp only [call, plainCall, insertKeyBatch_eq]
    exact h.batch Compare _
  | updateKeyBatch list =>
    refine ⟨.void, ?_⟩
    simp only [call, plainCall, updateKeyBatch_eq]
    exact h.batch Compare _
  | removeKeyBatch list =>
    refine ⟨.void, ?_⟩
    simp only [call, plainCall, removeKeyBatch_eq Compare]
    exact h.batch Compare _
  | size =>
    have hsize : m.size = t.size := by
      rw [size_eq_length_pairs, (pairs_perm h).length_eq, TreeMap.length_toList]
    refine ⟨?_, h⟩
    simp only [call, plainCall, hsize]
    exact .size _
  | clear => exact ⟨.void, represents_clear m⟩

/-- **Any sequence of calls**, by induction on it. -/
theorem calls_agree_from (h : Represents m t) (ops : List (Op K V)) :
    List.Forall₂ (Ret.Agrees cmp) (m.calls Compare ops).1 (plainCalls Compare t ops).1 ∧
      Represents (m.calls Compare ops).2 (plainCalls Compare t ops).2 := by
  induction ops generalizing m t with
  | nil => exact ⟨.nil, h⟩
  | cons op ops ih =>
    obtain ⟨hret, hrep⟩ := call_agrees Compare h op
    obtain ⟨hrets, hend⟩ := ih hrep
    exact ⟨.cons hret hrets, hend⟩

end Call

/-- **`ConcurrentMap` refines one plain map.** From the constructor on, whatever one client
calls, it is answered as a single unsharded map would answer, and the bindings at the end are
that map's. -/
theorem calls_agree [TransCmp cmp] (L : Layout K cmp) (ops : List (Op K V)) :
    List.Forall₂ (Ret.Agrees cmp) ((empty L).calls Compare ops).1
        (plainCalls Compare (∅ : TreeMap K V cmp) ops).1 ∧
      ((empty L).calls Compare ops).2.pairs.Perm
        (plainCalls Compare (∅ : TreeMap K V cmp) ops).2.toList := by
  obtain ⟨hrets, hend⟩ := calls_agree_from Compare (represents_empty L) ops
  exact ⟨hrets, pairs_perm hend⟩

/-- Two buckets, the even keys in one and the odd keys in the other. -/
def evenOdd : Layout Nat compare where
  bucketNums := 2
  bucketNums_pos := by decide
  hasher := id
  hasher_congr := fun _ _ h => Nat.compare_eq_eq.mp h

/-- A batch over both buckets with a key repeated in it, read back through a list that held
something else. -/
theorem calls_agree_evenOdd :
    ((empty evenOdd).calls (fun a b : Nat => a < b)
        [.insert 1 10, .insertKeyBatch [(1, 7), (2, 2), (3, 4), (2, 9), (2, 1)], .lookUp 2 0,
          .update 4 4, .delete 3, .getAllKey [(8, 8)], .size]).1
        = [.bool true, .void, .looked true 1, .bool false, .bool true, .list [(2, 1), (1, 7)],
          .size 2] ∧
      List.Forall₂ (Ret.Agrees compare)
        ((empty evenOdd).calls (fun a b : Nat => a < b)
          [.insert 1 10, .insertKeyBatch [(1, 7), (2, 2), (3, 4), (2, 9), (2, 1)], .lookUp 2 0,
            .update 4 4, .delete 3, .getAllKey [(8, 8)], .size]).1
        (plainCalls (fun a b : Nat => a < b) (∅ : TreeMap Nat Nat compare)
          [.insert 1 10, .insertKeyBatch [(1, 7), (2, 2), (3, 4), (2, 9), (2, 1)], .lookUp 2 0,
            .update 4 4, .delete 3, .getAllKey [(8, 8)], .size]).1 :=
  ⟨by decide, (calls_agree (fun a b : Nat => a < b) evenOdd _).1⟩

end ConcurrentMap

end CppDone
