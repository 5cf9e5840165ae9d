import CppDone.ConcurrentMap.Bucket

/-!
# `ConcurrentMap`: a vector of buckets behind a hash

The members of the source's class, one definition each, as one client alone runs them. A
single-key member works in the bucket `GetBucket` selects; `GetAllKey`, `Size`, `Clear` and the
batch members loop over all buckets, the batch members after dealing their list out into one
list per bucket.

`Layout` is what the constructor fixes for the lifetime of the map. Its fields carry the two
things the constructor's caller promises: there is a bucket, and the hash does not tell apart
two keys that the `std::map`s do not tell apart.

The buckets are not reached but through these members, so whatever is said of the map later on is
said of `buckets_`, bucket by bucket (`buckets_forBuckets`).
-/

set_option autoImplicit false

namespace CppDone

open Std

namespace ConcurrentMap

/-- The constructor's arguments. That equivalent keys have one hash is what `std::hash` and the
order of the map have to see to between them. -/
structure Layout (K : Type) (cmp : K → K → Ordering) where
  bucketNums : Nat
  bucketNums_pos : 0 < bucketNums
  hasher : K → Nat
  hasher_congr : ∀ a b, cmp a b = .eq → hasher a = hasher b

/-- What a member returns to its caller. A list that the caller has given is returned as it is then.
-/
inductive Ret (K V : Type) where
  | void
  | bool (ret : Bool)
  /-- `LookUp`: the returned flag and the caller's variable afterwards. -/
  | looked (ret : Bool) (value : V)
  | size (total : Nat)
  | list (list : List (K × V))
  deriving Repr, DecidableEq

/-- A call of a public member, with its arguments. -/
inductive Op (K V : Type) where
  | lookUp (key : K) (value : V)
  | contain (key : K)
  | insert (key : K) (value : V)
  | update (key : K) (value : V)
  | delete (key : K)
  | getAllKey (list : List (K × V))
  | insertKeyBatch (list : List (K × V))
  | updateKeyBatch (list : List (K × V))
  | removeKeyBatch (list : List K)
  | size
  | clear
  deriving Repr, DecidableEq

variable {K V : Type} {cmp : K → K → Ordering}

namespace Layout

/-- `hasher_(key) % buckets_.size()` -/
def bucketIndex (L : Layout K cmp) (key : K) : Fin L.bucketNums :=
  ⟨L.hasher key % L.bucketNums, Nat.mod_lt _ L.bucketNums_pos⟩

theorem bucketIndex_congr (L : Layout K cmp) (a b : K) (h : cmp a b = .eq) :
    L.bucketIndex a = L.bucketIndex b := by
  simp only [bucketIndex, L.hasher_congr a b h]

/-- The loop that opens every batch member: each item is pushed to the list of its bucket. -/
def lists {ι : Type} (L : Layout K cmp) (keyOf : ι → K) (list : List ι) :
    Fin L.bucketNums → List ι :=
  list.foldl
    (fun lists item =>
      Function.update lists (L.bucketIndex (keyOf item))
        (lists (L.bucketIndex (keyOf item)) ++ [item]))
    fun _ => []

theorem lists_eq_filter {ι : Type} (L : Layout K cmp) (keyOf : ι → K) (list : List ι)
    (i : Fin L.bucketNums) :
    L.lists keyOf list i = list.filter fun item => L.bucketIndex (keyOf item) == i := by
  -- the accumulator holds what the items seen so far put there
  suffices h : ∀ (list : List ι) (acc : Fin L.bucketNums → List ι),
      list.foldl
        (fun lists item =>
          Function.update lists (L.bucketIndex (keyOf item))
            (lists (L.bucketIndex (keyOf item)) ++ [item])) acc i
        = acc i ++ list.filter fun item => L.bucketIndex (keyOf item) == i by
    simpa [lists] using h list fun _ => []
  intro list
  induction list with
  | nil => simp
  | cons item list ih =>
    intro acc
    rw [List.foldl_cons, ih]
    by_cases hi : L.bucketIndex (keyOf item) = i
    · subst hi; simp
    · simp [hi, Function.update_of_ne (Ne.symm hi)]

end Layout

end ConcurrentMap

/-- The buckets; the hash and their number are in the layout. -/
structure ConcurrentMap {K : Type} {cmp : K → K → Ordering} (V : Type)
    (L : ConcurrentMap.Layout K cmp) where
  buckets_ : Fin L.bucketNums → ConcurrentBucket K V cmp

namespace ConcurrentMap

variable {K V : Type} {cmp : K → K → Ordering} {L : Layout K cmp}

def empty (L : Layout K cmp) : ConcurrentMap V L := ⟨fun _ => .empty⟩

def getBucket (m : ConcurrentMap V L) (key : K) : ConcurrentBucket K V cmp :=
  m.buckets_ (L.bucketIndex key)

/-- The map after bucket `i` has become `b`. -/
def setBucket (m : ConcurrentMap V L) (i : Fin L.bucketNums) (b : ConcurrentBucket K V cmp) :
    ConcurrentMap V L :=
  ⟨Function.update m.buckets_ i b⟩

/-- `for (bucket_index = 0; bucket_index < buckets_.size(); ++bucket_index)` over a member `f` of
the buckets. -/
def forBuckets (m : ConcurrentMap V L)
    (f : Fin L.bucketNums → ConcurrentBucket K V cmp → ConcurrentBucket K V cmp) :
    ConcurrentMap V L :=
  (List.finRange L.bucketNums).foldl (fun m i => m.setBucket i (f i (m.buckets_ i))) m

theorem buckets_setBucket (m : ConcurrentMap V L) (i j : Fin L.bucketNums)
    (b : ConcurrentBucket K V cmp) :
    (m.setBucket i b).buckets_ j = if j = i then b else m.buckets_ j := by
  simp [setBucket, Function.update_apply]

theorem buckets_foldl_setBucket
    (f : Fin L.bucketNums → ConcurrentBucket K V cmp → ConcurrentBucket K V cmp)
    {is : List (Fin L.bucketNums)} (hn : is.Nodup) (m : ConcurrentMap V L)
    (j : Fin L.bucketNums) :
    (is.foldl (fun m i => m.setBucket i (f i (m.buckets_ i))) m).buckets_ j
      = if j ∈ is then f j (m.buckets_ j) else m.buckets_ j := by
  induction is generalizing m with
  | nil => simp
  | cons i is ih =>
    obtain ⟨hi, hn⟩ := List.nodup_cons.mp hn
    rw [List.foldl_cons, ih hn, buckets_setBucket]
    -- each bucket is visited once, so the value a turn reads is the one from before the loop
    by_cases hj : j = i
    · subst hj; simp [hi]
    · simp [hj]

@[simp] theorem buckets_forBuckets (m : ConcurrentMap V L)
    (f : Fin L.bucketNums → ConcurrentBucket K V cmp → ConcurrentBucket K V cmp)
    (j : Fin L.bucketNums) : (m.forBuckets f).buckets_ j = f j (m.buckets_ j) := by
  rw [forBuckets, buckets_foldl_setBucket f (List.nodup_finRange _), if_pos (List.mem_finRange j)]

/-! ### The members

In the order of the header. A member about one key goes to its bucket; the others go through all
buckets, from the first to the last, and a batch brings to each bucket the items that belong to it.
-/

def lookUp (m : ConcurrentMap V L) (key : K) (value : V) : Bool × V :=
  (m.getBucket key).lookup key value

def contain (m : ConcurrentMap V L) (key : K) : Bool := (m.getBucket key).contain key

/-- The caller's list is cleared before the first bucket appends to it. -/
def getAllKey (m : ConcurrentMap V L) (_list : List (K × V)) : List (K × V) :=
  (List.finRange L.bucketNums).foldl (fun list i => (m.buckets_ i).getAllKey list) []

def size (m : ConcurrentMap V L) : Nat :=
  (List.finRange L.bucketNums).foldl (fun total i => total + (m.buckets_ i).size) 0

def clear (m : ConcurrentMap V L) : ConcurrentMap V L := m.forBuckets fun _ b => b.clear

/-- Always answers `true`. -/
def delete (m : ConcurrentMap V L) (key : K) : Bool × ConcurrentMap V L :=
  (true, m.setBucket (L.bucketIndex key) ((m.getBucket key).remove key))

/-- Every bucket is entered, those with an empty list too. -/
def removeKeyBatch (m : ConcurrentMap V L) (list : List K) : ConcurrentMap V L :=
  m.forBuckets fun i b => b.removeKeyBatch (L.lists id list i)

variable (Compare : V → V → Bool)

def insert (m : ConcurrentMap V L) (key : K) (value : V) : Bool × ConcurrentMap V L :=
  let r := (m.getBucket key).insert Compare key value
  (r.1, m.setBucket (L.bucketIndex key) r.2)

def update (m : ConcurrentMap V L) (key : K) (value : V) : Bool × ConcurrentMap V L :=
  let r := (m.getBucket key).update Compare key value
  (r.1, m.setBucket (L.bucketIndex key) r.2)

def insertKeyBatch (m : ConcurrentMap V L) (list : List (K × V)) : ConcurrentMap V L :=
  m.forBuckets fun i b => b.insertKeyBatch Compare (L.lists Prod.fst list i)

def updateKeyBatch (m : ConcurrentMap V L) (list : List (K × V)) : ConcurrentMap V L :=
  m.forBuckets fun i b => b.updateKeyBatch Compare (L.lists Prod.fst list i)

/-- One call of one client, nobody else at work. -/
def call (m : ConcurrentMap V L) : Op K V → Ret K V × ConcurrentMap V L
  | .lookUp key value => let r := m.lookUp key value; (.looked r.1 r.2, m)
  | .contain key => (.bool (m.contain key), m)
  | .insert key value => let r := m.insert Compare key value; (.bool r.1, r.2)
  | .update key value => let r := m.update Compare key value; (.bool r.1, r.2)
  | .delete key => let r := m.delete key; (.bool r.1, r.2)
  | .getAllKey list => (.list (m.getAllKey list), m)
  | .insertKeyBatch list => (.void, m.insertKeyBatch Compare list)
  | .updateKeyBatch list => (.void, m.updateKeyBatch Compare list)
  | .removeKeyBatch list => (.void, m.removeKeyBatch list)
  | .size => (.size m.size, m)
  | .clear => (.void, m.clear)

/-- A sequence of calls: what each returned, and the map at the end. -/
def calls (m : ConcurrentMap V L) : List (Op K V) → List (Ret K V) × ConcurrentMap V L
  | [] => ([], m)
  | op :: ops =>
    let r := m.call Compare op
    let rest := r.2.calls ops
    (r.1 :: rest.1, rest.2)

end ConcurrentMap

end CppDone
