import CppDone.ConcurrentMap.Clients

/-!
# The members of a bucket, access by access

A section of `Clients` is the body of one of the bucket's members, which goes through the tree in
several accesses: the `find`, the value behind its iterator, `erase` and `insert` each on their own,
a batch one element after the other and `GetAllKey` one pair after the other. An iterator is the
key or the place it stands at, so that a pair erased meanwhile, or a tree that changed under the
loop, would show.

What the rest of a body comes to, if nobody else touches the bucket, is `whole`. No access changes
it, which is all there is to prove about a body.

The lock is taken before the first access and given back after the last, so a body says nothing of
it but its mode (`shared`), which is the member's and not that of the next access: a batch that has
nothing for a bucket takes the `write_lock` of it all the same.
-/

set_option autoImplicit false

namespace CppDone.ConcurrentMap

open Std

variable {K V : Type} {cmp : K → K → Ordering}

/-- Where a client is in the body of a bucket's member. Between two accesses the client has the
lock, so what it has found is still there at the next one. -/
inductive Body (K V : Type) where
  | lookup (key : K) (value : V)
  | deref (key : K) (value : V)  -- at `value = (*find).second`
  | contain (key : K)
  /-- In `InsertWithoutLock` or `UpdateWithoutLock`; `rest` is what is left of a batch. -/
  | find (bindAbsent : Bool) (key : K) (value : V) (rest : Option (List (K × V)))
  | compare (bindAbsent : Bool) (key : K) (value : V) (rest : Option (List (K × V)))
  | erase (bindAbsent : Bool) (key : K) (value : V) (rest : Option (List (K × V)))
  | insert (bindAbsent : Bool) (key : K) (value : V) (rest : Option (List (K × V)))
  | findRemoved (key : K) (rest : List K)  -- in `RemoveWithoutLock`
  | remove (key : K) (rest : List K)  -- at its `erase`
  | pair (n : Nat)  -- in `GetAllKey`, with the iterator at the `n`-th pair
  | size
  | clear
  | done (shared : Bool)  -- at the end of the lock it holds
  deriving Repr, DecidableEq

namespace Body

/-- At the head of the loop of a batch of writes. -/
def writes (bindAbsent : Bool) : List (K × V) → Body K V
  | [] => .done false
  | kv :: rest => .find bindAbsent kv.1 kv.2 (some rest)

def removes : List K → Body K V
  | [] => .done false
  | key :: rest => .findRemoved key rest

/-- Behind a write that returned `ret`: a batch goes on, a single call has its answer. -/
def written (bindAbsent : Bool) (rest : Option (List (K × V))) (ret : Bool) (acc : Ret K V) :
    Body K V × Ret K V :=
  match rest with
  | none => (.done false, .bool ret)
  | some list => (writes bindAbsent list, acc)

/-- Pairs pushed to the list that `GetAllKey` is given. -/
def pushBack (pairs : List (K × V)) : Ret K V → Ret K V
  | .list list => .list (list ++ pairs)
  | acc => acc

/-- Whether the lock is a `read_lock`. -/
def shared : Body K V → Bool
  | .lookup _ _ | .deref _ _ | .contain _ | .pair _ | .size => true
  | .done shared => shared
  | .find _ _ _ _ | .compare _ _ _ _ | .erase _ _ _ _ | .insert _ _ _ _ | .findRemoved _ _
  | .remove _ _ | .clear => false

variable (Compare : V → V → Bool)

/-! ### One access

An access looks at the bucket once, or writes to it once. What it has found decides with which
access the body goes on; a value that it returns is kept beside the body until the end. -/

/-- The next access to the tree. The second component is what the call will return. -/
def access : Body K V × Ret K V → ConcurrentBucket K V cmp →
    Option ((Body K V × Ret K V) × ConcurrentBucket K V cmp)
  | (.lookup key value, acc), b =>
    match b.map_[key]? with
    | some _ => some ((.deref key value, acc), b)
    | none => some ((.done true, .looked false value), b)
  | (.deref key value, _), b => some ((.done true, .looked true (b.map_[key]?.getD value)), b)
  | (.contain key, _), b => some ((.done true, .bool (b.map_.contains key)), b)
  | (.find bindAbsent key value rest, acc), b =>
    match b.map_[key]? with
    | some _ => some ((.compare bindAbsent key value rest, acc), b)
    | none =>
      if bindAbsent then some ((.insert bindAbsent key value rest, acc), b)
      else some (written bindAbsent rest false acc, b)
  | (.compare bindAbsent key value rest, acc), b =>
    match b.map_[key]? with
    | some held =>
      if Compare value held then some ((.erase bindAbsent key value rest, acc), b)
      else some (written bindAbsent rest false acc, b)
    | none => some (written bindAbsent rest false acc, b)  -- not with the lock held
  | (.erase bindAbsent key value rest, acc), b =>
    some ((.insert bindAbsent key value rest, acc), ⟨b.map_.erase key⟩)
  | (.insert bindAbsent key value rest, acc), b =>
    some (written bindAbsent rest true acc, ⟨b.map_.insertIfNew key value⟩)
  | (.findRemoved key rest, acc), b =>
    if b.map_.contains key then some ((.remove key rest, acc), b)
    else some ((removes rest, acc), b)
  | (.remove key rest, acc), b => some ((removes rest, acc), ⟨b.map_.erase key⟩)
  | (.pair n, acc), b =>
    match b.map_.toList[n]? with
    | some kv => some ((.pair (n + 1), pushBack [kv] acc), b)
    | none => some ((.done true, acc), b)
  | (.size, acc), b =>
    match acc with
    | .size total => some ((.done true, .size (total + b.map_.size)), b)
    | acc => some ((.done true, acc), b)
  | (.clear, acc), b => some ((.done false, acc), b.clear)
  | (.done _, _), _ => none

/-! ### The rest of a section

What a body comes to from where it is, if nobody else comes in between. It is said with the members
of `ConcurrentBucket`, so at the beginning of a section it is the section. -/

/-- What is left of a batch of writes. -/
def writeAll (bindAbsent : Bool) (b : ConcurrentBucket K V cmp) (list : List (K × V)) :
    ConcurrentBucket K V cmp :=
  list.foldl (fun b kv => (b.writeWithoutLock Compare bindAbsent kv.1 kv.2).2) b

/-- What comes of a write, with what is left of its batch. -/
def afterWrite (bindAbsent : Bool) (rest : Option (List (K × V))) (acc : Ret K V)
    (r : Bool × ConcurrentBucket K V cmp) : (Body K V × Ret K V) × ConcurrentBucket K V cmp :=
  match rest with
  | none => ((.done false, .bool r.1), r.2)
  | some list => ((.done false, acc), writeAll Compare bindAbsent r.2 list)

/-- What the rest of a body comes to. -/
def whole : Body K V × Ret K V → ConcurrentBucket K V cmp →
    (Body K V × Ret K V) × ConcurrentBucket K V cmp
  | (.lookup key value, _), b =>
    let r := b.lookup key value
    ((.done true, .looked r.1 r.2), b)
  | (.deref key value, _), b => ((.done true, .looked true (b.map_[key]?.getD value)), b)
  | (.contain key, _), b => ((.done true, .bool (b.contain key)), b)
  | (.find bindAbsent key value rest, acc), b =>
    afterWrite Compare bindAbsent rest acc (b.writeWithoutLock Compare bindAbsent key value)
  | (.compare bindAbsent key value rest, acc), b =>
    afterWrite Compare bindAbsent rest acc (b.writeWithoutLock Compare false key value)
  | (.erase bindAbsent key value rest, acc), b =>
    afterWrite Compare bindAbsent rest acc (true, ⟨(b.map_.erase key).insertIfNew key value⟩)
  | (.insert bindAbsent key value rest, acc), b =>
    afterWrite Compare bindAbsent rest acc (true, ⟨b.map_.insertIfNew key value⟩)
  | (.findRemoved key rest, acc), b =>
    ((.done false, acc), (b.removeWithoutLock key).removeKeyBatch rest)
  | (.remove key rest, acc), b =>
    ((.done false, acc), ConcurrentBucket.removeKeyBatch ⟨b.map_.erase key⟩ rest)
  | (.pair n, acc), b => ((.done true, pushBack (b.map_.toList.drop n) acc), b)
  | (.size, acc), b =>
    match acc with
    | .size total => ((.done true, .size (total + b.size)), b)
    | acc => ((.done true, acc), b)
  | (.clear, acc), b => ((.done false, acc), b.clear)
  | (.done shared, acc), b => ((.done shared, acc), b)

/-- How many accesses are left at most. -/
def left : Body K V → ConcurrentBucket K V cmp → Nat
  | .lookup _ _, _ => 2
  | .deref _ _, _ | .contain _, _ | .size, _ | .clear, _ => 1
  | .find _ _ _ rest, _ => 4 * (rest.getD []).length + 4
  | .compare _ _ _ rest, _ => 4 * (rest.getD []).length + 3
  | .erase _ _ _ rest, _ => 4 * (rest.getD []).length + 2
  | .insert _ _ _ rest, _ => 4 * (rest.getD []).length + 1
  | .findRemoved _ rest, _ => 2 * rest.length + 2
  | .remove _ rest, _ => 2 * rest.length + 1
  | .pair n, b => b.map_.toList.length - n + 1
  | .done _, _ => 0

/-! ## The laws of the bodies

What `Sections` asks of a code: that its accesses come to an end, that they come to what the section
does as a whole, and that behind a shared lock nothing is written. -/

variable {Compare} {l l' : Body K V × Ret K V} {b b' : ConcurrentBucket K V cmp}

/-- Behind a write there is the end of the section, or the next item of its batch. -/
theorem whole_written (bindAbsent : Bool) (rest : Option (List (K × V))) (ret : Bool)
    (acc : Ret K V) : whole Compare (written bindAbsent rest ret acc) b =
      afterWrite Compare bindAbsent rest acc (ret, b) := by
  cases rest with
  | none => rfl
  | some list =>
    cases list with
    | nil => rfl
    | cons kv list => rfl

/-- A batch of removals has no value, and what is left of it is a batch. -/
theorem whole_removes (rest : List K) (acc : Ret K V) :
    whole Compare (removes rest, acc) b = ((.done false, acc), b.removeKeyBatch rest) := by
  cases rest with
  | nil => rfl
  | cons key rest => rfl

theorem pushBack_nil (acc : Ret K V) : pushBack [] acc = acc := by
  cases acc with
  | list list => exact congrArg Ret.list (List.append_nil list)
  | _ => rfl

/-- What was found in two goes is put behind each other. -/
theorem pushBack_append (pairs pairs' : List (K × V)) (acc : Ret K V) :
    pushBack (pairs ++ pairs') acc = pushBack pairs' (pushBack pairs acc) := by
  cases acc with
  | list list => exact congrArg Ret.list (List.append_assoc list pairs pairs').symm
  | _ => rfl

/-- One access taken away from the front: what the rest of the section comes to, from what this
access has left, is what the whole of it comes to. Each case is one line of the source, with the
branch that the access takes. -/
theorem whole_access (h : access Compare l b = some (l', b')) :
    whole Compare l b = whole Compare l' b' := by
  obtain ⟨body, acc⟩ := l
  cases body with
  | lookup key value =>
    unfold access at h
    unfold whole ConcurrentBucket.lookup
    dsimp only at h ⊢
    -- found: the value is read through the iterator, by an access of its own
    cases hv : b.map_[key]? with
    | some v =>
      rw [hv] at h
      obtain ⟨rfl, rfl⟩ := Prod.mk.inj (Option.some.inj h)
      simp only [hv, Option.getD_some]
    | none =>
      rw [hv] at h
      obtain ⟨rfl, rfl⟩ := Prod.mk.inj (Option.some.inj h)
      rfl
  | find bindAbsent key value rest =>
    unfold access at h
    dsimp only at h
    split at h
    · next held hv =>
      obtain ⟨rfl, rfl⟩ := Prod.mk.inj (Option.some.inj h)
      unfold whole ConcurrentBucket.writeWithoutLock
      simp only [hv]
    · next hv =>
      -- the key is absent: what is left is the insertion, or the next item of the batch
      have hwrite : b.writeWithoutLock Compare bindAbsent key value =
          if bindAbsent then (true, ⟨b.map_.insertIfNew key value⟩) else (false, b) := by
        unfold ConcurrentBucket.writeWithoutLock
        simp only [hv]
      split at h
      · next hbind =>
        obtain ⟨rfl, rfl⟩ := Prod.mk.inj (Option.some.inj h)
        unfold whole
        dsimp only
        rw [hwrite, if_pos hbind]
      · next hbind =>
        obtain ⟨rfl, rfl⟩ := Prod.mk.inj (Option.some.inj h)
        rw [whole_written]
        unfold whole
        dsimp only
        rw [hwrite, if_neg hbind]
  | compare bindAbsent key value rest =>
    unfold access at h
    dsimp only at h
    split at h
    · next held hv =>
      -- `compare` is reached with the key found, where it no longer matters what an absent key does
      have hwrite : b.writeWithoutLock Compare false key value =
          if Compare value held then (true, ⟨(b.map_.erase key).insertIfNew key value⟩)
          else (false, b) := by
        unfold ConcurrentBucket.writeWithoutLock
        simp only [hv]
      split at h
      · next hbetter =>
        obtain ⟨rfl, rfl⟩ := Prod.mk.inj (Option.some.inj h)
        unfold whole
        dsimp only
        rw [hwrite, if_pos hbetter]
      · next hworse =>
        obtain ⟨rfl, rfl⟩ := Prod.mk.inj (Option.some.inj h)
        rw [whole_written]
        unfold whole
        dsimp only
        rw [hwrite, if_neg hworse]
    · next hv =>
      obtain ⟨rfl, rfl⟩ := Prod.mk.inj (Option.some.inj h)
      rw [whole_written]
      unfold whole ConcurrentBucket.writeWithoutLock
      simp only [hv, Bool.false_eq_true, if_false]
  | insert bindAbsent key value rest =>
    obtain ⟨rfl, rfl⟩ := Prod.mk.inj (Option.some.inj h)
    rw [whole_written]
    rfl
  | findRemoved key rest =>
    unfold access at h
    dsimp only at h
    split at h
    · next hfound =>
      obtain ⟨rfl, rfl⟩ := Prod.mk.inj (Option.some.inj h)
      unfold whole ConcurrentBucket.removeWithoutLock
      dsimp only
      rw [if_pos hfound]
    · next habsent =>
      obtain ⟨rfl, rfl⟩ := Prod.mk.inj (Option.some.inj h)
      rw [whole_removes]
      unfold whole ConcurrentBucket.removeWithoutLock
      dsimp only
      rw [if_neg habsent]
  | remove key rest =>
    obtain ⟨rfl, rfl⟩ := Prod.mk.inj (Option.some.inj h)
    rw [whole_removes]
    rfl
  | pair n =>
    unfold access at h
    dsimp only at h
    split at h
    -- the iterator is at a pair, or at `end()`
    · next kv hkv =>
      obtain ⟨rfl, rfl⟩ := Prod.mk.inj (Option.some.inj h)
      unfold whole
      dsimp only
      rw [List.drop_eq_getElem?_toList_append, hkv, Option.toList_some, pushBack_append]
    · next hend =>
      obtain ⟨rfl, rfl⟩ := Prod.mk.inj (Option.some.inj h)
      unfold whole
      dsimp only
      rw [List.drop_eq_nil_of_le (List.getElem?_eq_none_iff.mp hend), pushBack_nil]
  | size =>
    cases acc <;> obtain ⟨rfl, rfl⟩ := Prod.mk.inj (Option.some.inj h) <;> rfl
  | deref | contain | erase | clear =>
    obtain ⟨rfl, rfl⟩ := Prod.mk.inj (Option.some.inj h)
    rfl
  | done => cases h

/-- No access is left, so the section is what it has come to. -/
theorem whole_end (h : access Compare l b = none) : whole Compare l b = (l, b) := by
  obtain ⟨body, acc⟩ := l
  cases body with
  | done => rfl
  | lookup key value | findRemoved key rest | pair n =>
    unfold access at h
    dsimp only at h
    split at h
    · cases h
    · cases h
  | find bindAbsent key value rest =>
    unfold access at h
    dsimp only at h
    split at h
    · cases h
    · split at h
      · cases h
      · cases h
  | compare bindAbsent key value rest =>
    unfold access at h
    dsimp only at h
    split at h
    · split at h
      · cases h
      · cases h
    · cases h
  | size => cases acc <;> cases h
  | deref | contain | erase | insert | remove | clear => cases h

/-! ### An end

How many accesses there can be still. A traversal reads the bucket pair by pair, so its length is
that of the bucket, which is why the measure takes the bucket too. -/

/-- The next item of a batch begins with four accesses at most: a search, a comparison, an erasure
and an insertion. -/
theorem left_written (bindAbsent : Bool) (rest : Option (List (K × V))) (ret : Bool)
    (acc : Ret K V) : (written bindAbsent rest ret acc).1.left b ≤ 4 * (rest.getD []).length := by
  cases rest with
  | none => exact Nat.le_refl _
  | some list =>
    cases list with
    | nil => exact Nat.le_refl _
    | cons kv list => exact Nat.le_refl _

theorem left_removes (rest : List K) : (removes rest : Body K V).left b ≤ 2 * rest.length := by
  cases rest with
  | nil => exact Nat.le_refl _
  | cons key rest => exact Nat.le_refl _

/-- **Every access brings a body nearer to its end**, whatever it finds. -/
theorem left_access (h : access Compare l b = some (l', b')) : l'.1.left b' < l.1.left b := by
  obtain ⟨body, acc⟩ := l
  cases body with
  | lookup key value =>
    unfold access at h
    dsimp only at h
    split at h
    · obtain ⟨rfl, rfl⟩ := Prod.mk.inj (Option.some.inj h)
      exact Nat.lt_succ_self 1
    · obtain ⟨rfl, rfl⟩ := Prod.mk.inj (Option.some.inj h)
      exact Nat.succ_pos 1
  | find bindAbsent key value rest =>
    unfold access at h
    dsimp only at h
    -- a refused write goes on with the batch, and each item is worth four accesses at most
    have hwritten := left_written (b := b) bindAbsent rest false acc
    split at h
    · obtain ⟨rfl, rfl⟩ := Prod.mk.inj (Option.some.inj h)
      exact Nat.lt_succ_self _
    · split at h
      · obtain ⟨rfl, rfl⟩ := Prod.mk.inj (Option.some.inj h)
        exact Nat.add_lt_add_left (by decide) _
      · obtain ⟨rfl, rfl⟩ := Prod.mk.inj (Option.some.inj h)
        exact Nat.lt_of_le_of_lt hwritten (Nat.lt_add_of_pos_right (by decide))
  | compare bindAbsent key value rest =>
    unfold access at h
    dsimp only at h
    have hwritten := left_written (b := b) bindAbsent rest false acc
    split at h
    · split at h
      · obtain ⟨rfl, rfl⟩ := Prod.mk.inj (Option.some.inj h)
        exact Nat.lt_succ_self _
      · obtain ⟨rfl, rfl⟩ := Prod.mk.inj (Option.some.inj h)
        exact Nat.lt_of_le_of_lt hwritten (Nat.lt_add_of_pos_right (by decide))
    · obtain ⟨rfl, rfl⟩ := Prod.mk.inj (Option.some.inj h)
      exact Nat.lt_of_le_of_lt hwritten (Nat.lt_add_of_pos_right (by decide))
  | erase bindAbsent key value rest =>
    obtain ⟨rfl, rfl⟩ := Prod.mk.inj (Option.some.inj h)
    exact Nat.lt_succ_self _
  | insert bindAbsent key value rest =>
    obtain ⟨rfl, rfl⟩ := Prod.mk.inj (Option.some.inj h)
    exact Nat.lt_succ_of_le (left_written bindAbsent rest true acc)
  | findRemoved key rest =>
    unfold access at h
    dsimp only at h
    split at h
    · obtain ⟨rfl, rfl⟩ := Prod.mk.inj (Option.some.inj h)
      exact Nat.lt_succ_self _
    · obtain ⟨rfl, rfl⟩ := Prod.mk.inj (Option.some.inj h)
      exact Nat.lt_of_le_of_lt (left_removes rest) (Nat.lt_add_of_pos_right (by decide))
  | remove key rest =>
    obtain ⟨rfl, rfl⟩ := Prod.mk.inj (Option.some.inj h)
    exact Nat.lt_succ_of_le (left_removes rest)
  | pair n =>
    unfold access at h
    dsimp only at h
    split at h
    · next kv hkv =>
      obtain ⟨rfl, rfl⟩ := Prod.mk.inj (Option.some.inj h)
      -- the pairs behind the iterator grow fewer, since no one else inserts meanwhile
      obtain ⟨hlt, -⟩ := List.getElem?_eq_some_iff.mp hkv
      show b.map_.toList.length - (n + 1) + 1 < b.map_.toList.length - n + 1
      omega
    · obtain ⟨rfl, rfl⟩ := Prod.mk.inj (Option.some.inj h)
      exact Nat.succ_pos _
  | size =>
    cases acc <;> obtain ⟨rfl, rfl⟩ := Prod.mk.inj (Option.some.inj h) <;> exact Nat.one_pos
  | deref | contain | clear =>
    obtain ⟨rfl, rfl⟩ := Prod.mk.inj (Option.some.inj h)
    exact Nat.one_pos
  | done => cases h

/-! ### What is not written

A section under a shared lock runs beside others of its kind. So it has to leave the bucket as it is
at each of its accesses, and not only in the end. -/

/-- Behind a `read_lock` nothing is written. -/
theorem shared_access (hshared : l.1.shared = true) (h : access Compare l b = some (l', b')) :
    b' = b ∧ l'.1.shared = true := by
  obtain ⟨body, acc⟩ := l
  -- the accesses of a reader only look, and each leads to another one of a reader
  cases body with
  | lookup key value | pair n =>
    unfold access at h
    dsimp only at h
    split at h
    · obtain ⟨rfl, rfl⟩ := Prod.mk.inj (Option.some.inj h)
      exact ⟨rfl, rfl⟩
    · obtain ⟨rfl, rfl⟩ := Prod.mk.inj (Option.some.inj h)
      exact ⟨rfl, rfl⟩
  | deref | contain =>
    obtain ⟨rfl, rfl⟩ := Prod.mk.inj (Option.some.inj h)
    exact ⟨rfl, rfl⟩
  | size =>
    cases acc <;> obtain ⟨rfl, rfl⟩ := Prod.mk.inj (Option.some.inj h) <;> exact ⟨rfl, rfl⟩
  | done => cases h
  | find | compare | erase | insert | findRemoved | remove | clear => cases hshared

end Body

/-- Where a section begins. -/
def Section.body : Section K V → Body K V
  | .lookup key value => .lookup key value
  | .contain key => .contain key
  | .insert key value => .find true key value none
  | .update key value => .find false key value none
  | .remove key => .findRemoved key []
  | .insertKeyBatch list => .writes true list
  | .updateKeyBatch list => .writes false list
  | .removeKeyBatch list => .removes list
  | .getAllKey => .pair 0
  | .size => .size
  | .clear => .clear

/-- Whether the member takes a `read_lock`. -/
def Section.shared : Section K V → Bool
  | .lookup _ _ | .contain _ | .getAllKey | .size => true
  | .insert _ _ | .update _ _ | .remove _ | .insertKeyBatch _ | .updateKeyBatch _
  | .removeKeyBatch _ | .clear => false

/-- A section begins with its member's lock, an empty batch too. -/
theorem shared_body (sec : Section K V) : sec.body.shared = sec.shared := by
  cases sec with
  | insertKeyBatch list | updateKeyBatch list | removeKeyBatch list => cases list <;> rfl
  | _ => rfl

/-- **The accesses of a section come to what it does as one step.** -/
theorem whole_body (Compare : V → V → Bool) (sec : Section K V) (acc : Ret K V)
    (b : ConcurrentBucket K V cmp) :
    Body.whole Compare (sec.body, acc) b =
      ((.done sec.shared, (sec.enter Compare acc b).1), (sec.enter Compare acc b).2) := by
  cases sec with
  | insertKeyBatch list => cases list <;> rfl
  | updateKeyBatch list => cases list <;> rfl
  | removeKeyBatch list => cases list <;> rfl
  | getAllKey => cases acc <;> rfl
  | size => cases acc <;> rfl
  | _ => rfl

end CppDone.ConcurrentMap
