import CppDone.Lib.Machine
import CppDone.ConcurrentMap.Refine

/-!
# Many clients on one `ConcurrentMap`

A bucket's members hold the bucket's lock for their whole body, so what interleaves is *locked
sections*: one for a single-key member, one per bucket, in index order, for the members that
loop over the buckets. `Op.plan` is the list of sections a call goes through; between two of
them any other client may be scheduled. A batch deals its list out to the buckets before the
first section, on the caller's stack.

The state keeps the history, one event per step. An event's position in the history is its time,
and a call is named by the position of its `call` event.

A client is in one call at a time, as a thread is, and there may be any number of clients. A call
that returns takes its answer from the accumulator that its sections filled one after the other.
-/

set_option autoImplicit false

namespace CppDone.ConcurrentMap

variable {K V : Type} {cmp : K → K → Ordering}

/-- What is called on a bucket under its lock. A member of `ConcurrentBucket` with its arguments. -/
inductive Section (K V : Type) where
  | lookup (key : K) (value : V)
  | contain (key : K)
  | insert (key : K) (value : V)
  | update (key : K) (value : V)
  | remove (key : K)
  | insertKeyBatch (list : List (K × V))
  | updateKeyBatch (list : List (K × V))
  | removeKeyBatch (list : List K)
  | getAllKey
  | size
  | clear
  deriving Repr, DecidableEq

namespace Section

/-- The single-key operations done in the section, in order. -/
def keyOps : Section K V → List (KeyOp K V)
  | .lookup key value => [.lookUp key value]
  | .contain key => [.contain key]
  | .insert key value => [.insert key value]
  | .update key value => [.update key value]
  | .remove key => [.delete key]
  | .insertKeyBatch list => list.map fun kv => .insert kv.1 kv.2
  | .updateKeyBatch list => list.map fun kv => .update kv.1 kv.2
  | .removeKeyBatch list => list.map .delete
  | .getAllKey | .size | .clear => []

/-- The section's effect on what its call will return and on the bucket. -/
def enter (Compare : V → V → Bool) (s : Section K V) (acc : Ret K V)
    (b : ConcurrentBucket K V cmp) : Ret K V × ConcurrentBucket K V cmp :=
  match s with
  | .lookup key value => let r := b.lookup key value; (.looked r.1 r.2, b)
  | .contain key => (.bool (b.contain key), b)
  | .insert key value => let r := b.insert Compare key value; (.bool r.1, r.2)
  | .update key value => let r := b.update Compare key value; (.bool r.1, r.2)
  | .remove key => (acc, b.remove key)
  | .insertKeyBatch list => (acc, b.insertKeyBatch Compare list)
  | .updateKeyBatch list => (acc, b.updateKeyBatch Compare list)
  | .removeKeyBatch list => (acc, b.removeKeyBatch list)
  | .getAllKey =>
    match acc with
    | .list list => (.list (b.getAllKey list), b)
    | r => (r, b)
  | .size =>
    match acc with
    | .size total => (.size (total + b.size), b)
    | r => (r, b)
  | .clear => (acc, b.clear)

/-- Every section but `Clear`'s changes the bucket by its single-key operations. -/
theorem enter_snd (Compare : V → V → Bool) {s : Section K V} (hs : s ≠ .clear) (acc : Ret K V)
    (b : ConcurrentBucket K V cmp) :
    (s.enter Compare acc b).2 = sectionBucket Compare s.keyOps b := by
  cases s with
  | insertKeyBatch list =>
    rw [keyOps, sectionBucket, List.foldl_map]
    rfl
  | updateKeyBatch list =>
    rw [keyOps, sectionBucket, List.foldl_map]
    rfl
  | removeKeyBatch list =>
    rw [keyOps, sectionBucket, List.foldl_map]
    rfl
  | getAllKey => cases acc <;> rfl
  | size => cases acc <;> rfl
  | clear => exact absurd rfl hs
  | _ => rfl

end Section

namespace Op

/-- What a call holds as its answer before its first section. -/
def start : Op K V → Ret K V
  | .lookUp _ value => .looked false value
  | .contain _ | .insert _ _ | .update _ _ => .bool false
  | .delete _ => .bool true
  | .getAllKey _ => .list []
  | .size => .size 0
  | .insertKeyBatch _ | .updateKeyBatch _ | .removeKeyBatch _ | .clear => .void

/-- The loops over all buckets. -/
def eachBucket (L : Layout K cmp) (s : Fin L.bucketNums → Section K V) :
    List (Fin L.bucketNums × Section K V) :=
  (List.finRange L.bucketNums).map fun i => (i, s i)

/-- The locked sections of a call, in order. -/
def plan (L : Layout K cmp) : Op K V → List (Fin L.bucketNums × Section K V)
  | .lookUp key value => [(L.bucketIndex key, .lookup key value)]
  | .contain key => [(L.bucketIndex key, .contain key)]
  | .insert key value => [(L.bucketIndex key, .insert key value)]
  | .update key value => [(L.bucketIndex key, .update key value)]
  | .delete key => [(L.bucketIndex key, .remove key)]
  | .insertKeyBatch list => eachBucket L fun i => .insertKeyBatch (L.lists Prod.fst list i)
  | .updateKeyBatch list => eachBucket L fun i => .updateKeyBatch (L.lists Prod.fst list i)
  | .removeKeyBatch list => eachBucket L fun i => .removeKeyBatch (L.lists id list i)
  | .getAllKey _ => eachBucket L fun _ => .getAllKey
  | .size => eachBucket L fun _ => .size
  | .clear => eachBucket L fun _ => .clear

def isBatch : Op K V → Bool
  | .insertKeyBatch _ | .updateKeyBatch _ | .removeKeyBatch _ => true
  | _ => false

/-- The calls that are made of single-key operations. -/
def isKeyed : Op K V → Bool
  | .getAllKey _ | .size | .clear => false
  | _ => true

end Op

/-! ## The plan of a call

A call is a list of sections that is known when it begins: a batch deals its items out before it
enters the first bucket. What the items of one bucket are does not depend on the order in which the
buckets are entered. -/

section Plan

variable {L : Layout K cmp}

/-- A batch visits every bucket with the items that hash there. -/
theorem plan_of_isBatch {op : Op K V} (h : op.isBatch = true) :
    ∃ sec : Fin L.bucketNums → Section K V, op.plan L = Op.eachBucket L sec ∧
      ∀ i, sec i ≠ .clear ∧
        (sec i).keyOps = op.keyOps.filter fun x => L.bucketIndex x.key == i := by
  cases op with
  | insertKeyBatch list =>
    refine ⟨_, rfl, fun i => ⟨by simp, ?_⟩⟩
    rw [Section.keyOps, lists_map L Prod.fst _ fun _ => rfl, L.lists_eq_filter]
    rfl
  | updateKeyBatch list =>
    refine ⟨_, rfl, fun i => ⟨by simp, ?_⟩⟩
    rw [Section.keyOps, lists_map L Prod.fst _ fun _ => rfl, L.lists_eq_filter]
    rfl
  | removeKeyBatch list =>
    refine ⟨_, rfl, fun i => ⟨by simp, ?_⟩⟩
    rw [Section.keyOps, lists_map L id _ fun _ => rfl, L.lists_eq_filter]
    rfl
  | _ => simp [Op.isBatch] at h

/-- A single-key member visits one bucket, and brings its answer from there. -/
theorem plan_of_single {op : Op K V} (hk : op.isKeyed = true) (hb : op.isBatch = false) :
    ∃ x sec, op.keyOps = [x] ∧ op.plan L = [(L.bucketIndex x.key, sec)] ∧ sec ≠ .clear ∧
      sec.keyOps = [x] ∧
      ∀ (Compare : V → V → Bool) (b : ConcurrentBucket K V cmp),
        (sec.enter Compare op.start b).1 = (x.onBucket Compare b).1 := by
  cases op with
  | lookUp key value => exact ⟨_, _, rfl, rfl, by simp, rfl, fun _ _ => rfl⟩
  | contain key => exact ⟨_, _, rfl, rfl, by simp, rfl, fun _ _ => rfl⟩
  | insert key value => exact ⟨_, _, rfl, rfl, by simp, rfl, fun _ _ => rfl⟩
  | update key value => exact ⟨_, _, rfl, rfl, by simp, rfl, fun _ _ => rfl⟩
  | delete key => exact ⟨_, _, rfl, rfl, by simp, rfl, fun _ _ => rfl⟩
  | getAllKey | size | clear => simp [Op.isKeyed] at hk
  | insertKeyBatch | updateKeyBatch | removeKeyBatch => simp [Op.isBatch] at hb

/-- Every section of a keyed call holds only items of its own bucket. -/
theorem plan_section {op : Op K V} (hk : op.isKeyed = true) {i : Fin L.bucketNums}
    {sec : Section K V} (h : (i, sec) ∈ op.plan L) :
    sec ≠ .clear ∧ ∀ x ∈ sec.keyOps, x ∈ op.keyOps ∧ L.bucketIndex x.key = i := by
  cases hb : op.isBatch with
  | true =>
    obtain ⟨secs, hplan, hsec⟩ := plan_of_isBatch (L := L) hb
    rw [hplan, Op.eachBucket, List.mem_map] at h
    obtain ⟨j, -, hj⟩ := h
    cases hj
    refine ⟨(hsec i).1, fun x hx => ?_⟩
    rw [(hsec i).2, List.mem_filter, beq_iff_eq] at hx
    exact hx
  | false =>
    obtain ⟨x, sec', hops, hplan, hclear, hsec, -⟩ := plan_of_single (L := L) hk hb
    rw [hplan, List.mem_singleton] at h
    cases h
    exact ⟨hclear, by simp [hsec, hops]⟩

/-- Whatever the call, a section's items are items of its own bucket. -/
theorem plan_home {op : Op K V} {i : Fin L.bucketNums} {sec : Section K V}
    (h : (i, sec) ∈ op.plan L) : ∀ x ∈ sec.keyOps, L.bucketIndex x.key = i := by
  cases hk : op.isKeyed with
  | true => exact fun x hx => ((plan_section hk h).2 x hx).2
  | false =>
    cases op with
    | getAllKey | size | clear =>
      obtain ⟨j, -, hj⟩ := List.mem_map.mp h
      cases hj
      simp [Section.keyOps]
    | _ => simp [Op.isKeyed] at hk

/-- The sections of a keyed call do its single-key operations, each once. -/
theorem plan_perm {op : Op K V} (hk : op.isKeyed = true) :
    ((op.plan L).flatMap fun p => p.2.keyOps).Perm op.keyOps := by
  cases hb : op.isBatch with
  | true =>
    obtain ⟨secs, hplan, hsec⟩ := plan_of_isBatch (L := L) hb
    rw [hplan, Op.eachBucket, List.flatMap_map]
    simp only [(hsec _).2]
    exact perm_flatMap_group (fun x => L.bucketIndex x.key) op.keyOps
  | false =>
    obtain ⟨x, sec', hops, hplan, -, hsec, -⟩ := plan_of_single (L := L) hk hb
    simp [hplan, hops, hsec]

/-- At any point of a keyed call, the operations on one key are all still to come or all done in
their order. -/
theorem plan_sameKey {op : Op K V} (hk : op.isKeyed = true)
    {done todo : List (Fin L.bucketNums × Section K V)} (h : op.plan L = done ++ todo) (k : K) :
    (done.flatMap fun p => p.2.keyOps).filter (onKey cmp KeyOp.key k) = [] ∨
      (done.flatMap fun p => p.2.keyOps).filter (onKey cmp KeyOp.key k)
        = op.keyOps.filter (onKey cmp KeyOp.key k) := by
  cases hb : op.isBatch with
  | true =>
    obtain ⟨secs, hplan, hsec⟩ := plan_of_isBatch (L := L) hb
    rw [hplan, Op.eachBucket] at h
    obtain ⟨is, js, hij, rfl, -⟩ := List.map_eq_append_iff.mp h
    have hn : is.Nodup := by
      have hall := List.nodup_finRange L.bucketNums
      rw [hij] at hall
      exact hall.of_append_left
    rw [List.flatMap_map, List.filter_flatMap]
    simp only [(hsec _).2]
    -- only the bucket of `k` contributes, and it comes at most once
    clear h hij
    induction is with
    | nil => exact Or.inl rfl
    | cons i is ih =>
      obtain ⟨hi, hn⟩ := List.nodup_cons.mp hn
      rw [List.flatMap_cons]
      by_cases hik : i = L.bucketIndex k
      · have hrest : (is.flatMap fun j =>
            (op.keyOps.filter fun x => L.bucketIndex x.key == j).filter
              (onKey cmp KeyOp.key k)) = [] := by
          rw [List.flatMap_eq_nil_iff]
          intro j hj
          exact filter_other_group L.bucketIndex_congr _ fun hjk => hi (by rwa [hik, ← hjk])
        rw [hrest, List.append_nil, hik, filter_group L.bucketIndex_congr]
        exact Or.inr rfl
      · rw [filter_other_group L.bucketIndex_congr _ hik, List.nil_append]
        exact ih hn
  | false =>
    obtain ⟨x, sec', hops, hplan, -, hsec, -⟩ := plan_of_single (L := L) hk hb
    rw [hplan] at h
    cases done with
    | nil => exact Or.inl rfl
    | cons p done =>
      obtain ⟨rfl, hnil⟩ := List.cons.inj h
      obtain ⟨rfl, -⟩ := List.append_eq_nil_iff.mp hnil.symm
      refine Or.inr ?_
      simp [hsec, hops]

/-! ### A plan without interruption

If nobody else comes in between, the sections of a call come to what the member of `ConcurrentMap`
does. This is what makes the plan a plan of that member, and the only place where the two are
compared. -/

/-- A call whose sections nobody else interrupts. -/
def enterAll (Compare : V → V → Bool) (plan : List (Fin L.bucketNums × Section K V))
    (r : Ret K V × ConcurrentMap V L) : Ret K V × ConcurrentMap V L :=
  plan.foldl
    (fun r p =>
      let q := p.2.enter Compare r.1 (r.2.buckets_ p.1)
      (q.1, r.2.setBucket p.1 q.2)) r

/-- Sections that only change buckets. -/
theorem enterAll_eachBucket (Compare : V → V → Bool) (m : ConcurrentMap V L) (acc : Ret K V)
    (sec : Fin L.bucketNums → Section K V)
    (f : Fin L.bucketNums → ConcurrentBucket K V cmp → ConcurrentBucket K V cmp)
    (h : ∀ i b, (sec i).enter Compare acc b = (acc, f i b)) :
    enterAll Compare (Op.eachBucket L sec) (acc, m) = (acc, m.forBuckets f) := by
  rw [enterAll, Op.eachBucket, List.foldl_map, forBuckets]
  generalize List.finRange L.bucketNums = is
  induction is generalizing m with
  | nil => rfl
  | cons i is ih =>
    rw [List.foldl_cons, List.foldl_cons, ← ih]
    simp only [h]

/-- Sections that only read. -/
theorem enterAll_read (Compare : V → V → Bool) {β : Type} (mk : β → Ret K V)
    (m : ConcurrentMap V L) (acc : β) (sec : Section K V)
    (f : β → ConcurrentBucket K V cmp → β)
    (h : ∀ x b, sec.enter Compare (mk x) b = (mk (f x b), b)) :
    enterAll Compare (Op.eachBucket L fun _ => sec) (mk acc, m)
      = (mk ((List.finRange L.bucketNums).foldl (fun x i => f x (m.buckets_ i)) acc), m) := by
  rw [enterAll, Op.eachBucket, List.foldl_map]
  generalize List.finRange L.bucketNums = is
  induction is generalizing acc with
  | nil => rfl
  | cons i is ih =>
    rw [List.foldl_cons, List.foldl_cons, ← ih]
    simp [h, setBucket]

/-- **The plan of a call is the call**: uninterrupted, its sections do what the member does. -/
theorem enterAll_plan (Compare : V → V → Bool) (m : ConcurrentMap V L) (op : Op K V) :
    enterAll Compare (op.plan L) (op.start, m) = m.call Compare op := by
  cases op with
  | insertKeyBatch list =>
    exact enterAll_eachBucket Compare m .void _
      (fun i b => b.insertKeyBatch Compare (L.lists Prod.fst list i)) fun _ _ => rfl
  | updateKeyBatch list =>
    exact enterAll_eachBucket Compare m .void _
      (fun i b => b.updateKeyBatch Compare (L.lists Prod.fst list i)) fun _ _ => rfl
  | removeKeyBatch list =>
    exact enterAll_eachBucket Compare m .void _
      (fun i b => b.removeKeyBatch (L.lists id list i)) fun _ _ => rfl
  | clear => exact enterAll_eachBucket Compare m .void _ (fun _ b => b.clear) fun _ _ => rfl
  | getAllKey list =>
    exact enterAll_read Compare Ret.list m [] .getAllKey (fun l b => b.getAllKey l) fun _ _ => rfl
  | size =>
    exact enterAll_read Compare Ret.size m 0 .size (fun n b => n + b.size) fun _ _ => rfl
  | lookUp | contain => simp [Op.plan, enterAll, Section.enter, call, lookUp, contain, getBucket,
      setBucket]
  | insert | update | delete => rfl

end Plan

/-- Where a client is: between two calls, or in a call with some sections still to enter. What is to
come was decided when the call began; what the call will return is collected on the way. -/
inductive Client {K : Type} {cmp : K → K → Ordering} (V : Type) (L : Layout K cmp) where
  | idle
  | running (id : Nat) (op : Op K V) (todo : List (Fin L.bucketNums × Section K V))
      (acc : Ret K V)

/-- The position of its `call` is the name of a call. -/
inductive Event {K : Type} {cmp : K → K → Ordering} (C V : Type) (L : Layout K cmp) where
  | call (client : C) (op : Op K V)
  | locked (client : C) (id : Nat) (i : Fin L.bucketNums) (s : Section K V)
  | ret (client : C) (id : Nat) (ret : Ret K V)

/-- The history is for the statements, and no step looks at it. -/
structure State {K : Type} {cmp : K → K → Ordering} (C V : Type) (L : Layout K cmp) where
  map : ConcurrentMap V L
  clients : C → Client V L
  hist : List (Event C V L)

/-- Who moves; a client that starts a call also chooses it. -/
inductive Action (C K V : Type) where
  | call (client : C) (op : Op K V)
  | enter (client : C)
  | ret (client : C)

variable {C : Type} [DecidableEq C] {L : Layout K cmp}

def step (Compare : V → V → Bool) (s : State C V L) : Action C K V → Option (State C V L)
  | .call c op =>
    match s.clients c with
    | .idle => some
        { s with
          clients := Function.update s.clients c
            (.running s.hist.length op (op.plan L) op.start)
          hist := s.hist ++ [.call c op] }
    | .running .. => none
  | .enter c =>
    match s.clients c with
    | .running id op ((i, sec) :: todo) acc =>
      let r := sec.enter Compare acc (s.map.buckets_ i)
      some
        { map := s.map.setBucket i r.2
          clients := Function.update s.clients c (.running id op todo r.1)
          hist := s.hist ++ [.locked c id i sec] }
    | _ => none
  | .ret c =>
    match s.clients c with
    | .running id _ [] acc => some
        { s with
          clients := Function.update s.clients c .idle
          hist := s.hist ++ [.ret c id acc] }
    | _ => none

/-- Any number of clients (`C` is arbitrary) on a freshly constructed map. -/
def clients (C : Type) [DecidableEq C] (Compare : V → V → Bool) (L : Layout K cmp) :
    Machine (State C V L) (Action C K V) where
  init := { map := empty L, clients := fun _ => .idle, hist := [] }
  step := step Compare

/-! ## What a step does

A client begins a call, enters the next bucket of its plan, or returns. Each leaves the other
clients as they are. -/

section Steps

variable {Compare : V → V → Bool} {s s' : State C V L} {c : C}

theorem step_call {op : Op K V} (h : step Compare s (.call c op) = some s') :
    s.clients c = .idle ∧
      s' = { s with
        clients := Function.update s.clients c (.running s.hist.length op (op.plan L) op.start)
        hist := s.hist ++ [.call c op] } := by
  cases hc : s.clients c with
  | idle => simpa [step, hc, eq_comm] using h
  | running => simp [step, hc] at h

theorem step_enter (h : step Compare s (.enter c) = some s') :
    ∃ id op i sec todo acc, s.clients c = .running id op ((i, sec) :: todo) acc ∧
      s' =
        { map := s.map.setBucket i (sec.enter Compare acc (s.map.buckets_ i)).2
          clients := Function.update s.clients c
            (.running id op todo (sec.enter Compare acc (s.map.buckets_ i)).1)
          hist := s.hist ++ [.locked c id i sec] } := by
  cases hc : s.clients c with
  | idle => simp [step, hc] at h
  | running id op todo acc =>
    cases todo with
    | nil => simp [step, hc] at h
    | cons isec todo =>
      obtain ⟨i, sec⟩ := isec
      refine ⟨id, op, i, sec, todo, acc, rfl, ?_⟩
      simpa [step, hc, eq_comm] using h

theorem step_ret (h : step Compare s (.ret c) = some s') :
    ∃ id op acc, s.clients c = .running id op [] acc ∧
      s' = { s with
        clients := Function.update s.clients c .idle
        hist := s.hist ++ [.ret c id acc] } := by
  cases hc : s.clients c with
  | idle => simp [step, hc] at h
  | running id op todo acc =>
    cases todo with
    | nil =>
      refine ⟨id, op, acc, rfl, ?_⟩
      simpa [step, hc, eq_comm] using h
    | cons => simp [step, hc] at h

end Steps

end CppDone.ConcurrentMap
