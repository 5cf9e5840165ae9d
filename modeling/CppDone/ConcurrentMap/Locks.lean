import CppDone.Lib.Sections
import CppDone.ConcurrentMap.Body
import CppDone.ConcurrentMap.Linear

/-!
# Down to `rwlock_`

Here the clients take `rwlock_` of a bucket, with a `read_lock` or a `write_lock` as its member
does, go through the body access by access and give it back, so that clients in one bucket overlap
as far as the locks let them.

The machine of `Clients` follows, a section being seen when its lock is given back. So what is
known of `ConcurrentMap` with atomic sections holds down to the accesses, and no two clients race
for a tree. Nor do they wait for ever: no lock is taken while another one is held.

What `std::map` would do under two writers at once is not modelled, and need not be: nobody writes
to a bucket while somebody else is in it.
-/

set_option autoImplicit false

namespace CppDone.ConcurrentMap

open Std

variable {K V : Type} {cmp : K → K → Ordering}

/-! ## The clients with their locks

The calls as before, but a section is now a lock, accesses of the tree one by one, and an unlock.
What a client does outside of the buckets needs no lock, and is one step as it was. -/

/-- The calls under way and the history. The buckets are the resources, and their locks are kept by
`Sections`. -/
structure Calls {K : Type} {cmp : K → K → Ordering} (C V : Type) (L : Layout K cmp) where
  clients : C → Client V L
  hist : List (Event C V L)

/-- What a client does outside of the buckets. -/
inductive Outside (C K V : Type) where
  | call (client : C) (op : Op K V)
  | ret (client : C)
  deriving Repr, DecidableEq

section Machine

variable {C : Type} [DecidableEq C] {L : Layout K cmp}

namespace Calls

variable (x : Calls C V L)

/-- The bucket a client comes to, and where it begins there. -/
def next (c : C) : Option (Fin L.bucketNums × (Body K V × Ret K V)) :=
  match x.clients c with
  | .running _ _ ((i, sec) :: _) acc => some (i, (sec.body, acc))
  | _ => none

def finish (c : C) (l : Body K V × Ret K V) : Calls C V L :=
  match x.clients c with
  | .running id op ((i, sec) :: todo) _ =>
    { clients := Function.update x.clients c (.running id op todo l.2)
      hist := x.hist ++ [.locked c id i sec] }
  | _ => x

def outside : Outside C K V → Option (Calls C V L)
  | .call c op =>
    match x.clients c with
    | .idle => some
        { clients := Function.update x.clients c
            (.running x.hist.length op (op.plan L) op.start)
          hist := x.hist ++ [.call c op] }
    | .running .. => none
  | .ret c =>
    match x.clients c with
    | .running id _ [] acc => some
        { clients := Function.update x.clients c .idle
          hist := x.hist ++ [.ret c id acc] }
    | _ => none

variable {x}

omit [DecidableEq C] in
theorem next_cases {c : C} {n : Fin L.bucketNums × (Body K V × Ret K V)} (h : x.next c = some n) :
    ∃ id op i sec todo acc, x.clients c = .running id op ((i, sec) :: todo) acc ∧
      n = (i, (sec.body, acc)) := by
  unfold next at h
  split at h
  · next id op i sec todo acc hc => exact ⟨id, op, i, sec, todo, acc, hc, (Option.some.inj h).symm⟩
  · cases h

omit [DecidableEq C] in
theorem next_of_clients {y : Calls C V L} {c : C} (h : y.clients c = x.clients c) :
    y.next c = x.next c := by
  unfold next
  rw [h]

theorem finish_clients {c d : C} (hne : d ≠ c) (l : Body K V × Ret K V) :
    (x.finish c l).clients d = x.clients d := by
  unfold finish
  split
  · exact Function.update_of_ne hne ..
  · rfl

theorem next_outside {a : Outside C K V} {y : Calls C V L} {c : C}
    {n : Fin L.bucketNums × (Body K V × Ret K V)} (h : x.outside a = some y)
    (hn : x.next c = some n) : y.next c = some n := by
  obtain ⟨id, op, i, sec, todo, acc, hc, -⟩ := next_cases hn
  rw [← hn]
  refine next_of_clients ?_
  unfold outside at h
  cases a with
  | call d op =>
    dsimp only at h
    split at h
    · next hd =>
      obtain rfl := (Option.some.inj h).symm
      refine Function.update_of_ne ?_ ..
      rintro rfl
      cases hc.symm.trans hd
    · cases h
  | ret d =>
    dsimp only at h
    split at h
    · next hd =>
      obtain rfl := (Option.some.inj h).symm
      refine Function.update_of_ne ?_ ..
      rintro rfl
      cases hc.symm.trans hd
    · cases h

end Calls

/-- The map's calls as sections under the buckets' locks. -/
def sections (C : Type) [DecidableEq C] (Compare : V → V → Bool) (L : Layout K cmp) :
    Sections C (Fin L.bucketNums) (Body K V × Ret K V) (ConcurrentBucket K V cmp) (Calls C V L)
      (Outside C K V) where
  shared l := l.1.shared
  access := Body.access Compare
  whole := Body.whole Compare
  size l := l.1.left
  whole_access := Body.whole_access
  whole_end := Body.whole_end
  size_access := Body.left_access
  shared_access := Body.shared_access
  next := Calls.next
  finish := Calls.finish
  other := Calls.outside
  next_other := Calls.next_outside
  next_finish hne hn := by
    rw [← hn]
    exact Calls.next_of_clients (Calls.finish_clients hne _)

/-- Any number of clients on a freshly constructed map, down to its locks. -/
def lockedClients (C : Type) [DecidableEq C] (Compare : V → V → Bool) (L : Layout K cmp) :
    Machine (Locking C (Fin L.bucketNums) (Body K V × Ret K V) (ConcurrentBucket K V cmp)
      (Calls C V L)) (LockAction C (Outside C K V)) :=
  (sections C Compare L).locking { clients := fun _ => .idle, hist := [] } fun _ => .empty

/-! ## What is seen of it

Forgetting the locks and taking each section for done at its unlock gives a run of the machine with
atomic sections. So what was shown for that machine holds for this one, for the calls that it sees.
-/

/-- A step of the machine with atomic sections. -/
def seenAs : Outside C K V ⊕ C → Action C K V
  | .inl (.call c op) => .call c op
  | .inl (.ret c) => .ret c
  | .inr c => .enter c

/-- The state of the calls and the buckets. -/
def together (t : Calls C V L × (Fin L.bucketNums → ConcurrentBucket K V cmp)) : State C V L where
  map := ⟨t.2⟩
  clients := t.1.clients
  hist := t.1.hist

variable {Compare : V → V → Bool}

theorem step_together {t t' : Calls C V L × (Fin L.bucketNums → ConcurrentBucket K V cmp)}
    {a : Outside C K V ⊕ C} (h : (sections C Compare L).atomicStep t a = some t') :
    step Compare (together t) (seenAs a) = some (together t') := by
  obtain ⟨x, buckets⟩ := t
  -- outside of the buckets both machines do the same; a section is entered here when it is left
  -- there
  cases a with
  | inl a =>
    obtain ⟨y, hy, rfl⟩ := Option.map_eq_some_iff.mp h
    cases a with
    | call c op =>
      unfold sections Calls.outside at hy
      dsimp only at hy
      split at hy
      · next hc =>
        obtain rfl := (Option.some.inj hy).symm
        unfold step seenAs together
        dsimp only
        rw [hc]
      · cases hy
    | ret c =>
      unfold sections Calls.outside at hy
      dsimp only at hy
      split at hy
      · next hc =>
        obtain rfl := (Option.some.inj hy).symm
        unfold step seenAs together
        dsimp only
        rw [hc]
      · cases hy
  | inr c =>
    unfold Sections.atomicStep at h
    dsimp only at h
    split at h
    · next i l hn =>
      obtain rfl := (Option.some.inj h).symm
      obtain ⟨id, op, j, sec, todo, acc, hc, hl⟩ := Calls.next_cases hn
      obtain ⟨rfl, rfl⟩ := Prod.mk.inj hl
      -- the accesses of the body, taken together, are the section
      have hwhole : (sections C Compare L).whole (sec.body, acc) (buckets i) = _ :=
        whole_body Compare sec acc (buckets i)
      rw [hwhole]
      unfold step seenAs together
      dsimp only
      rw [hc]
      show _ = some (together (Calls.finish x c _, _))
      unfold Calls.finish
      rw [hc]
      rfl
    · cases h

/-- The step of the other machine that is seen when the locks are left out. -/
def unlocked (a : LockAction C (Outside C K V)) : Option (Action C K V) :=
  a.seen.bind fun b => some (seenAs b)

/-- `t` is what the machine with atomic sections has come to. -/
def Unlocked (Compare : V → V → Bool) (s : Locking C (Fin L.bucketNums) (Body K V × Ret K V)
    (ConcurrentBucket K V cmp) (Calls C V L)) (t : State C V L) : Prop :=
  ∃ u, Lags (sections C Compare L) s u ∧ t = together u

theorem clients_follow (Compare : V → V → Bool) (L : Layout K cmp) :
    (lockedClients C Compare L).Follows (clients C Compare L) unlocked (Unlocked Compare) := by
  have htogether : ((sections C Compare L).atomic { clients := fun _ => .idle, hist := [] }
      fun _ => .empty).Follows (clients C Compare L) (fun b => some (seenAs b))
      fun u t => t = together u := by
    refine ⟨rfl, ?_⟩
    rintro u t a u' rfl hs
    exact ⟨together u', step_together hs, rfl⟩
  exact ((sections C Compare L).locking_follows _ _).trans htogether

/-- **The buckets' sections are atomic.** A run in which every access is a step of its own is, with
the locks and the accesses left out, a run of the clients with atomic sections; it has the same
history and the same answers, and the same buckets but for those that somebody is writing. And
nobody writes to a bucket in which somebody else is, be it to read. -/
theorem sections_are_atomic (Compare : V → V → Bool) (L : Layout K cmp)
    (as : List (LockAction C (Outside C K V)))
    (s : Locking C (Fin L.bucketNums) (Body K V × Ret K V) (ConcurrentBucket K V cmp) (Calls C V L))
    (h : (lockedClients C Compare L).run as = some s) :
    (∃ t, (clients C Compare L).run (as.filterMap unlocked) = some t ∧
      t.clients = s.outer.clients ∧ t.hist = s.outer.hist ∧
      ∀ i, (s.mutex i).exclusive = false → t.map.buckets_ i = s.mem i) ∧
    ∀ a s', (lockedClients C Compare L).step s a = some s' → ∀ i, s'.mem i ≠ s.mem i →
      ∃ c q, a = .access c ∧ s.inside c = some q ∧ q.res = i ∧
        ∀ d p, s.inside d = some p → p.res = i → d = c := by
  obtain ⟨t, ht, u, hu, rfl⟩ := (clients_follow Compare L).run h
  refine ⟨⟨together u, ht, ?_, ?_, fun i hi => (hu.same i hi).symm⟩, fun a s' hs i => hu.written hs⟩
  · exact congrArg Calls.clients hu.outer
  · exact congrArg Calls.hist hu.outer

/-- Two readers of a key overlap, between an insertion and an update of it. -/
def readersOverlap : List (LockAction (Fin 3) (Outside (Fin 3) Nat Nat)) :=
  [.other (.call 0 (.insert 1 5)), .lock 0, .access 0, .access 0, .unlock 0,
    .other (.call 1 (.lookUp 1 0)), .other (.call 2 (.contain 1)), .other (.ret 0),
    .other (.call 0 (.update 1 2)), .lock 1, .lock 2, .access 1, .access 2, .unlock 2, .access 1,
    .unlock 1, .lock 0, .access 0, .access 0, .access 0, .other (.ret 1)]

theorem sections_are_atomic_readersOverlap :
    ∃ s t, (lockedClients (Fin 3) (fun a b : Nat => a < b) evenOdd).run readersOverlap = some s ∧
      (clients (Fin 3) (fun a b : Nat => a < b) evenOdd).run
        [.call 0 (.insert 1 5), .enter 0, .call 1 (.lookUp 1 0), .call 2 (.contain 1), .ret 0,
          .call 0 (.update 1 2), .enter 2, .enter 1, .ret 1] = some t ∧
      t.hist = s.outer.hist := by
  obtain ⟨s, hs⟩ := Option.isSome_iff_exists.mp
    (show ((lockedClients (Fin 3) (fun a b : Nat => decide (a < b)) evenOdd).run
      readersOverlap).isSome = true by decide)
  obtain ⟨⟨t, ht, -, hhist, -⟩, -⟩ := sections_are_atomic _ evenOdd readersOverlap s hs
  exact ⟨s, t, hs, ht, hhist⟩

/-- **`ConcurrentMap` is linearizable down to its locks**: what `linearizable` says of the runs
with atomic sections, said of those that take every access on its own. -/
theorem linearizable_under_locks [TransCmp cmp] (Compare : V → V → Bool) (L : Layout K cmp)
    (as : List (LockAction C (Outside C K V)))
    (hk : ∀ c op, .other (.call c op) ∈ as → op.isKeyed = true)
    (s : Locking C (Fin L.bucketNums) (Body K V × Ret K V) (ConcurrentBucket K V cmp) (Calls C V L))
    (h : (lockedClients C Compare L).run as = some s) :
    ∃ t lin, Linearizes Compare t lin ∧ t.clients = s.outer.clients ∧ t.hist = s.outer.hist ∧
      ∀ i, (s.mutex i).exclusive = false → t.map.buckets_ i = s.mem i := by
  obtain ⟨t, ht, u, hu, rfl⟩ := (clients_follow Compare L).run h
  have hkeyed : KeyedCalls (as.filterMap unlocked) := by
    intro c op hmem
    obtain ⟨a, ha, hseen⟩ := List.mem_filterMap.mp hmem
    cases a with
    | other b =>
      cases b with
      | call d op' =>
        obtain ⟨rfl, rfl⟩ := Action.call.inj (Option.some.inj hseen)
        exact hk d op' ha
      | ret d => cases hseen
    | lock d | access d | unlock d => cases hseen
  refine ⟨together u, _, (explains_of_run hkeyed ht).linearizes, ?_, ?_, fun i hi => ?_⟩
  · exact congrArg Calls.clients hu.outer
  · exact congrArg Calls.hist hu.outer
  · exact (hu.same i hi).symm

theorem linearizable_under_locks_readersOverlap :
    ∃ s t lin, (lockedClients (Fin 3) (fun a b : Nat => a < b) evenOdd).run readersOverlap
        = some s ∧
      Linearizes (fun a b : Nat => a < b) t lin ∧ t.hist = s.outer.hist := by
  obtain ⟨s, hs⟩ := Option.isSome_iff_exists.mp
    (show ((lockedClients (Fin 3) (fun a b : Nat => decide (a < b)) evenOdd).run
      readersOverlap).isSome = true by decide)
  have hk : ∀ c op, .other (.call c op) ∈ readersOverlap → op.isKeyed = true := by
    intro c op hop
    simp only [readersOverlap, List.mem_cons, LockAction.other.injEq, Outside.call.injEq,
      reduceCtorEq, List.not_mem_nil, or_false, false_or] at hop
    rcases hop with ⟨-, rfl⟩ | ⟨-, rfl⟩ | ⟨-, rfl⟩ | ⟨-, rfl⟩ <;> rfl
  obtain ⟨t, lin, hlin, -, hhist, -⟩ := linearizable_under_locks _ evenOdd readersOverlap hk s hs
  exact ⟨s, t, lin, hs, hlin, hhist⟩

/-! ## Coming back

A call has finitely many sections to go through, and nobody holds one lock while it waits for
another. So every client can be brought to the end of its call: those that are in its way finish
first. -/

/-- A client goes through the sections it has left, after those that are in its way. -/
theorem comes_back {c : C} {id : Nat} {op : Op K V} {todo : List (Fin L.bucketNums × Section K V)}
    {acc : Ret K V}
    {s : Locking C (Fin L.bucketNums) (Body K V × Ret K V) (ConcurrentBucket K V cmp) (Calls C V L)}
    (hheld : AllHeld s) (hc : s.outer.clients c = .running id op todo acc) :
    ∃ u r, (lockedClients C Compare L).Leads (fun a => a.serves c ∨ a = .other (.ret c)) s u ∧
      u.outer.clients c = .idle ∧ .ret c id r ∈ u.outer.hist := by
  -- the induction is on the sections the call has left; each is served by those inside its bucket
  induction todo generalizing s acc with
  | nil =>
    refine ⟨{ s with outer :=
      { clients := Function.update s.outer.clients c .idle
        hist := s.outer.hist ++ [.ret c id acc] } }, acc, ?_, ?_, ?_⟩
    · refine Machine.Leads.single (a := .other (.ret c)) (.inr rfl) ?_
      show (s.outer.outside (.ret c)).map _ = _
      unfold Calls.outside
      dsimp only
      rw [hc]
      rfl
    · exact Function.update_self ..
    · exact List.mem_append_right _ (List.mem_singleton.mpr rfl)
  | cons first todo ih =>
    obtain ⟨i, sec⟩ := first
    have hnext : (sections C Compare L).next s.outer c = some (i, (sec.body, acc)) := by
      show s.outer.next c = _
      unfold Calls.next
      rw [hc]
    -- the others that finish meanwhile leave this call where it is
    obtain ⟨u, y, l, hu, hheldu, hy, houter, -⟩ := served
      (P := fun y => y.clients c = .running id op ((i, sec) :: todo) acc)
      (fun y d l hd h => (Calls.finish_clients (Ne.symm hd) l).trans h) hheld hc hnext
    have hcu : u.outer.clients c = .running id op todo l.2 := by
      rw [houter]
      show (y.finish c l).clients c = _
      unfold Calls.finish
      rw [hy]
      exact Function.update_self ..
    obtain ⟨v, r, hv, hrest⟩ := ih hheldu hcu
    exact ⟨v, r, (hu.mono fun _ => .inl).trans hv, hrest⟩

/-- **Every call comes back.** Nobody is held up inside a bucket, and nobody at a bucket that is
empty. So from every reachable state a client with the ones that are in the buckets it comes to,
and nobody else, brings its call to the end. -/
theorem calls_come_back (Compare : V → V → Bool) (L : Layout K cmp)
    (s : Locking C (Fin L.bucketNums) (Body K V × Ret K V) (ConcurrentBucket K V cmp) (Calls C V L))
    (hs : (lockedClients C Compare L).Reachable s) :
    (∀ c q, s.inside c = some q → (∃ u, (lockedClients C Compare L).step s (.access c) = some u) ∨
      ∃ u, (lockedClients C Compare L).step s (.unlock c) = some u) ∧
    (∀ c i l, s.inside c = none → s.outer.next c = some (i, l) →
      (∀ d q, s.inside d = some q → q.res ≠ i) →
      ∃ u, (lockedClients C Compare L).step s (.lock c) = some u) ∧
    ∀ c id op todo acc, s.outer.clients c = .running id op todo acc →
      ∃ u r, (lockedClients C Compare L).Leads (fun a => a.serves c ∨ a = .other (.ret c)) s u ∧
        u.outer.clients c = .idle ∧ .ret c id r ∈ u.outer.hist := by
  obtain ⟨t, -, u, hu, -⟩ := (clients_follow Compare L).reachable hs
  refine ⟨fun c q hq => inside_goes hq, fun c i l hout hnext hnobody => ?_,
    fun c id op todo acc hc => comes_back hu.held hc⟩
  have hfree : s.mutex i = SharedMutex.free := by
    refine (hu.held i).eq_free fun d => ?_
    cases hd : s.inside d with
    | none => exact mode_outside hd
    | some q => exact mode_elsewhere hd (hnobody d q hd)
  obtain ⟨v, -, hv, -⟩ := enters (M := sections C Compare L) hout hnext hfree
  exact ⟨v, hv⟩

/-- Client `0` is between the `erase` and the `insert` of its update. -/
theorem calls_come_back_readersOverlap :
    ∃ s, (lockedClients (Fin 3) (fun a b : Nat => a < b) evenOdd).run readersOverlap = some s ∧
      (s.inside 0).map Hold.loc = some (.insert false 1 2 none, .bool false) ∧
      ((∃ u, (lockedClients (Fin 3) (fun a b : Nat => a < b) evenOdd).step s (.access 0) = some u) ∨
        ∃ u, (lockedClients (Fin 3) (fun a b : Nat => a < b) evenOdd).step s (.unlock 0)
          = some u) := by
  obtain ⟨s, hs⟩ := Option.isSome_iff_exists.mp
    (show ((lockedClients (Fin 3) (fun a b : Nat => decide (a < b)) evenOdd).run
      readersOverlap).isSome = true by decide)
  have hin : ((lockedClients (Fin 3) (fun a b : Nat => decide (a < b)) evenOdd).run
      readersOverlap).map (fun s => (s.inside 0).map Hold.loc)
      = some (some (.insert false 1 2 none, .bool false)) := by decide
  rw [hs, Option.map_some, Option.some.injEq] at hin
  obtain ⟨q, hq, -⟩ := Option.map_eq_some_iff.mp hin
  exact ⟨s, hs, hin, (calls_come_back _ evenOdd s ⟨_, hs⟩).1 0 q hq⟩

end Machine

end CppDone.ConcurrentMap
