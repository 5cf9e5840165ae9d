import CppDone.Lib.Upsert
import CppDone.WorkThread.Loop

/-!
# `ThreadPool` of `thread_pool/thread_pool.cpp`

The pool, its works and its table of ids, as one thread sees them that calls `PostWork` and
`DeleteWork` while the workers go on. A `WorkThread` is here what the pool can see of it, its flag
and its queue; `State.view_pushWork` says that the machine of `WorkThread` does with a work what
the pool expects.

`PostWork` returns at once while `stop_` is up, and `StartPool` leaves it up. What stands behind
that test is a function of its own: it is all that can be right about `PostWork`, and when it is
right is said for any state of the pool.

`Rand` may return anything, so the id of a `PostWork` is an argument here. Allocation and the
creation of threads succeed.
-/

set_option autoImplicit false

namespace CppDone.WorkThread

/-- A `WorkThread` as the pool sees it. The worker's own steps are not seen, except that it takes
works off its queue. -/
structure View where
  stoped_ : Bool
  works_ : List (Option Nat)
deriving DecidableEq, Repr

/-- A new `WorkThread` after `StartWork`. -/
def View.started : View := { stoped_ := false, works_ := [] }

def View.pushWork (v : View) (ptr : Option Nat) : View :=
  if v.stoped_ then v else { v with works_ := v.works_ ++ [ptr] }

def State.view (s : State) : View := { stoped_ := s.stoped_, works_ := s.works_ }

/-- One more call of `PushWork`, at `pc`. -/
def State.calling (s : State) (ptr : Option Nat) (pc : PushPc) : State :=
  { s with pushes := s.pushes ++ [{ ptr, pc }] }

section Calling

variable (s : State) (ptr : Option Nat)

theorem State.pushes_calling (pc : PushPc) :
    (s.calling ptr pc).pushes[s.pushes.length]? = some { ptr, pc } :=
  List.getElem?_concat_length

theorem State.set_calling (pc pc' : PushPc) :
    (s.calling ptr pc).pushes.set s.pushes.length { ptr, pc := pc' } =
      (s.calling ptr pc').pushes := by
  show (s.pushes ++ [_]).set _ _ = s.pushes ++ [_]
  rw [List.set_append_right _ _ (Nat.le_refl _), Nat.sub_self]
  rfl

theorem State.testStoped_calling :
    (s.calling ptr .test).testStoped s.pushes.length =
      some (s.calling ptr (if s.stoped_ then .returned else .lock)) := by
  rw [State.testStoped, State.pushes_calling]
  dsimp only
  rw [State.set_calling]
  rfl

theorem State.push_calling (hfree : (s.worker_.map Worker.holds).getD false = false) :
    (s.calling ptr .lock).push s.pushes.length =
      some { s.calling ptr .returned with works_ := s.works_ ++ [ptr] } := by
  rw [State.push, State.pushes_calling]
  dsimp only
  rw [State.set_calling, show (s.calling ptr .lock).worker_ = s.worker_ from rfl, hfree]
  rfl

/-- A call of `PushWork` while the worker is not at its queue is a run of the machine. -/
theorem State.view_pushWork (stoped_ : Bool)
    (hfree : (s.worker_.map Worker.holds).getD false = false) :
    ∃ as t, (workThread stoped_).runFrom s as = some t ∧ t.view = s.view.pushWork ptr := by
  have htest := s.testStoped_calling ptr
  cases hst : s.stoped_ with
  | true =>
    rw [hst] at htest
    refine ⟨[.callPush ptr, .testStoped s.pushes.length], s.calling ptr .returned, ?_, ?_⟩
    · exact Option.bind_eq_some_iff.mpr ⟨_, rfl, Option.bind_eq_some_iff.mpr ⟨_, htest, rfl⟩⟩
    · rw [View.pushWork, if_pos (show s.view.stoped_ = true from hst)]
      rfl
  | false =>
    rw [hst] at htest
    have hpush := s.push_calling ptr hfree
    refine ⟨[.callPush ptr, .testStoped s.pushes.length, .push s.pushes.length],
      { s.calling ptr .returned with works_ := s.works_ ++ [ptr] }, ?_, ?_⟩
    · refine Option.bind_eq_some_iff.mpr ⟨_, rfl, Option.bind_eq_some_iff.mpr ⟨_, htest, ?_⟩⟩
      exact Option.bind_eq_some_iff.mpr ⟨_, hpush, rfl⟩
    · rw [View.pushWork, if_neg (show ¬ s.view.stoped_ = true from Bool.eq_false_iff.mp hst)]
      rfl

end Calling

/-- The last two fields are a record of what was made and handed out; the pool itself looks at the
table only. -/
structure ThreadPool where
  /-- `uint32_t`. -/
  offset_ : Nat
  /-- `uint32_t`. -/
  threads_size_ : Nat
  stop_ : Bool
  workers_ : List View
  /-- The table of ids: a work is known by its place among the objects. -/
  name_works_ : List (Nat × Nat)
  /-- The `Work` objects. -/
  works : List Work
  /-- The ids that calls of `PostWork` returned, each with the work of the call. -/
  posted : List (Nat × Nat)
deriving DecidableEq, Repr

namespace ThreadPool

/-- The constructor. -/
def init : ThreadPool :=
  { offset_ := 0, threads_size_ := 0, stop_ := true, workers_ := [], name_works_ := [],
    works := [], posted := [] }

variable (p : ThreadPool)

/-- One round of the loop of `MakeWorkThread`. -/
def addWorker : ThreadPool := { p with workers_ := p.workers_ ++ [View.started] }

def makeWorkThread (num max_threads : Nat) : ThreadPool :=
  if max_threads ≤ p.threads_size_ then p
  else
    let best_threads := max_threads - p.threads_size_
    -- `i` goes from `num` to `best_threads`, both included
    (List.range' num (best_threads + 1 - num)).foldl (fun p _ => p.addWorker) p

def startPool (num max_threads : Nat) : ThreadPool :=
  ({ p with threads_size_ := num % UInt32.size } : ThreadPool).makeWorkThread num max_threads

/-! ### `PostWork` and `DeleteWork`

`PostWork` in two parts, before and behind its early return. An access behind the end of `workers_`
is kept apart from all results. -/

/-- The wrap of the cursor. -/
def wrap : ThreadPool := if p.threads_size_ < p.offset_ then { p with offset_ := 0 } else p

/-- `PostWork` behind its test of `stop_`, with the id from `Rand`. Where `workers_[offset_]` does
not exist it is `none`. -/
def enqueue (work_id : Nat) : Option (ThreadPool × Option Nat) :=
  let p := p.wrap
  match p.workers_[p.offset_]? with
  | some worker =>
    let work := p.works.length
    some ({ p with
            works := p.works ++ [{ cb_func_ := true, status_ := .kNotUsed }],
            name_works_ := emplace p.name_works_ work_id work,
            workers_ := p.workers_.set p.offset_ (worker.pushWork (some work)),
            offset_ := (p.offset_ + 1) % UInt32.size,
            posted := p.posted ++ [(work_id, work)] }, some work_id)
  | none => none

/-- `PostWork`, and the id that it returns, if any: behind `stop_` it is a `return;`. -/
def postWork (work_id : Nat) : Option (ThreadPool × Option Nat) :=
  if p.stop_ then some (p, none) else p.enqueue work_id

/-- `set_work_status` of a `Work`. -/
def setWorkStatus (work : Nat) (status_ : WorkStatusType) : ThreadPool :=
  { p with works := p.works.modify work fun object => { object with status_ } }

def deleteWork (id : Nat) : ThreadPool :=
  match p.name_works_.lookup id with
  | some work => p.setWorkStatus work .kInvalid
  | none => p

/-- A worker takes the front of its queue. -/
def pop (i : Nat) : ThreadPool :=
  { p with workers_ := p.workers_.modify i fun worker =>
      { worker with works_ := worker.works_.tail } }

end ThreadPool

/-- What callers do, and what the workers do that the pool can see. -/
inductive Call where
  | postWork (work_id : Nat)
  | deleteWork (id : Nat)
  | pop (i : Nat)
  | doing (work : Nat) (status : WorkStatusType)  -- a worker writes it in `Doing`
deriving DecidableEq, Repr

def ThreadPool.call (p : ThreadPool) : Call → Option ThreadPool
  | .postWork work_id => (p.postWork work_id).map Prod.fst
  | .deleteWork id => some (p.deleteWork id)
  | .pop i => some (p.pop i)
  | .doing work status => some (p.setWorkStatus work status)

/-- The pool after `StartPool(num)`, on a machine with `max_threads` hardware threads. -/
def threadPool (num max_threads : Nat) : Machine ThreadPool Call where
  init := ThreadPool.init.startPool num max_threads
  step := ThreadPool.call

namespace ThreadPool

/-! ## What the calls are for

Said of one call: the work is in one queue and its id in the table, or the work is cancelled and
nothing else is touched. -/

/-- The new work is in the queue of worker `i`, and of no other. -/
def EnqueuedOn (p p' : ThreadPool) (i : Nat) : Prop :=
  ∃ worker, p.workers_[i]? = some worker ∧
    p'.workers_ = p.workers_.set i
      { worker with works_ := worker.works_ ++ [some p.works.length] }

/-- What a call does that accepts, places or cancels exactly. -/
def Exact (p : ThreadPool) : Call → Prop
  | .postWork work_id =>
    ∃ p' id, p.postWork work_id = some (p', some id) ∧
      p'.works = p.works ++ [{ cb_func_ := true, status_ := .kNotUsed }] ∧
      ∃ i, EnqueuedOn p p' i
  | .deleteWork id =>
    ∀ work, (id, work) ∈ p.posted →
      (∃ object, (p.deleteWork id).works[work]? = some object ∧ object.status_ = .kInvalid) ∧
      ∀ other, other ≠ work → (p.deleteWork id).works[other]? = p.works[other]?
  | .pop _ | .doing _ _ => True

variable {p p' : ThreadPool}

theorem wrap_eq : p.wrap = { p with offset_ := p.wrap.offset_ } := by
  unfold wrap
  split
  · rfl
  · rfl

/-- The call fails at the cursor or not at all. -/
theorem enqueue_eq (work_id : Nat) :
    p.enqueue work_id = p.workers_[p.wrap.offset_]?.map fun worker =>
      ({ p with
          works := p.works ++ [{ cb_func_ := true, status_ := .kNotUsed }],
          name_works_ := emplace p.name_works_ work_id p.works.length,
          workers_ := p.workers_.set p.wrap.offset_ (worker.pushWork (some p.works.length)),
          offset_ := (p.wrap.offset_ + 1) % UInt32.size,
          posted := p.posted ++ [(work_id, p.works.length)] }, some work_id) := by
  unfold enqueue
  dsimp only
  rw [wrap_eq]
  cases hworker : p.workers_[p.wrap.offset_]? with
  | none => simp only [Option.map_none]
  | some worker => simp only [Option.map_some]

/-- A stopped worker takes nothing, so the queues are what they were. -/
theorem set_pushWork_of_stoped {i : Nat} {worker : View} (ptr : Option Nat)
    (hworker : p.workers_[i]? = some worker) (hdown : worker.stoped_ = true) :
    p.workers_.set i (worker.pushWork ptr) = p.workers_ := by
  obtain ⟨hlt, rfl⟩ := List.getElem?_eq_some_iff.mp hworker
  rw [View.pushWork, if_pos hdown]
  exact List.set_getElem_self hlt

theorem not_enqueuedOn_self {i : Nat} (hw : p'.workers_ = p.workers_) : ¬ EnqueuedOn p p' i := by
  rintro ⟨worker, hworker, hplaced⟩
  have hat : p.workers_[i]? =
      some { worker with works_ := worker.works_ ++ [some p.works.length] } := by
    rw [← hw, hplaced]
    exact List.getElem?_set_self (lt_length_of_getElem? hworker)
  have hsame := congrArg View.works_ (Option.some.inj (hworker.symm.trans hat))
  exact absurd (congrArg List.length hsame) (by simp)

/-- **When `PostWork` does what it is for**: the flag is down, and the cursor is at a worker that
runs. -/
theorem exact_postWork_iff {work_id : Nat} :
    p.Exact (.postWork work_id) ↔
      p.stop_ = false ∧
        ∃ worker, p.workers_[p.wrap.offset_]? = some worker ∧ worker.stoped_ = false := by
  constructor
  · rintro ⟨p', id, hpost, -, i, hplaced⟩
    unfold postWork at hpost
    split at hpost
    · cases hpost
    · next hstop =>
      rw [enqueue_eq] at hpost
      obtain ⟨worker, hworker, heq⟩ := Option.map_eq_some_iff.mp hpost
      obtain ⟨rfl, -⟩ := Prod.mk.inj heq
      refine ⟨Bool.eq_false_iff.mpr hstop, worker, hworker, Bool.eq_false_iff.mpr fun hdown => ?_⟩
      exact not_enqueuedOn_self (set_pushWork_of_stoped _ hworker hdown) hplaced
  · rintro ⟨hstop, worker, hworker, hrun⟩
    have hpush : worker.pushWork (some p.works.length) =
        { worker with works_ := worker.works_ ++ [some p.works.length] } := by
      rw [View.pushWork, hrun]
      rfl
    have hpost : p.postWork work_id = p.enqueue work_id := if_neg (Bool.eq_false_iff.mp hstop)
    rw [enqueue_eq, hworker, Option.map_some, hpush] at hpost
    exact ⟨_, work_id, hpost, rfl, p.wrap.offset_, worker, hworker, rfl⟩

/-! ## Runs

The table stays right if every id is new. That the ids of `Rand` are is asked of the run. -/

/-- The table has every id that was returned, and each with its work. Nothing is ever taken out of
the table, so it is the list of all that was posted. -/
structure Tracked (p : ThreadPool) : Prop where
  named : p.name_works_ = p.posted
  ids : (p.posted.map Prod.fst).Nodup
  made : ∀ q ∈ p.posted, q.2 < p.works.length

/-- A `PostWork` that finds the flag down, a worker that runs at the cursor, and a new id. -/
def Sound (p : ThreadPool) : Call → Prop
  | .postWork work_id => p.Exact (.postWork work_id) ∧ p.name_works_.lookup work_id = none
  | _ => True

theorem Tracked.frame (h : Tracked p) (hn : p'.name_works_ = p.name_works_)
    (hp : p'.posted = p.posted) (hw : p'.works.length = p.works.length) : Tracked p' where
  named := by
    rw [hn, hp]
    exact h.named
  ids := by
    rw [hp]
    exact h.ids
  made := by
    rw [hp, hw]
    exact h.made

theorem setWorkStatus_frame (h : Tracked p) (work : Nat) (status : WorkStatusType) :
    Tracked (p.setWorkStatus work status) :=
  h.frame rfl rfl (List.length_modify _ _ _)

theorem Tracked.call (h : Tracked p) {c : Call} (hok : p.Sound c) (hs : p.call c = some p') :
    Tracked p' := by
  -- only `PostWork` adds an id, and only behind its test of `stop_`
  cases c with
  | postWork work_id =>
    obtain ⟨⟨p₁, id, hpost, -⟩, hnew⟩ := hok
    obtain ⟨⟨p₂, ret⟩, hp₂, rfl⟩ := Option.map_eq_some_iff.mp hs
    unfold postWork at hpost hp₂
    split at hp₂
    · next hstop =>
      rw [if_pos hstop] at hpost
      cases hpost
    · rw [enqueue_eq] at hp₂
      obtain ⟨worker, -, heq⟩ := Option.map_eq_some_iff.mp hp₂
      obtain ⟨rfl, -⟩ := Prod.mk.inj heq
      -- the id is new, so `emplace` puts it in
      refine ⟨?_, ?_, ?_⟩
      · show emplace p.name_works_ work_id p.works.length = _
        rw [emplace_of_lookup_none hnew, h.named]
      · show ((p.posted ++ [(work_id, p.works.length)]).map Prod.fst).Nodup
        rw [← h.named, ← emplace_of_lookup_none hnew]
        refine nodup_keys_emplace ?_
        rw [h.named]
        exact h.ids
      · intro q hq
        show q.2 < (p.works ++ [_]).length
        rw [List.length_append, List.length_singleton]
        rcases List.mem_append.mp hq with hold | hlast
        · exact Nat.lt_succ_of_lt (h.made q hold)
        · obtain rfl := List.mem_singleton.mp hlast
          exact Nat.lt_succ_self _
  | deleteWork id =>
    obtain rfl := Option.some.inj hs
    unfold deleteWork
    split
    -- a known id marks its work; the table stays as it is
    · exact setWorkStatus_frame h _ _
    · exact h
  | pop i =>
    obtain rfl := Option.some.inj hs
    exact h.frame rfl rfl rfl
  | doing work status =>
    obtain rfl := Option.some.inj hs
    exact setWorkStatus_frame h work status

/-- With every id in the table once, `DeleteWork` finds the work it is told of. -/
theorem Tracked.exact_deleteWork (h : Tracked p) (id : Nat) : p.Exact (.deleteWork id) := by
  intro work hmem
  have hlookup : p.name_works_.lookup id = some work := by
    rw [h.named]
    exact lookup_of_mem h.ids hmem
  have hdelete : p.deleteWork id = p.setWorkStatus work .kInvalid := by
    rw [deleteWork, hlookup]
  rw [hdelete]
  constructor
  · have hlt : work < p.works.length := h.made _ hmem
    refine ⟨{ p.works[work] with status_ := .kInvalid }, ?_, rfl⟩
    show (p.works.modify work _)[work]? = _
    rw [List.getElem?_modify_eq, List.getElem?_eq_getElem hlt]
    rfl
  · intro other hne
    exact List.getElem?_modify_ne _ _ hne.symm

/-! ### `StartPool`

It adds workers and leaves the flag up. So of the calls of a started pool only `PostWork` goes
wrong, and it always does. -/

theorem foldl_addWorker (l : List Nat) :
    l.foldl (fun p _ => p.addWorker) p =
      { p with workers_ := p.workers_ ++ List.replicate l.length View.started } := by
  induction l generalizing p with
  | nil => simp
  | cons i l ih =>
    rw [List.foldl_cons, ih]
    simp [addWorker, List.replicate_succ]

/-- `StartPool` sets the size and adds running workers, and leaves the rest alone. -/
theorem startPool_eq (num max_threads : Nat) :
    ∃ n, p.startPool num max_threads =
      { p with threads_size_ := num % UInt32.size,
               workers_ := p.workers_ ++ List.replicate n View.started } := by
  unfold startPool makeWorkThread
  split
  · exact ⟨0, by simp⟩
  · exact ⟨_, foldl_addWorker _⟩

end ThreadPool

section Runs

variable {num max_threads : Nat}

theorem tracked_init : (threadPool num max_threads).init.Tracked := by
  obtain ⟨n, heq⟩ := ThreadPool.init.startPool_eq num max_threads
  show (ThreadPool.init.startPool num max_threads).Tracked
  rw [heq]
  exact ⟨rfl, List.nodup_nil, fun q hq => absurd hq List.not_mem_nil⟩

/-- As long as no id is used twice, the table is exact; the rest is up to the flag and the
cursor. -/
theorem exact_of_sound {calls : List Call}
    (h : (threadPool num max_threads).Meets ThreadPool.Sound calls) :
    (threadPool num max_threads).Meets ThreadPool.Exact calls := by
  refine Machine.Meets.imp (I := ThreadPool.Tracked) tracked_init
    (fun ht hok hs => ht.call hok hs) ?_ h
  intro p c ht hok
  cases c with
  | postWork work_id => exact hok.1
  | deleteWork id => exact ht.exact_deleteWork id
  | pop i | doing work status => trivial

/-- The flag stays up, and with it no call goes wrong. -/
theorem call_of_stop {p : ThreadPool} (h : p.stop_ = true) (c : Call) :
    ∃ p', p.call c = some p' ∧ p'.stop_ = true := by
  cases c with
  | postWork work_id =>
    refine ⟨p, ?_, h⟩
    show (p.postWork work_id).map Prod.fst = _
    rw [ThreadPool.postWork, h]
    rfl
  | deleteWork id =>
    refine ⟨_, rfl, ?_⟩
    unfold ThreadPool.deleteWork
    split
    · exact h
    · exact h
  | pop i => exact ⟨_, rfl, h⟩
  | doing work status => exact ⟨_, rfl, h⟩

theorem run_stop (num max_threads : Nat) (calls : List Call) :
    ∃ p, (threadPool num max_threads).run calls = some p ∧ p.stop_ = true := by
  induction calls using List.reverseRecOn with
  | nil =>
    obtain ⟨n, heq⟩ := ThreadPool.init.startPool_eq num max_threads
    refine ⟨_, rfl, ?_⟩
    show (ThreadPool.init.startPool num max_threads).stop_ = true
    rw [heq]
    rfl
  | append_singleton calls c ih =>
    obtain ⟨p, hp, hstop⟩ := ih
    obtain ⟨p', hp', hstop'⟩ := call_of_stop hstop c
    exact ⟨p', Machine.run_snoc.mpr ⟨p, hp, hp'⟩, hstop'⟩

/-- **A started pool accepts nothing.** After `StartPool(num)` a sequence of calls does what it is
for if and only if no call of it is a `PostWork`. -/
theorem pool_exact_iff (num max_threads : Nat) (calls : List Call) :
    (threadPool num max_threads).Meets ThreadPool.Exact calls ↔
      ∀ work_id, .postWork work_id ∉ calls := by
  constructor
  · intro h work_id hmem
    obtain ⟨pre, post, rfl⟩ := List.append_of_mem hmem
    obtain ⟨p, hp, hstop⟩ := run_stop num max_threads pre
    have hdown := (ThreadPool.exact_postWork_iff.mp (h pre _ post p rfl hp)).1
    rw [hstop] at hdown
    cases hdown
  · intro hnone
    refine exact_of_sound fun pre c post p he _ => ?_
    cases c with
    | postWork work_id => exact absurd (by simp [he]) (hnone work_id)
    | deleteWork id | pop i | doing work status => trivial

/-- **One `PostWork`**: no work, nothing in a queue, and no id. -/
theorem post_nothing :
    ¬ (threadPool 1 4).Meets ThreadPool.Exact [.postWork 7] ∧
      (threadPool 1 4).run [.postWork 7] = some (threadPool 1 4).init := by
  refine ⟨fun h => ?_, by decide⟩
  have hexact := h [] (.postWork 7) [] (threadPool 1 4).init rfl rfl
  exact absurd (ThreadPool.exact_postWork_iff.mp hexact).1 (by decide)

end Runs

end CppDone.WorkThread
