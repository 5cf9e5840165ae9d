import CppDone.Lib.Machine

/-!
# `WorkThread`

The worker of `thread_pool/thread_pool.cpp` as a machine: one thread that calls `StartWork` and
`StopWork`, the worker thread, and any number of calls of `PushWork`.

`works_cv_.wait(lock, pred)` tests, blocks and tests again. Between a test and the blocking the
worker still holds `works_mtx_`, which keeps a push out, but not the store and the notification of
`StopWork`, which take no lock; so the two are steps of their own here. The section of a `PushWork`
is one step. Whatever else the worker does between two points where another thread can see it is
one step as well.

Before `StartWork` the atomic flag has no value, so the machine takes any. Assigning to a joinable
`std::thread` ends the process, and no step does it.

A work is its number in `objects`, which only grows: the source keeps no record of whether a pointer
is still good, and neither does the machine. Who pushes and sets statuses is left open.
-/

set_option autoImplicit false

namespace CppDone.WorkThread

/-- Only `kInvalid` is ever looked at. -/
inductive WorkStatusType where
  | kNotUsed
  | kStarting
  | kInvalid
deriving DecidableEq, Repr

/-- Whether there is a callback, and the status. What the callback does is left out. -/
structure Work where
  /-- `cb_func_ != nullptr`. -/
  cb_func_ : Bool
  status_ : WorkStatusType
deriving DecidableEq, Repr

/-- Where the worker is in its loop. A `Work` is known by its place among the objects. Three places
hold the lock of the queue, and the other ones can be passed by a push. -/
inductive Worker where
  | lock
  | test  -- holds the lock, at the predicate of the `wait`
  | sleep  -- holds the lock, the predicate was false
  | waiting
  | woken (notified : Bool)
  | check  -- holds the lock, at `if (stoped_.load())`
  | pop
  | got (work : Option Nat)  -- before it reads the status
  | doing (work : Nat)  -- in `Doing`
  | starting (work : Nat)  -- before the callback begins
  | running (work : Nat)
  | finishing (work : Nat)
  | exited
deriving DecidableEq, Repr

/-- Where a call of `PushWork` is. The call tests the flag before it takes the lock, so it may push
into a thread that has been stopped since. -/
inductive PushPc where
  | test  -- at `if (!stoped_.load())`
  | lock
  | returned
deriving DecidableEq, Repr

/-- A call of `PushWork` with its pointer, which may be null. -/
structure Push where
  ptr : Option Nat
  pc : PushPc
deriving DecidableEq, Repr

/-- Where the controlling thread is. -/
inductive Control where
  | idle
  | creating  -- in `StartWork`
  | notifying  -- in `StopWork`
  | joining
deriving DecidableEq, Repr

/-- `worker_` is none when the thread object is not joinable. -/
structure State where
  stoped_ : Bool
  worker_ : Option Worker
  works_ : List (Option Nat)
  control : Control
  pushes : List Push
  /-- The `Work` objects. -/
  objects : List Work
  /-- The callbacks begun so far. -/
  begun : List Nat
deriving DecidableEq, Repr

/-- Works are made and get their status from outside, by whoever has them. -/
inductive Action where
  | start
  | create (ok : Bool)
  | stop
  | notify
  | join
  | newWork (cb_func_ : Bool)
  | setWorkStatus (work : Nat) (status : WorkStatusType)
  | callPush (ptr : Option Nat)
  | testStoped (i : Nat)
  | push (i : Nat)
  | work  -- the next step of the worker
  | wake  -- it wakes up by itself
deriving DecidableEq, Repr

/-- `works_mtx_` is held by the worker. -/
def Worker.holds : Worker → Bool
  | .test | .sleep | .check | .pop => true
  | _ => false

/-- `works_cv_.notify_one()`, seen from the worker. -/
def Worker.notify : Worker → Worker
  | .waiting => .woken true
  | w => w

namespace State

variable (s : State)

def goto (w : Worker) : State := { s with worker_ := some w }

/-! ### `StartWork` and `StopWork`

The flag and the thread. None of this is done under the mutex of the queue. -/

/-- `stoped_.store(false)`. -/
def start : Option State :=
  if s.control = .idle then some { s with stoped_ := false, control := .creating } else none

/-- The worker is created, or an empty handler takes the exception. -/
def create (ok : Bool) : Option State :=
  if s.control = .creating then
    if ok then
      match s.worker_ with
      | none => some { s with worker_ := some .lock, control := .idle }
      | some _ => none
    else some { s with control := .idle }
  else none

/-- `stoped_.store(true)`. -/
def stop : Option State :=
  if s.control = .idle then some { s with stoped_ := true, control := .notifying } else none

def notify : Option State :=
  if s.control = .notifying then
    some { s with worker_ := s.worker_.map Worker.notify, control := .joining }
  else none

def join : Option State :=
  if s.control = .joining then
    match s.worker_ with
    | none | some .exited => some { s with worker_ := none, control := .idle }
    | some _ => none
  else none

/-! ### The works and `PushWork`

`PushWork` tests the flag, then takes the mutex and pushes. It notifies nobody. -/

def newWork (cb_func_ : Bool) : Option State :=
  some { s with objects := s.objects ++ [{ cb_func_, status_ := .kNotUsed }] }

def setWorkStatus (work : Nat) (status : WorkStatusType) : Option State :=
  match s.objects[work]? with
  | some object => some { s with objects := s.objects.set work { object with status_ := status } }
  | none => none

def callPush (ptr : Option Nat) : Option State :=
  some { s with pushes := s.pushes ++ [{ ptr, pc := .test }] }

def testStoped (i : Nat) : Option State :=
  match s.pushes[i]? with
  | some { ptr, pc := .test } =>
    let pc : PushPc := if s.stoped_ then .returned else .lock
    some { s with pushes := s.pushes.set i { ptr, pc } }
  | _ => none

def push (i : Nat) : Option State :=
  match s.pushes[i]? with
  | some { ptr, pc := .lock } =>
    if (s.worker_.map Worker.holds).getD false then none
    else some { s with works_ := s.works_ ++ [ptr],
                       pushes := s.pushes.set i { ptr, pc := .returned } }
  | _ => none

/-! ### The loop of the worker

Each look at something that others write is a step of its own, and so is each write. -/

/-- The next step of the worker, which is at `pc`. -/
def workAt (pc : Worker) : Option State :=
  match pc with
  | .waiting | .exited => none
  | .lock | .woken _ => some (s.goto .test)
  | .test => some (s.goto (if s.stoped_ || !s.works_.isEmpty then .check else .sleep))
  | .sleep => some (s.goto .waiting)
  | .check => some (s.goto (if s.stoped_ then .exited else .pop))
  | .pop =>
    match s.works_ with
    | [] => none
    | work :: works_ =>
      let s' : State := { s with works_ }
      some (s'.goto (.got work))
  | .got none => some (s.goto .lock)
  | .got (some work) =>
    match s.objects[work]? with
    | some object =>
      some (s.goto (if object.status_ = .kInvalid then .lock else .doing work))
    | none => none
  | .doing work =>
    match s.objects[work]? with
    | some object =>
      if object.cb_func_ then
        let object : Work := { object with status_ := .kStarting }
        let s' : State := { s with objects := s.objects.set work object }
        some (s'.goto (.starting work))
      else some (s.goto .lock)
    | none => none
  | .starting work =>
    let s' : State := { s with begun := s.begun ++ [work] }
    some (s'.goto (.running work))
  | .running work => some (s.goto (.finishing work))
  | .finishing work =>
    match s.objects[work]? with
    | some object =>
      let object : Work := { object with status_ := .kInvalid }
      let s' : State := { s with objects := s.objects.set work object }
      some (s'.goto .lock)
    | none => none

def work : Option State :=
  match s.worker_ with
  | some pc => s.workAt pc
  | none => none

def wake : Option State :=
  match s.worker_ with
  | some .waiting => some (s.goto (.woken false))
  | _ => none

def step : Action → Option State
  | .start => s.start
  | .create ok => s.create ok
  | .stop => s.stop
  | .notify => s.notify
  | .join => s.join
  | .newWork cb_func_ => s.newWork cb_func_
  | .setWorkStatus work status => s.setWorkStatus work status
  | .callPush ptr => s.callPush ptr
  | .testStoped i => s.testStoped i
  | .push i => s.push i
  | .work => s.work
  | .wake => s.wake

end State

def workThread (stoped_ : Bool) : Machine State Action where
  init :=
    { stoped_, worker_ := none, works_ := [], control := .idle, pushes := [], objects := [],
      begun := [] }
  step := State.step

/-! ## What each step does

The guard and the change of every step but those of the worker, whose loop is one function of its
place. -/

section Steps

variable {s s' : State}

theorem State.start_cases (h : s.start = some s') :
    s.control = .idle ∧ s' = { s with stoped_ := false, control := .creating } := by
  unfold State.start at h
  split at h
  · next hc => exact ⟨hc, (Option.some.inj h).symm⟩
  · cases h

theorem State.create_cases {ok : Bool} (h : s.create ok = some s') :
    s.control = .creating ∧
      (s.worker_ = none ∧ s' = { s with worker_ := some .lock, control := .idle } ∨
        s' = { s with control := .idle }) := by
  unfold State.create at h
  split at h
  · next hc =>
    refine ⟨hc, ?_⟩
    split at h
    · split at h
      · next hnone => exact Or.inl ⟨hnone, (Option.some.inj h).symm⟩
      · cases h
    · exact Or.inr (Option.some.inj h).symm
  · cases h

theorem State.stop_cases (h : s.stop = some s') :
    s.control = .idle ∧ s' = { s with stoped_ := true, control := .notifying } := by
  unfold State.stop at h
  split at h
  · next hc => exact ⟨hc, (Option.some.inj h).symm⟩
  · cases h

theorem State.notify_cases (h : s.notify = some s') :
    s.control = .notifying ∧
      s' = { s with worker_ := s.worker_.map Worker.notify, control := .joining } := by
  unfold State.notify at h
  split at h
  · next hc => exact ⟨hc, (Option.some.inj h).symm⟩
  · cases h

/-- A notification reaches a worker that waits, and no other. -/
theorem Worker.notify_cases (pc : Worker) :
    pc = .waiting ∧ pc.notify = .woken true ∨ pc ≠ .waiting ∧ pc.notify = pc := by
  cases pc with
  | waiting => exact Or.inl ⟨rfl, rfl⟩
  | lock | test | sleep | woken _ | check | pop | got _ | doing _ | starting _ | running _
  | finishing _ | exited => exact Or.inr ⟨nofun, rfl⟩

theorem State.join_cases (h : s.join = some s') :
    s.control = .joining ∧ (s.worker_ = none ∨ s.worker_ = some .exited) ∧
      s' = { s with worker_ := none, control := .idle } := by
  unfold State.join at h
  split at h
  · next hc =>
    split at h
    · next hnone => exact ⟨hc, Or.inl hnone, (Option.some.inj h).symm⟩
    · next hexit => exact ⟨hc, Or.inr hexit, (Option.some.inj h).symm⟩
    · cases h
  · cases h

theorem State.setWorkStatus_cases {work : Nat} {status : WorkStatusType}
    (h : s.setWorkStatus work status = some s') :
    ∃ object, s.objects[work]? = some object ∧
      s' = { s with objects := s.objects.set work { object with status_ := status } } := by
  unfold State.setWorkStatus at h
  split at h
  · next object ho => exact ⟨object, ho, (Option.some.inj h).symm⟩
  · cases h

theorem State.testStoped_cases {i : Nat} (h : s.testStoped i = some s') :
    ∃ ptr, s.pushes[i]? = some { ptr, pc := .test } ∧
      s' = { s with pushes := s.pushes.set i
                      { ptr, pc := if s.stoped_ then .returned else .lock } } := by
  unfold State.testStoped at h
  split at h
  · next ptr hp => exact ⟨ptr, hp, (Option.some.inj h).symm⟩
  · cases h

/-- Steps that prepare a work or a push. -/
def Action.prepares : Action → Bool
  | .newWork _ | .setWorkStatus _ _ | .callPush _ | .testStoped _ => true
  | _ => false

theorem State.prepares_frame {a : Action} (ha : a.prepares = true) (h : s.step a = some s') :
    s'.stoped_ = s.stoped_ ∧ s'.control = s.control ∧ s'.worker_ = s.worker_ ∧
      s'.works_ = s.works_ := by
  cases a with
  | newWork cb_func_ =>
    obtain rfl := (Option.some.inj h).symm
    exact ⟨rfl, rfl, rfl, rfl⟩
  | setWorkStatus work status =>
    obtain ⟨object, -, rfl⟩ := State.setWorkStatus_cases h
    exact ⟨rfl, rfl, rfl, rfl⟩
  | callPush ptr =>
    obtain rfl := (Option.some.inj h).symm
    exact ⟨rfl, rfl, rfl, rfl⟩
  | testStoped i =>
    obtain ⟨ptr, -, rfl⟩ := State.testStoped_cases h
    exact ⟨rfl, rfl, rfl, rfl⟩
  | _ => cases ha

theorem State.push_cases {i : Nat} (h : s.push i = some s') :
    ∃ ptr, s.pushes[i]? = some { ptr, pc := .lock } ∧
      (∀ w, s.worker_ = some w → w.holds = false) ∧
      s' = { s with works_ := s.works_ ++ [ptr],
                    pushes := s.pushes.set i { ptr, pc := .returned } } := by
  unfold State.push at h
  split at h
  · next ptr hp =>
    split at h
    · cases h
    · next hfree =>
      refine ⟨ptr, hp, fun w hw => ?_, (Option.some.inj h).symm⟩
      rw [hw] at hfree
      exact Bool.eq_false_iff.mpr hfree
  · cases h

/-! ### The worker

One step of the loop, by where the worker is. The cases say what it finds there and where it goes.
-/

theorem State.work_cases (h : s.work = some s') :
    ∃ pc, s.worker_ = some pc ∧ s.workAt pc = some s' := by
  unfold State.work at h
  split at h
  · next pc hw => exact ⟨pc, hw, h⟩
  · cases h

theorem State.wake_cases (h : s.wake = some s') :
    s.worker_ = some .waiting ∧ s' = s.goto (.woken false) := by
  unfold State.wake at h
  split at h
  · next hw => exact ⟨hw, (Option.some.inj h).symm⟩
  · cases h

/-- A step of the worker from `pc` to `pc'`, as far as the flag, the queue and the wait go. Most of
the time it moves by itself and leaves all the rest alone. -/
structure Moves (s : State) (pc : Worker) (s' : State) (pc' : Worker) : Prop where
  worker_ : s'.worker_ = some pc'
  stoped_ : s'.stoped_ = s.stoped_
  control : s'.control = s.control
  works_ : s'.works_ = s.works_ ∨ pc = .pop
  sleep : pc' = .sleep → s.stoped_ = false ∧ s.works_ = []
  waiting : pc' = .waiting → pc = .sleep
  exited : pc' = .exited → s.stoped_ = true

/-- A step that neither waits nor leaves, nor takes from the queue. -/
theorem Moves.goto {pc pc' : Worker} {t : State} (hst : t.stoped_ = s.stoped_)
    (hc : t.control = s.control) (hq : t.works_ = s.works_) (hsleep : pc' ≠ .sleep)
    (hwait : pc' ≠ .waiting) (hexit : pc' ≠ .exited) : Moves s pc (t.goto pc') pc' where
  worker_ := rfl
  stoped_ := hst
  control := hc
  works_ := Or.inl hq
  sleep h := absurd h hsleep
  waiting h := absurd h hwait
  exited h := absurd h hexit

theorem State.workAt_moves {pc : Worker} (h : s.workAt pc = some s') :
    ∃ pc', Moves s pc s' pc' := by
  -- what matters is from where the worker may come to sleep, and from where to leave
  unfold State.workAt at h
  cases pc with
  | waiting | exited => cases h
  | lock | woken notified =>
    obtain rfl := (Option.some.inj h).symm
    exact ⟨_, Moves.goto rfl rfl rfl nofun nofun nofun⟩
  | test =>
    obtain rfl := (Option.some.inj h).symm
    refine ⟨_, rfl, rfl, rfl, Or.inl rfl, fun hsleep => ?_, fun hwait => ?_, fun hexit => ?_⟩
    · split at hsleep
      · cases hsleep
      -- the predicate was false: running, and nothing queued
      · next hpred =>
        rw [Bool.not_eq_true, Bool.or_eq_false_iff, Bool.not_eq_false'] at hpred
        exact ⟨hpred.1, List.isEmpty_iff.mp hpred.2⟩
    · split at hwait <;> cases hwait
    · split at hexit <;> cases hexit
  | sleep =>
    obtain rfl := (Option.some.inj h).symm
    exact ⟨_, rfl, rfl, rfl, Or.inl rfl, nofun, fun _ => rfl, nofun⟩
  | check =>
    obtain rfl := (Option.some.inj h).symm
    refine ⟨_, rfl, rfl, rfl, Or.inl rfl, fun hsleep => ?_, fun hwait => ?_, fun hexit => ?_⟩
    · split at hsleep <;> cases hsleep
    · split at hwait <;> cases hwait
    · split at hexit
      -- it leaves when it finds the flag up
      · next hst => exact hst
      · cases hexit
  | pop =>
    dsimp only at h
    split at h
    · cases h
    · obtain rfl := (Option.some.inj h).symm
      -- the one place where the queue gets shorter
      exact ⟨_, rfl, rfl, rfl, Or.inr rfl, nofun, nofun, nofun⟩
  | got work =>
    cases work with
    | none =>
      obtain rfl := (Option.some.inj h).symm
      exact ⟨_, Moves.goto rfl rfl rfl nofun nofun nofun⟩
    | some work =>
      dsimp only at h
      split at h
      · obtain rfl := (Option.some.inj h).symm
        split
        · exact ⟨_, Moves.goto rfl rfl rfl nofun nofun nofun⟩
        · exact ⟨_, Moves.goto rfl rfl rfl nofun nofun nofun⟩
      · cases h
  | doing work =>
    dsimp only at h
    split at h
    · split at h
      · obtain rfl := (Option.some.inj h).symm
        exact ⟨_, Moves.goto rfl rfl rfl nofun nofun nofun⟩
      · obtain rfl := (Option.some.inj h).symm
        exact ⟨_, Moves.goto rfl rfl rfl nofun nofun nofun⟩
    · cases h
  | starting work | running work =>
    obtain rfl := (Option.some.inj h).symm
    exact ⟨_, Moves.goto rfl rfl rfl nofun nofun nofun⟩
  | finishing work =>
    dsimp only at h
    split at h
    · obtain rfl := (Option.some.inj h).symm
      exact ⟨_, Moves.goto rfl rfl rfl nofun nofun nofun⟩
    · cases h

end Steps

end CppDone.WorkThread
