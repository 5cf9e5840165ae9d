import CppDone.Lib.CondVar
import CppDone.Lib.Machine

/-!
# `net::ThreadPool`

The pool of `http_client/thread_pool.cpp`, as a machine whose steps are what the source does
between two points where another thread can get in: a section under `mutex_` is one step, ended
by the release of the mutex or by blocking in a `wait`; a read of `running_` or `threads_` outside
the mutex is one step; the body of a task is a begin and an end.

Three kinds of thread take part. `workers` are the threads `start` created, in creation order.
`calls` are the calls of `run`, each with its task, by whatever threads made them, so that "any
number of producers" needs no set of producers. One controlling thread does `start` and `stop`.

A thread that leaves a `wait` is `woken notified`: with a notification, or by itself. It then
locks `mutex_` again and goes back to the test of its loop. A task that throws takes the process
down, so no run goes on behind it.
-/

set_option autoImplicit false

namespace CppDone.Net.ThreadPool

variable {T : Type}

/-! ## Threads

Where a thread is, as far as others can see. Two places of the source are one place here where
nobody can tell them apart. -/

/-- Where a worker is in `runInThread`. A task that throws ends the process, so `running` leads to
`test` only. -/
inductive Worker (T : Type) where
  | test  -- at `while (running_)`
  | lock  -- in `take`, about to lock
  | waiting  -- in `notEmpty_.wait`
  | woken (notified : Bool)
  | took (task : Option T)  -- at `if (task)`
  | running (task : T)
  | exited
deriving DecidableEq, Repr

/-- Where a call of `run` is. The call stays in the list of calls when it is over. -/
inductive CallPc where
  | entered  -- at `threads_.empty()`
  | lock
  | waiting  -- in `notFull_.wait`
  | woken (notified : Bool)
  | running  -- in `task()`, on the calling thread
  | returned
  | threw  -- `task()` of an empty `std::function`
deriving DecidableEq, Repr

/-- A call of `run` with its task, which may be an empty function. -/
structure Call (T : Type) where
  task : Option T
  pc : CallPc
deriving DecidableEq, Repr

/-- A member of `threads_`: the worker it runs, and `joined_`, which `Thread::join` sets without a
look at what it was. -/
structure Thread where
  worker : Nat
  joined_ : Bool
deriving DecidableEq, Repr

/-- Where the controlling thread is. The turns of both loops are counted, since workers and callers
come in between. -/
inductive Control where
  | idle
  | starting (turns : Nat)  -- in the loop of `start`, with so many turns left
  | pushing (worker turns : Nat)  -- thread started, not in `threads_` yet
  | joining (i : Nat)  -- in the loop of `stop`, at `threads_[i]`
  | threw  -- `join` of a thread joined before
deriving DecidableEq, Repr

namespace Worker

/-- About to lock `mutex_` in `take`, for the first time or again. -/
def locks : Worker T → Bool
  | .lock | .woken _ => true
  | _ => false

/-- The worker is inside `take` and will pop once more. -/
def takes : Worker T → Bool
  | .lock | .waiting | .woken _ => true
  | _ => false

/-- The task a worker has popped and not begun. -/
def held : Worker T → Option T
  | .took task => task
  | _ => none

end Worker

/-- About to lock `mutex_` in `run`, for the first time or again. -/
def CallPc.locks : CallPc → Bool
  | .lock | .woken _ => true
  | _ => false

/-- `notEmpty_`, seen from the workers. -/
def notEmpty_ : CondVar (Worker T) where
  waiting
    | .waiting => true
    | _ => false
  notified
    | .woken b => b
    | _ => false
  notify _ := .woken true
  waiting_notify _ _ := rfl
  notified_notify _ _ := rfl
  notified_of_waiting p h := by
    cases p with
    | waiting => rfl
    | _ => cases h

/-- `notFull_`, seen from the calls of `run`. -/
def notFull_ : CondVar (Call T) where
  waiting c :=
    match c.pc with
    | .waiting => true
    | _ => false
  notified c :=
    match c.pc with
    | .woken b => b
    | _ => false
  notify c := { c with pc := .woken true }
  waiting_notify _ _ := rfl
  notified_notify _ _ := rfl
  notified_of_waiting c h := by
    obtain ⟨task, pc⟩ := c
    cases pc with
    | waiting => rfl
    | _ => cases h

theorem takes_of_locks {p : Worker T} (h : p.locks = true) : p.takes = true := by
  cases p with
  | lock | woken => rfl
  | _ => cases h

theorem takes_notify (p : Worker T) (h : notEmpty_.waiting p = true) :
    (notEmpty_.notify p).takes = p.takes := by
  cases p with
  | waiting => rfl
  | _ => cases h

/-! ## The pool

What is shared, and where each thread is. The lists at the end are a record of what was done, for
the statements; no step looks at them. -/

/-- What the threads share, where each of them is, and what was done so far. -/
structure State (T : Type) where
  running_ : Bool
  threads_ : List Thread
  queue_ : List (Option T)
  workers : List (Worker T)
  calls : List (Call T)
  control : Control
  -- what happened so far
  pushed : List (Option T)
  popped : List (Nat × Option T)
  /-- The tasks begun, with the worker that began them. -/
  executed : List (Nat × T)
  /-- The tasks ended, on a worker or on a caller's thread. -/
  finished : List T
deriving DecidableEq, Repr

def State.init : State T where
  running_ := false
  threads_ := []
  queue_ := []
  workers := []
  calls := []
  control := .idle
  pushed := []
  popped := []
  executed := []
  finished := []

/-- Who takes the next step, and where that is open, what becomes of it: which waiter is notified,
and whether a wait ends by itself. -/
inductive Action (T : Type) where
  | start (numThreads : Nat)
  | spawn
  | pushBack
  | stop
  | join
  | run (task : Option T)
  | enter (c : Nat)
  | push (c : Nat) (notified : Option Nat)
  | wakeCall (c : Nat)
  | endCall (c : Nat)
  | test (w : Nat)
  | take (w : Nat) (notified : Option Nat)
  | wake (w : Nat)
  | exec (w : Nat)
  | finish (w : Nat)
deriving DecidableEq, Repr

/-- The worker that takes the step. -/
def Action.worker : Action T → Option Nat
  | .test w | .take w _ | .wake w | .exec w | .finish w => some w
  | _ => none

/-- The call that takes the step. -/
def Action.caller : Action T → Option Nat
  | .enter c | .push c _ | .wakeCall c | .endCall c => some c
  | _ => none

def isFull (maxQueueSize_ : Nat) (queue_ : List (Option T)) : Bool :=
  maxQueueSize_ > 0 && queue_.length ≥ maxQueueSize_

namespace State

variable (s : State T)

/-! ### `start` and `stop`

Each turn of the two loops is a step, so that workers and callers come in between: a worker runs
before its thread is in `threads_`. -/

def start (numThreads : Nat) : Option (State T) :=
  if s.control = .idle then
    some { s with running_ := true, control := .starting numThreads }
  else none

/-- The next turn of the loop: a worker is created and runs; or the loop ends. -/
def spawn : Option (State T) :=
  match s.control with
  | .starting 0 => some { s with control := .idle }
  | .starting (turns + 1) =>
    some { s with workers := s.workers ++ [.test], control := .pushing s.workers.length turns }
  | _ => none

def pushBack : Option (State T) :=
  match s.control with
  | .pushing worker turns =>
    some { s with threads_ := s.threads_ ++ [{ worker, joined_ := false }],
                  control := .starting turns }
  | _ => none

/-- The section of `stop`. -/
def stop : Option (State T) :=
  if s.control = .idle then
    some { s with running_ := false, workers := notEmpty_.notifyAll s.workers,
                  control := .joining 0 }
  else none

/-- The next turn of the loop of joins, which blocks until the worker has exited. -/
def join : Option (State T) :=
  match s.control with
  | .joining i =>
    match s.threads_[i]? with
    | none => some { s with control := .idle }
    | some thread =>
      if thread.joined_ then some { s with control := .threw }
      else
        match s.workers[thread.worker]? with
        | some .exited =>
          some { s with threads_ := s.threads_.set i { thread with joined_ := true },
                        control := .joining (i + 1) }
        | _ => none
  | _ => none

/-! ### `run`

A call of `run` is looked at from its entry on. It tests `threads_` without the mutex, and then goes
one of two ways: it runs the task itself, or it waits for a place and pushes. -/

def run (task : Option T) : Option (State T) :=
  some { s with calls := s.calls ++ [{ task, pc := .entered }] }

/-- `if (threads_.empty())`. -/
def enter (c : Nat) : Option (State T) :=
  match s.calls[c]? with
  | some { task, pc := .entered } =>
    let pc : CallPc :=
      if s.threads_ = [] then if task.isSome then .running else .threw
      else .lock
    some { s with calls := s.calls.set c { task, pc } }
  | _ => none

/-- The section of `run`, from the lock to the `wait` or to the end. -/
def push (maxQueueSize_ c : Nat) (notified : Option Nat) : Option (State T) :=
  match s.calls[c]? with
  | some { task, pc } =>
    if pc.locks then
      if isFull maxQueueSize_ s.queue_ then
        some { s with calls := s.calls.set c { task, pc := .waiting } }
      else
        (notEmpty_.notifyOne notified s.workers).map fun workers =>
          { s with queue_ := s.queue_ ++ [task], workers,
                   calls := s.calls.set c { task, pc := .returned },
                   pushed := s.pushed ++ [task] }
    else none
  | none => none

def wakeCall (c : Nat) : Option (State T) :=
  match s.calls[c]? with
  | some { task, pc := .waiting } =>
    some { s with calls := s.calls.set c { task, pc := .woken false } }
  | _ => none

/-- A task run by its caller ends. -/
def endCall (c : Nat) : Option (State T) :=
  match s.calls[c]? with
  | some { task := some t, pc := .running } =>
    some { s with calls := s.calls.set c { task := some t, pc := .returned },
                  finished := s.finished ++ [t] }
  | _ => none

/-! ### `runInThread`

The loop of a worker: the test of `running_`, `take`, the task. Only `take` holds the mutex. -/

/-- `while (running_)`. -/
def test (w : Nat) : Option (State T) :=
  match s.workers[w]? with
  | some .test =>
    some { s with workers := s.workers.set w (if s.running_ then .lock else .exited) }
  | _ => none

/-- The section of `take`, from the lock to the `wait` or to the end. -/
def take (maxQueueSize_ w : Nat) (notified : Option Nat) : Option (State T) :=
  match s.workers[w]? with
  | some worker =>
    if worker.locks then
      match s.queue_ with
      | [] =>
        some { s with workers := s.workers.set w (if s.running_ then .waiting else .took none) }
      | task :: queue_ =>
        (if maxQueueSize_ > 0 then notFull_.notifyOne notified s.calls else some s.calls).map
          fun calls =>
            { s with queue_, calls, workers := s.workers.set w (.took task),
                     popped := s.popped ++ [(w, task)] }
    else none
  | none => none

def wake (w : Nat) : Option (State T) :=
  match s.workers[w]? with
  | some .waiting => some { s with workers := s.workers.set w (.woken false) }
  | _ => none

/-- `if (task)`. -/
def exec (w : Nat) : Option (State T) :=
  match s.workers[w]? with
  | some (.took none) => some { s with workers := s.workers.set w .test }
  | some (.took (some t)) =>
    some { s with workers := s.workers.set w (.running t), executed := s.executed ++ [(w, t)] }
  | _ => none

def finish (w : Nat) : Option (State T) :=
  match s.workers[w]? with
  | some (.running t) =>
    some { s with workers := s.workers.set w .test, finished := s.finished ++ [t] }
  | _ => none

def step (maxQueueSize_ : Nat) : Action T → Option (State T)
  | .start numThreads => s.start numThreads
  | .spawn => s.spawn
  | .pushBack => s.pushBack
  | .stop => s.stop
  | .join => s.join
  | .run task => s.run task
  | .enter c => s.enter c
  | .push c notified => s.push maxQueueSize_ c notified
  | .wakeCall c => s.wakeCall c
  | .endCall c => s.endCall c
  | .test w => s.test w
  | .take w notified => s.take maxQueueSize_ w notified
  | .wake w => s.wake w
  | .exec w => s.exec w
  | .finish w => s.finish w

end State

/-- The pool with `maxQueueSize_` set before it is started. -/
def pool (T : Type) (maxQueueSize_ : Nat) : Machine (State T) (Action T) where
  init := .init
  step := fun s a => s.step maxQueueSize_ a
/-! ## What each step does

One lemma for each step: when it can be taken, and all that it changes. The frame lemmas behind them
say what a kind of step leaves alone. -/

section Steps

variable {m : Nat} {s s' : State T}

theorem State.start_cases {n : Nat} (h : s.start n = some s') :
    s.control = .idle ∧ s' = { s with running_ := true, control := .starting n } := by
  unfold State.start at h
  split at h
  · next hc => exact ⟨hc, (Option.some.inj h).symm⟩
  · cases h

theorem State.spawn_cases (h : s.spawn = some s') :
    s.control = .starting 0 ∧ s' = { s with control := .idle } ∨
      ∃ turns, s.control = .starting (turns + 1) ∧
        s' = { s with workers := s.workers ++ [.test],
                      control := .pushing s.workers.length turns } := by
  unfold State.spawn at h
  split at h
  · next hc => exact Or.inl ⟨hc, (Option.some.inj h).symm⟩
  · next turns hc => exact Or.inr ⟨turns, hc, (Option.some.inj h).symm⟩
  · cases h

theorem State.pushBack_cases (h : s.pushBack = some s') :
    ∃ worker turns, s.control = .pushing worker turns ∧
      s' = { s with threads_ := s.threads_ ++ [{ worker, joined_ := false }],
                    control := .starting turns } := by
  unfold State.pushBack at h
  split at h
  · next worker turns hc => exact ⟨worker, turns, hc, (Option.some.inj h).symm⟩
  · cases h

theorem State.stop_cases (h : s.stop = some s') :
    s.control = .idle ∧ s' = { s with running_ := false, control := .joining 0,
                                      workers := notEmpty_.notifyAll s.workers } := by
  unfold State.stop at h
  split at h
  · next hc => exact ⟨hc, (Option.some.inj h).symm⟩
  · cases h

/-- The joins end, one fails, or one is done on a worker that has exited. -/
theorem State.join_cases (h : s.join = some s') :
    ∃ i, s.control = .joining i ∧
      (s.threads_[i]? = none ∧ s' = { s with control := .idle } ∨
        ∃ thread, s.threads_[i]? = some thread ∧
          (thread.joined_ = true ∧ s' = { s with control := .threw } ∨
            thread.joined_ = false ∧ s.workers[thread.worker]? = some .exited ∧
              s' = { s with threads_ := s.threads_.set i { thread with joined_ := true },
                            control := .joining (i + 1) })) := by
  unfold State.join at h
  split at h
  · next i hc =>
    refine ⟨i, hc, ?_⟩
    split at h
    · next hi => exact Or.inl ⟨hi, (Option.some.inj h).symm⟩
    · next thread hi =>
      refine Or.inr ⟨thread, hi, ?_⟩
      split at h
      · next hj => exact Or.inl ⟨hj, (Option.some.inj h).symm⟩
      · next hj =>
        split at h
        · next hw =>
          exact Or.inr ⟨Bool.eq_false_iff.mpr hj, hw, (Option.some.inj h).symm⟩
        · cases h
  · cases h

theorem State.run_cases {task : Option T} (h : s.run task = some s') :
    s' = { s with calls := s.calls ++ [{ task, pc := .entered }] } :=
  (Option.some.inj h).symm

theorem State.enter_cases {c : Nat} (h : s.enter c = some s') :
    ∃ task pc, s.calls[c]? = some { task, pc := .entered } ∧
      s' = { s with calls := s.calls.set c { task, pc } } ∧
      (s.threads_ ≠ [] ∧ pc = .lock ∨
        s.threads_ = [] ∧ (task.isSome ∧ pc = .running ∨ task = none ∧ pc = .threw)) := by
  unfold State.enter at h
  split at h
  · next task hc =>
    refine ⟨task, _, hc, (Option.some.inj h).symm, ?_⟩
    by_cases ht : s.threads_ = []
    · cases task with
      | none => simp [ht]
      | some t => simp [ht]
    · simp [ht]
  · cases h

/-- A call of `run` that has the mutex waits in a full pool, and else pushes its task. -/
theorem State.push_cases {c : Nat} {notified : Option Nat} (h : s.push m c notified = some s') :
    ∃ task pc, s.calls[c]? = some { task, pc } ∧ pc.locks = true ∧
      (isFull m s.queue_ = true ∧
          s' = { s with calls := s.calls.set c { task, pc := .waiting } } ∨
        isFull m s.queue_ = false ∧ ∃ workers,
          notEmpty_.notifyOne notified s.workers = some workers ∧
          s' = { s with queue_ := s.queue_ ++ [task], workers,
                        calls := s.calls.set c { task, pc := .returned },
                        pushed := s.pushed ++ [task] }) := by
  unfold State.push at h
  split at h
  · next task pc hc =>
    split at h
    · next hl =>
      refine ⟨task, pc, hc, hl, ?_⟩
      split at h
      · next hf => exact Or.inl ⟨hf, (Option.some.inj h).symm⟩
      · next hf =>
        obtain ⟨workers, hw, rfl⟩ := Option.map_eq_some_iff.mp h
        exact Or.inr ⟨Bool.eq_false_iff.mpr hf, workers, hw, rfl⟩
    · cases h
  · cases h

theorem State.wakeCall_cases {c : Nat} (h : s.wakeCall c = some s') :
    ∃ task, s.calls[c]? = some { task, pc := .waiting } ∧
      s' = { s with calls := s.calls.set c { task, pc := .woken false } } := by
  unfold State.wakeCall at h
  split at h
  · next task hc => exact ⟨task, hc, (Option.some.inj h).symm⟩
  · cases h

theorem State.endCall_cases {c : Nat} (h : s.endCall c = some s') :
    ∃ t, s.calls[c]? = some { task := some t, pc := .running } ∧
      s' = { s with calls := s.calls.set c { task := some t, pc := .returned },
                    finished := s.finished ++ [t] } := by
  unfold State.endCall at h
  split at h
  · next t hc => exact ⟨t, hc, (Option.some.inj h).symm⟩
  · cases h

theorem State.test_cases {w : Nat} (h : s.test w = some s') :
    s.workers[w]? = some .test ∧
      s' = { s with workers := s.workers.set w (if s.running_ then .lock else .exited) } := by
  unfold State.test at h
  split at h
  · next hw => exact ⟨hw, (Option.some.inj h).symm⟩
  · cases h

/-- A worker that has the mutex waits or gives up on an empty queue, and else pops. -/
theorem State.take_cases {w : Nat} {notified : Option Nat} (h : s.take m w notified = some s') :
    ∃ worker, s.workers[w]? = some worker ∧ worker.locks = true ∧
      (s.queue_ = [] ∧ s.running_ = true ∧
          s' = { s with workers := s.workers.set w .waiting } ∨
        s.queue_ = [] ∧ s.running_ = false ∧
          s' = { s with workers := s.workers.set w (.took none) } ∨
        ∃ task queue_ calls, s.queue_ = task :: queue_ ∧
          (m > 0 ∧ notFull_.notifyOne notified s.calls = some calls ∨ m = 0 ∧ calls = s.calls) ∧
          s' = { s with queue_, calls, workers := s.workers.set w (.took task),
                        popped := s.popped ++ [(w, task)] }) := by
  unfold State.take at h
  -- the worker is there, and it has the mutex
  split at h
  · next worker hw =>
    split at h
    · next hl =>
      refine ⟨worker, hw, hl, ?_⟩
      split at h
      · next hq =>
        -- an empty queue: to sleep, or to give up
        cases hr : s.running_ with
        | true =>
          rw [hr] at h
          exact Or.inl ⟨hq, rfl, (Option.some.inj h).symm⟩
        | false =>
          rw [hr] at h
          exact Or.inr (Or.inl ⟨hq, rfl, (Option.some.inj h).symm⟩)
      -- `notFull_` is notified if there is a bound
      · next task queue_ hq =>
        obtain ⟨calls, hc, rfl⟩ := Option.map_eq_some_iff.mp h
        refine Or.inr (Or.inr ⟨task, queue_, calls, hq, ?_, rfl⟩)
        split at hc
        · next hm => exact Or.inl ⟨hm, hc⟩
        · next hm => exact Or.inr ⟨Nat.eq_zero_of_not_pos hm, (Option.some.inj hc).symm⟩
    · cases h
  · cases h

theorem State.wake_cases {w : Nat} (h : s.wake w = some s') :
    s.workers[w]? = some .waiting ∧
      s' = { s with workers := s.workers.set w (.woken false) } := by
  unfold State.wake at h
  split at h
  · next hw => exact ⟨hw, (Option.some.inj h).symm⟩
  · cases h

theorem State.exec_cases {w : Nat} (h : s.exec w = some s') :
    s.workers[w]? = some (.took none) ∧ s' = { s with workers := s.workers.set w .test } ∨
      ∃ t, s.workers[w]? = some (.took (some t)) ∧
        s' = { s with workers := s.workers.set w (.running t),
                      executed := s.executed ++ [(w, t)] } := by
  unfold State.exec at h
  split at h
  · next hw => exact Or.inl ⟨hw, (Option.some.inj h).symm⟩
  · next t hw => exact Or.inr ⟨t, hw, (Option.some.inj h).symm⟩
  · cases h

theorem State.finish_cases {w : Nat} (h : s.finish w = some s') :
    ∃ t, s.workers[w]? = some (.running t) ∧
      s' = { s with workers := s.workers.set w .test, finished := s.finished ++ [t] } := by
  unfold State.finish at h
  split at h
  · next t hw => exact ⟨t, hw, (Option.some.inj h).symm⟩
  · cases h

/-! ### What a step leaves alone

The steps of workers and callers leave the controlling thread alone, and a step of one worker leaves
the others where they are, but for those it notifies. So most invariants need to look at a few steps
only. -/

/-- Steps of the controlling thread. -/
def Action.isControl : Action T → Bool
  | .start _ | .spawn | .pushBack | .stop | .join => true
  | _ => false

/-- What everybody else leaves to the controlling thread. One worker moves at most, by a step of its
own or because it is notified, and it leaves only a pool that is stopped. So an invariant about the
controlling thread and its list needs to look at the five steps of that thread only. -/
structure Aside (s : State T) (a : Action T) (s' : State T) : Prop where
  running_ : s'.running_ = s.running_
  threads_ : s'.threads_ = s.threads_
  control : s'.control = s.control
  workers : s'.workers = s.workers ∨ ∃ w p p', s.workers[w]? = some p ∧
    s'.workers = s.workers.set w p' ∧ (a.worker = some w ∨ notEmpty_.waiting p = true) ∧
    (p' = .exited → s.running_ = false)

theorem State.aside {a : Action T} (ha : a.isControl = false) (hs : s.step m a = some s') :
    Aside s a s' := by
  -- a worker is moved by its own step, or out of its sleep by a push
  cases a with
  | start | spawn | pushBack | stop | join => cases ha
  | run task =>
    obtain rfl := State.run_cases hs
    exact ⟨rfl, rfl, rfl, Or.inl rfl⟩
  | enter c =>
    obtain ⟨task, pc, -, rfl, -⟩ := State.enter_cases hs
    exact ⟨rfl, rfl, rfl, Or.inl rfl⟩
  | push c notified =>
    obtain ⟨task, pc, -, -, ⟨-, rfl⟩ | ⟨-, workers, hn, rfl⟩⟩ := State.push_cases hs
    · exact ⟨rfl, rfl, rfl, Or.inl rfl⟩
    · refine ⟨rfl, rfl, rfl, ?_⟩
      -- nobody sleeps, or one that does is notified
      rcases CondVar.notifyOne_cases hn with ⟨rfl, -⟩ | ⟨w, p, hw, hwait, rfl⟩
      · exact Or.inl rfl
      · exact Or.inr ⟨w, p, _, hw, rfl, Or.inr hwait, nofun⟩
  | wakeCall c =>
    obtain ⟨task, -, rfl⟩ := State.wakeCall_cases hs
    exact ⟨rfl, rfl, rfl, Or.inl rfl⟩
  | endCall c =>
    obtain ⟨t, -, rfl⟩ := State.endCall_cases hs
    exact ⟨rfl, rfl, rfl, Or.inl rfl⟩
  | test w =>
    obtain ⟨hw, rfl⟩ := State.test_cases hs
    refine ⟨rfl, rfl, rfl, Or.inr ⟨w, _, _, hw, rfl, Or.inl rfl, fun hexit => ?_⟩⟩
    -- it leaves the loop only when it finds `running_` false
    split at hexit
    · cases hexit
    · next hr => exact Bool.eq_false_iff.mpr hr
  | take w notified =>
    obtain ⟨worker, hw, -, ⟨-, -, rfl⟩ | ⟨-, -, rfl⟩ | ⟨task, queue_, calls, -, -, rfl⟩⟩ :=
      State.take_cases hs
    · exact ⟨rfl, rfl, rfl, Or.inr ⟨w, _, _, hw, rfl, Or.inl rfl, nofun⟩⟩
    · exact ⟨rfl, rfl, rfl, Or.inr ⟨w, _, _, hw, rfl, Or.inl rfl, nofun⟩⟩
    · exact ⟨rfl, rfl, rfl, Or.inr ⟨w, _, _, hw, rfl, Or.inl rfl, nofun⟩⟩
  | wake w =>
    obtain ⟨hw, rfl⟩ := State.wake_cases hs
    exact ⟨rfl, rfl, rfl, Or.inr ⟨w, _, _, hw, rfl, Or.inl rfl, nofun⟩⟩
  | exec w =>
    rcases State.exec_cases hs with ⟨hw, rfl⟩ | ⟨t, hw, rfl⟩
    · exact ⟨rfl, rfl, rfl, Or.inr ⟨w, _, _, hw, rfl, Or.inl rfl, nofun⟩⟩
    · exact ⟨rfl, rfl, rfl, Or.inr ⟨w, _, _, hw, rfl, Or.inl rfl, nofun⟩⟩
  | finish w =>
    obtain ⟨t, hw, rfl⟩ := State.finish_cases hs
    exact ⟨rfl, rfl, rfl, Or.inr ⟨w, _, _, hw, rfl, Or.inl rfl, nofun⟩⟩

/-- All other steps leave alone what the controlling thread works on. -/
theorem State.step_frame {a : Action T} (ha : a.isControl = false) (hs : s.step m a = some s') :
    s'.running_ = s.running_ ∧ s'.threads_ = s.threads_ ∧ s'.control = s.control ∧
      s'.workers.length = s.workers.length := by
  have haside := State.aside ha hs
  refine ⟨haside.running_, haside.threads_, haside.control, ?_⟩
  rcases haside.workers with hsame | ⟨w, p, p', -, hset, -, -⟩
  · rw [hsame]
  · rw [hset, List.length_set]

/-- While the pool runs, no worker leaves. -/
theorem State.exited_of_step {a : Action T} {w : Nat} (ha : a.isControl = false)
    (hr : s.running_ = true) (hs : s.step m a = some s')
    (hw : s'.workers[w]? = some .exited) : s.workers[w]? = some .exited := by
  rcases (State.aside ha hs).workers with hsame | ⟨w', p, p', -, hset, -, hexit⟩
  · rw [← hsame, hw]
  · rw [hset] at hw
    rcases getElem?_set_cases hw with ⟨-, rfl⟩ | ⟨-, hold⟩
    · rw [hr] at hexit
      cases hexit rfl
    · exact hold

/-- A worker that does not sleep is left alone by the steps of everybody else. -/
theorem State.step_other {w : Nat} {q : Worker T} (hw : s.workers[w]? = some q)
    (hq : notEmpty_.waiting q = false) {a : Action T} (ha : a.worker ≠ some w)
    (hs : s.step m a = some s') : s'.workers[w]? = some q := by
  cases hctl : a.isControl with
  | false =>
    rcases (State.aside hctl hs).workers with hsame | ⟨w', p, p', hp, hset, hmoves, -⟩
    · rw [hsame, hw]
    -- the worker that moves does so itself, or had been asleep
    · have hne : w' ≠ w := by
        rintro rfl
        rcases hmoves with hmoves | hwait
        · exact ha hmoves
        · rw [hw] at hp
          cases hp
          rw [hq] at hwait
          cases hwait
      rw [hset, List.getElem?_set_ne hne, hw]
  | true =>
    -- `stop` wakes who sleeps; a new worker comes in behind the others
    cases a with
    | start n =>
      obtain ⟨-, rfl⟩ := State.start_cases hs
      exact hw
    | spawn =>
      rcases State.spawn_cases hs with ⟨-, rfl⟩ | ⟨turns, -, rfl⟩
      · exact hw
      · exact List.getElem?_append_left (List.getElem?_eq_some_iff.mp hw).1 ▸ hw
    | pushBack =>
      obtain ⟨worker, turns, -, rfl⟩ := State.pushBack_cases hs
      exact hw
    | stop =>
      obtain ⟨-, rfl⟩ := State.stop_cases hs
      exact CondVar.getElem?_notifyAll hw hq
    | join =>
      obtain ⟨i, -, ⟨-, rfl⟩ | ⟨thread, -, ⟨-, rfl⟩ | ⟨-, -, rfl⟩⟩⟩ := State.join_cases hs
      · exact hw
      · exact hw
      · exact hw
    | _ => cases hctl

/-- A worker that takes a step is at a point where it can: not at the end, and with a task in
its hands only if it is about to begin it. -/
theorem State.step_worker {w : Nat} {q : Worker T} (hw : s.workers[w]? = some q) {a : Action T}
    (ha : a.worker = some w) (hs : s.step m a = some s') :
    q ≠ .exited ∧ ∀ task, q = .took task → a = .exec w := by
  -- the steps of one worker, each from one place only
  cases a with
  | test w' =>
    obtain rfl : w' = w := Option.some.inj ha
    obtain ⟨hw', -⟩ := State.test_cases hs
    rw [hw] at hw'
    cases hw'
    simp
  | take w' notified =>
    obtain rfl : w' = w := Option.some.inj ha
    obtain ⟨worker, hw', hl, -⟩ := State.take_cases hs
    rw [hw] at hw'
    cases hw'
    constructor
    · rintro rfl
      cases hl
    · rintro task rfl
      cases hl
  | wake w' =>
    obtain rfl : w' = w := Option.some.inj ha
    obtain ⟨hw', -⟩ := State.wake_cases hs
    rw [hw] at hw'
    cases hw'
    simp
  | exec w' =>
    obtain rfl : w' = w := Option.some.inj ha
    refine ⟨?_, fun _ _ => rfl⟩
    rintro rfl
    rcases State.exec_cases hs with ⟨hw', -⟩ | ⟨t, hw', -⟩
    · rw [hw] at hw'
      cases hw'
    · rw [hw] at hw'
      cases hw'
  | finish w' =>
    obtain rfl : w' = w := Option.some.inj ha
    obtain ⟨t, hw', -⟩ := State.finish_cases hs
    rw [hw] at hw'
    cases hw'
    simp
  | _ => cases ha

/-- Once a worker has left `runInThread` it stays so. -/
theorem State.exited_step {w : Nat} (hw : s.workers[w]? = some .exited) {a : Action T}
    (hs : s.step m a = some s') : s'.workers[w]? = some .exited := by
  by_cases ha : a.worker = some w
  · exact absurd rfl (State.step_worker hw ha hs).1
  · exact State.step_other hw rfl ha hs

end Steps

end CppDone.Net.ThreadPool
