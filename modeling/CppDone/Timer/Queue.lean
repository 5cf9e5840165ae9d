import CppDone.Lib.Machine
import CppDone.Lib.Agenda
import Mathlib.Algebra.Order.Ring.Nat

/-!
# The timer task queue

`TimerTaskQueue`, one step at a time: the threads that call it, the worker threads, the table of
delayed events under `delay_event_lock_`, the clock, and what the queue uses of the
`io_context` and of its timer. Of these two the model takes what is documented: `cancel` and
`expires_from_now` complete a pending wait with an error code, a wait that has expired completes
without one, a completed wait and a posted event are handlers that stay ready until a worker runs
them, no handler is started while the context is stopped, and `restart` only makes it run again.
Which ready handler a worker takes, and when `run_for` gives up, is left open.

Time is in nanoseconds. An event is named by its place in the history, where its acceptance is
recorded; a critical section that does one thing to the table is one step. The table of thread
times is not modelled: nothing reads it.
-/

set_option autoImplicit false

namespace CppDone.Timer

/-! ## The `io_context` and its timer

What is used of the library. Handlers that are ready are a list, from which a worker takes any; a
wait completes with an error code when it is cancelled or the expiry is set anew. -/

/-- What is posted to the context: the completion of a wait, and the events themselves. -/
inductive Handler where
  | check (error : Bool)  -- `CheckDelayedEventCallback`, with an error code or without
  | event (e : Nat)
deriving DecidableEq, Repr

/-- The handlers that are ready and the waits that are not; a context that is stopped hands out
neither. -/
structure IoContext where
  stopped : Bool
  ready : List Handler
  /-- The pending waits of `check_delayed_event_timer_`. -/
  waits : Nat
  expiry : Nat
deriving DecidableEq, Repr

namespace IoContext

variable (io : IoContext)

def restart : IoContext := { io with stopped := false }

def stop : IoContext := { io with stopped := true }

def post (h : Handler) : IoContext := { io with ready := io.ready ++ [h] }

/-- Every pending wait completes. -/
def complete (error : Bool) : IoContext :=
  { io with ready := io.ready ++ List.replicate io.waits (.check error), waits := 0 }

def cancel : IoContext := io.complete true

def expiresAt (t : Nat) : IoContext := { io.cancel with expiry := t }

def asyncWait : IoContext := { io with waits := io.waits + 1 }

end IoContext

/-! ## The state

The fields of the queue, the places of its threads, and a history for the statements. Time is in
nanoseconds, and nothing but `advance` moves it. -/

abbrev DelayedEventTab := Agenda Nat Nat

/-- Where a calling thread is. Each place is in front of a step that others can see, `startlock`
included. -/
inductive Caller where
  | idle
  | startLock (thread_num : Nat)  -- in `Start`, at `startlock.lock()`
  | restart (thread_num : Nat)
  | spawn (left : Nat)  -- in the loop, with so many threads to go
  | await  -- in `Start`, at `async_wait`
  | start  -- at `stoped_ = false`
  | stopLock  -- in `Stop`, at `startlock.lock()`
  | stop  -- at `stoped_ = true`
  | cancel
  | halt  -- at `io_context_.stop()`
  | join
  | unlock  -- at `startlock.unlock()`
  | now (delayed_second : Nat)  -- in `PostDelayedEvent`, before it reads the clock
  | insert (timeout : Nat)
deriving DecidableEq, Repr

/-- Where a worker thread is. Between the reading of the clock and the lock of the table others may
go on. -/
inductive Worker where
  | looping  -- at `while (!io_context_.stopped())`
  | running  -- in `run_for`, without a handler
  | event (e : Nat)
  | clear  -- in `CheckDelayedEventCallback`, with an error code
  | now  -- without one, before it reads the clock
  | lock (curr_time : Nat)
  | check (curr_time : Nat)  -- at the head of the outer loop
  | post (curr_time : Nat) (rest : List Nat)  -- in the inner loop
  | expires  -- at `expires_from_now`
  | wait  -- at `async_wait`
  | exited
deriving DecidableEq, Repr

/-- Where a worker is that starts a handler. -/
def Handler.execute : Handler → Worker
  | .check true => .clear
  | .check false => .now
  | .event e => .event e

/-- What is recorded of a run. Its position is the name of the event that it accepts; `posted` has
the reading of the tick. -/
inductive Event where
  | started (thread_num : Nat)
  | stopped
  | accepted (timeout : Nat)
  | cleared  -- by `ClearDelayedEvent`
  | posted (e curr_time : Nat)
deriving DecidableEq, Repr

/-- `delay_eventtab_` maps deadlines to events, and `hist` is for the statements only. -/
structure State where
  stoped_ : Bool
  startlock : Bool
  worker_threads_ : List Worker
  io_context_ : IoContext
  /-- The worker that has it locked. -/
  delay_event_lock_ : Option Nat
  delay_eventtab_ : DelayedEventTab
  clock : Nat
  callers : List Caller
  hist : List Event
deriving DecidableEq

/-- Any caller may begin any call when it is idle. Time goes on by as much as one likes, and a wait
expires when the clock has come to the expiry. -/
inductive Action where
  | start (c thread_num : Nat)
  | stop (c : Nat)
  | postDelayedEvent (c delayed_second : Nat)
  | clearDelayedEvent (c : Nat)
  | next (c : Nat)  -- caller `c` goes on in its call
  | test (w : Nat)
  | take (w i : Nat)
  | leave (w : Nat)  -- `run_for` returns
  | work (w : Nat)  -- worker `w` goes on in its handler
  | expire
  | advance (d : Nat)
deriving DecidableEq, Repr

def seconds (n : Nat) : Nat := n * 10 ^ 9

namespace State

variable (s : State)

def goto (c : Nat) (pc : Caller) : State := { s with callers := s.callers.set c pc }

def workerGoto (w : Nat) (pc : Worker) : State :=
  { s with worker_threads_ := s.worker_threads_.set w pc }

def log (ev : Event) : State := { s with hist := s.hist ++ [ev] }

/-! ## The calling threads

`Start`, `Stop` and `PostDelayedEvent` test `stoped_` first, before they take any lock. Between that
test and the lock another call may come through. `ClearDelayedEvent` tests nothing, and is one
section of the table's lock. -/

/-- `Start`, as far as its test of `stoped_`. -/
def start (c thread_num : Nat) : Option State :=
  match s.callers[c]? with
  | some .idle => some (if s.stoped_ then s.goto c (.startLock thread_num) else s)
  | _ => none

/-- `Stop`, as far as its test of `stoped_`. -/
def stop (c : Nat) : Option State :=
  match s.callers[c]? with
  | some .idle => some (if s.stoped_ then s else s.goto c .stopLock)
  | _ => none

/-- `PostDelayedEvent`, as far as its test of `stoped_`. -/
def postDelayedEvent (c delayed_second : Nat) : Option State :=
  match s.callers[c]? with
  | some .idle => some (if s.stoped_ then s else s.goto c (.now delayed_second))
  | _ => none

def clearDelayedEvent (c : Nat) : Option State :=
  match s.callers[c]? with
  | some .idle =>
    if s.delay_event_lock_ = none then
      let s' : State := { s with delay_eventtab_ := Agenda.empty }
      some (s'.log .cleared)
    else none
  | _ => none

/-- The next step of caller `c`, who is at `pc`. -/
def nextAt (c : Nat) (pc : Caller) : Option State :=
  match pc with
  | .idle => none
  | .startLock thread_num =>
    if s.startlock then none
    else
      let s' : State := { s with startlock := true }
      some ((s'.log (.started thread_num)).goto c (.restart thread_num))
  | .restart thread_num =>
    let io := if s.io_context_.stopped then s.io_context_.restart else s.io_context_
    let s' : State := { s with io_context_ := io }
    some (s'.goto c (.spawn thread_num))
  | .spawn (left + 1) =>
    let s' : State := { s with worker_threads_ := s.worker_threads_ ++ [.looping] }
    some (s'.goto c (.spawn left))
  | .spawn 0 =>
    let s' : State := { s with io_context_ := s.io_context_.expiresAt (s.clock + seconds 1) }
    some (s'.goto c .await)
  | .await =>
    let s' : State := { s with io_context_ := s.io_context_.asyncWait }
    some (s'.goto c .start)
  | .start =>
    let s' : State := { s with stoped_ := false }
    some (s'.goto c .unlock)
  | .stopLock =>
    if s.startlock then none
    else
      let s' : State := { s with startlock := true }
      some (s'.goto c .stop)
  | .stop =>
    let s' : State := { s with stoped_ := true }
    some ((s'.log .stopped).goto c .cancel)
  | .cancel =>
    let s' : State := { s with io_context_ := s.io_context_.cancel }
    some (s'.goto c .halt)
  | .halt =>
    let s' : State := { s with io_context_ := s.io_context_.stop }
    some (s'.goto c .join)
  | .join =>
    -- the joins return once every worker has left its loop
    if s.worker_threads_.all (· = .exited) then
      let s' : State := { s with worker_threads_ := [] }
      some (s'.goto c .unlock)
    else none
  | .unlock =>
    let s' : State := { s with startlock := false }
    some (s'.goto c .idle)
  | .now delayed_second => some (s.goto c (.insert (s.clock + seconds delayed_second)))
  | .insert timeout =>
    if s.delay_event_lock_ = none then
      let s' : State := { s with delay_eventtab_ := s.delay_eventtab_.push timeout s.hist.length }
      some ((s'.log (.accepted timeout)).goto c .idle)
    else none

def next (c : Nat) : Option State :=
  match s.callers[c]? with
  | some pc => s.nextAt c pc
  | none => none

/-! ## The worker threads

A worker takes the handlers that are ready, one at a time. The handler of the timer checks the table
and begins the next wait. -/

/-- `while (!io_context_.stopped())`. -/
def test (w : Nat) : Option State :=
  match s.worker_threads_[w]? with
  | some .looping => some (s.workerGoto w (if s.io_context_.stopped then .exited else .running))
  | _ => none

/-- `run_for` runs the `i`-th ready handler. -/
def take (w i : Nat) : Option State :=
  match s.worker_threads_[w]?, s.io_context_.ready[i]? with
  | some .running, some h =>
    if s.io_context_.stopped then none
    else
      let io : IoContext := { s.io_context_ with ready := s.io_context_.ready.eraseIdx i }
      let s' : State := { s with io_context_ := io }
      some (s'.workerGoto w h.execute)
  | _, _ => none

def leave (w : Nat) : Option State :=
  match s.worker_threads_[w]? with
  | some .running => some (s.workerGoto w .looping)
  | _ => none

/-- `PostEvent` out of the tick of worker `w`. -/
def postEvent (e curr_time : Nat) : State :=
  if s.stoped_ then s
  else
    let s' : State := { s with io_context_ := s.io_context_.post (.event e) }
    s'.log (.posted e curr_time)

/-- The next step of worker `w`, who is at `pc` in a handler. -/
def workAt (w : Nat) (pc : Worker) : Option State :=
  match pc with
  | .looping | .running | .exited => none
  | .event _ => some (s.workerGoto w .running)
  | .clear =>
    if s.delay_event_lock_ = none then
      let s' : State := { s with delay_eventtab_ := Agenda.empty }
      some (s'.workerGoto w .running)
    else none
  | .now => some (s.workerGoto w (.lock s.clock))
  | .lock curr_time =>
    if s.delay_event_lock_ = none then
      let s' : State := { s with delay_event_lock_ := some w }
      some (s'.workerGoto w (.check curr_time))
    else none
  | .check curr_time =>
    let done : State := { s with delay_event_lock_ := none }
    match s.delay_eventtab_.first with
    | some (timeout, events) =>
      if timeout ≤ curr_time then some (s.workerGoto w (.post curr_time events))
      else some (done.workerGoto w .expires)  -- `break`
    | none => some (done.workerGoto w .expires)
  | .post curr_time (e :: rest) =>
    some ((s.postEvent e curr_time).workerGoto w (.post curr_time rest))
  | .post curr_time [] =>
    let s' : State := { s with delay_eventtab_ := s.delay_eventtab_.dropFirst }
    some (s'.workerGoto w (.check curr_time))
  | .expires =>
    let s' : State := { s with io_context_ := s.io_context_.expiresAt (s.clock + seconds 1) }
    some (s'.workerGoto w .wait)
  | .wait =>
    let s' : State := { s with io_context_ := s.io_context_.asyncWait }
    some (s'.workerGoto w .running)

def work (w : Nat) : Option State :=
  match s.worker_threads_[w]? with
  | some pc => s.workAt w pc
  | none => none

/-- The timer expires, for every wait on it. -/
def expire : Option State :=
  if s.io_context_.expiry ≤ s.clock then
    some { s with io_context_ := s.io_context_.complete false }
  else none

def step : Action → Option State
  | .start c thread_num => s.start c thread_num
  | .stop c => s.stop c
  | .postDelayedEvent c delayed_second => s.postDelayedEvent c delayed_second
  | .clearDelayedEvent c => s.clearDelayedEvent c
  | .next c => s.next c
  | .test w => s.test w
  | .take w i => s.take w i
  | .leave w => s.leave w
  | .work w => s.work w
  | .expire => s.expire
  | .advance d => some { s with clock := s.clock + d }

end State

/-- A queue with `n` threads that call it. -/
def queue (n : Nat) : Machine State Action where
  init :=
    { stoped_ := true, startlock := false, worker_threads_ := [],
      io_context_ := { stopped := false, ready := [], waits := 0, expiry := 0 },
      delay_event_lock_ := none, delay_eventtab_ := Agenda.empty, clock := 0,
      callers := List.replicate n .idle, hist := [] }
  step := State.step
/-! ## What each step does

One lemma for each step that is more than a change of place. -/

section Steps

variable {s s' : State} {c w : Nat}

theorem State.start_cases {thread_num : Nat} (h : s.start c thread_num = some s') :
    s.callers[c]? = some .idle ∧
      (s' = s ∨ s.stoped_ = true ∧ s' = s.goto c (.startLock thread_num)) := by
  unfold State.start at h
  split at h
  · next hc =>
    refine ⟨hc, ?_⟩
    split at h
    · next hs => exact Or.inr ⟨hs, (Option.some.inj h).symm⟩
    · exact Or.inl (Option.some.inj h).symm
  · cases h

theorem State.stop_cases (h : s.stop c = some s') :
    s.callers[c]? = some .idle ∧ (s' = s ∨ s.stoped_ = false ∧ s' = s.goto c .stopLock) := by
  unfold State.stop at h
  split at h
  · next hc =>
    refine ⟨hc, ?_⟩
    split at h
    · exact Or.inl (Option.some.inj h).symm
    · next hs => exact Or.inr ⟨eq_false_of_ne_true hs, (Option.some.inj h).symm⟩
  · cases h

theorem State.postDelayedEvent_cases {delayed_second : Nat}
    (h : s.postDelayedEvent c delayed_second = some s') :
    s.callers[c]? = some .idle ∧
      (s' = s ∨ s.stoped_ = false ∧ s' = s.goto c (.now delayed_second)) := by
  unfold State.postDelayedEvent at h
  split at h
  · next hc =>
    refine ⟨hc, ?_⟩
    split at h
    · exact Or.inl (Option.some.inj h).symm
    · next hs => exact Or.inr ⟨eq_false_of_ne_true hs, (Option.some.inj h).symm⟩
  · cases h

theorem State.clearDelayedEvent_cases (h : s.clearDelayedEvent c = some s') :
    s.callers[c]? = some .idle ∧ s.delay_event_lock_ = none ∧
      s' = ({ s with delay_eventtab_ := Agenda.empty } : State).log .cleared := by
  unfold State.clearDelayedEvent at h
  split at h
  · next hc =>
    split at h
    · next hl => exact ⟨hc, hl, (Option.some.inj h).symm⟩
    · cases h
  · cases h

theorem State.next_cases (h : s.next c = some s') :
    ∃ pc, s.callers[c]? = some pc ∧ s.nextAt c pc = some s' := by
  unfold State.next at h
  split at h
  · next pc hc => exact ⟨pc, hc, h⟩
  · cases h

theorem State.insert_cases {timeout : Nat} (h : s.nextAt c (.insert timeout) = some s') :
    s.delay_event_lock_ = none ∧
      s' = (({ s with
                delay_eventtab_ := s.delay_eventtab_.push timeout s.hist.length } : State).log
              (.accepted timeout)).goto c .idle := by
  unfold State.nextAt at h
  dsimp only at h
  split at h
  · next hl => exact ⟨hl, (Option.some.inj h).symm⟩
  · cases h

/-! ### The workers

A worker that is not in a handler tests the context, takes a handler or returns from `run_for`.
Inside of a handler there is one next step. -/

theorem State.test_cases (h : s.test w = some s') :
    s.worker_threads_[w]? = some .looping ∧
      (s' = s.workerGoto w .exited ∨ s' = s.workerGoto w .running) := by
  unfold State.test at h
  split at h
  · next hw =>
    refine ⟨hw, ?_⟩
    split at h
    · exact Or.inl (Option.some.inj h).symm
    · exact Or.inr (Option.some.inj h).symm
  · cases h

theorem State.take_cases {i : Nat} (h : s.take w i = some s') :
    ∃ handler, s.worker_threads_[w]? = some .running ∧
      s.io_context_.ready[i]? = some handler ∧ s.io_context_.stopped = false ∧
      s' = ({ s with io_context_ := { s.io_context_ with
                                      ready := s.io_context_.ready.eraseIdx i } } :
              State).workerGoto w handler.execute := by
  unfold State.take at h
  split at h
  · next handler hw hi =>
    split at h
    · cases h
    · next hs => exact ⟨handler, hw, hi, eq_false_of_ne_true hs, (Option.some.inj h).symm⟩
  · cases h

theorem State.leave_cases (h : s.leave w = some s') :
    s.worker_threads_[w]? = some .running ∧ s' = s.workerGoto w .looping := by
  unfold State.leave at h
  split at h
  · next hw => exact ⟨hw, (Option.some.inj h).symm⟩
  · cases h

theorem State.work_cases (h : s.work w = some s') :
    ∃ pc, s.worker_threads_[w]? = some pc ∧ s.workAt w pc = some s' := by
  unfold State.work at h
  split at h
  · next pc hw => exact ⟨pc, hw, h⟩
  · cases h

theorem State.clear_cases (h : s.workAt w .clear = some s') :
    s.delay_event_lock_ = none ∧
      s' = ({ s with delay_eventtab_ := Agenda.empty } : State).workerGoto w .running := by
  unfold State.workAt at h
  dsimp only at h
  split at h
  · next hl => exact ⟨hl, (Option.some.inj h).symm⟩
  · cases h

theorem State.lock_cases {curr_time : Nat} (h : s.workAt w (.lock curr_time) = some s') :
    s.delay_event_lock_ = none ∧
      s' = ({ s with delay_event_lock_ := some w } : State).workerGoto w (.check curr_time) := by
  unfold State.workAt at h
  dsimp only at h
  split at h
  · next hl => exact ⟨hl, (Option.some.inj h).symm⟩
  · cases h

/-- The tick goes into the first entry if that is due, and leaves the table otherwise. -/
theorem State.check_cases {curr_time : Nat} (h : s.workAt w (.check curr_time) = some s') :
    (∃ timeout events, s.delay_eventtab_.first = some (timeout, events) ∧ timeout ≤ curr_time ∧
        s' = s.workerGoto w (.post curr_time events)) ∨
      (∀ timeout events, s.delay_eventtab_.first = some (timeout, events) →
          curr_time < timeout) ∧
        s' = ({ s with delay_event_lock_ := none } : State).workerGoto w .expires := by
  unfold State.workAt at h
  dsimp only at h
  split at h
  · next timeout events hfirst =>
    split at h
    · next hdue => exact Or.inl ⟨timeout, events, hfirst, hdue, (Option.some.inj h).symm⟩
    · next hdue =>
      refine Or.inr ⟨?_, (Option.some.inj h).symm⟩
      intro timeout' events' hfirst'
      obtain ⟨rfl, -⟩ := Prod.mk.inj (Option.some.inj (hfirst.symm.trans hfirst'))
      exact Nat.lt_of_not_le hdue
  · next hfirst =>
    refine Or.inr ⟨?_, (Option.some.inj h).symm⟩
    intro timeout events hfirst'
    cases hfirst.symm.trans hfirst'

/-- `PostEvent` does nothing to a queue that is stopped. -/
theorem State.postEvent_cases (s : State) (e curr_time : Nat) :
    s.stoped_ = true ∧ s.postEvent e curr_time = s ∨
      s.stoped_ = false ∧ s.postEvent e curr_time =
        ({ s with io_context_ := s.io_context_.post (.event e) } : State).log
          (.posted e curr_time) := by
  unfold State.postEvent
  split
  · next hs => exact Or.inl ⟨hs, rfl⟩
  · next hs => exact Or.inr ⟨eq_false_of_ne_true hs, rfl⟩

theorem State.expire_cases (h : s.expire = some s') :
    s.io_context_.expiry ≤ s.clock ∧
      s' = { s with io_context_ := s.io_context_.complete false } := by
  unfold State.expire at h
  split at h
  · next hc => exact ⟨hc, (Option.some.inj h).symm⟩
  · cases h

end Steps

end CppDone.Timer
