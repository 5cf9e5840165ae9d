import CppDone.Lib.Machine

/-!
# `NetlinkProcMon`

The process monitor of `netlink_proc_mon.cpp` as a machine. Three threads take part: the
controller, which calls `Start` and `Stop`; the receiver thread `ProcEvProducerThread_`; and the
dispatcher thread `CallbackDispatchThread_`. A thread object that is not joinable is `none`. The
socket, the subscription and the creation of a thread may fail, and `recv` may return anything;
what happens is in the label of the step.

A section under `ProcEvQueueMutex_` is one step, ended by the release of the mutex or by blocking
in `ProcEvQueueCv_.wait`. That wait is not in a loop: whatever wakes the dispatcher, it goes on
with what is queued then. Assigning to a joinable `std::thread` ends the process, so no step does
it. What the callbacks do with an event is left out.
-/

set_option autoImplicit false

namespace CppDone.Netlink

/-- `proc_event::what`, as far as the receiver tells one from the other. Everything else is taken in
and forgotten. -/
inductive What where
  | FORK
  | EXEC
  | EXIT
  | other
deriving DecidableEq, Repr

structure ProcEvent (D : Type) where
  what : What
  event_data : D
deriving DecidableEq, Repr

/-- What a `recv` returned. A time-out is one of the results that send the receiver back to its
test. -/
inductive Recv (D : Type) where
  | event (ev : ProcEvent D)
  | shutdown  -- 0
  | again  -- -1 with `EINTR`, `ENOBUFS` or `EAGAIN`
  | error
deriving DecidableEq, Repr

/-- Where the receiver is in `procEvRecvImpl`. `got` has the one event that is in nobody's queue. -/
inductive Receiver (D : Type) where
  | entry  -- at `netlink_sock_ != INVALID_SOCKET`
  | test  -- at `while (StopThreads_ == false)`
  | recv
  | got (ev : ProcEvent D)  -- about to lock
  | exited
deriving DecidableEq, Repr

/-- Where the dispatcher is in `procEvDispatcherImpl`. In `draining` and `handing` it has a queue of
its own, which nobody else sees. -/
inductive Dispatcher (D : Type) where
  | lock
  | waiting
  | woken (notified : Bool)
  | draining (tempEvQueue : List (ProcEvent D))
  | handing (ev : ProcEvent D) (tempEvQueue : List (ProcEvent D))  -- in `forEachCallback(ev)`
  | exited
deriving DecidableEq, Repr

/-- Where the controller is in `Start` or `Stop`. Calls of `Start` and `Stop` come one after the
other, from one thread. -/
inductive Control where
  | idle
  | connecting
  | subscribing
  | createRecv
  | createDispatcher
  | started  -- at `Started_ = true`
  | unsubscribing
  | joinRecv
  | notifying
  | joinDispatcher
  | closing
deriving DecidableEq, Repr

/-- The members of the class, the threads by where they are, and what was done so far. -/
structure State (D : Type) where
  Started_ : Bool
  StopThreads_ : Bool
  /-- `netlink_sock_ != INVALID_SOCKET`. -/
  netlink_sock_ : Bool
  /-- The kernel was told to send events on the socket. -/
  subscribed : Bool
  ProcEvProducerThread_ : Option (Receiver D)
  CallbackDispatchThread_ : Option (Dispatcher D)
  control : Control
  ProcEvQueue_ : List (ProcEvent D)
  -- what happened so far
  /-- The values `Start` returned. -/
  returned : List Int
  received : List (ProcEvent D)
  pushed : List (ProcEvent D)
  /-- The positions in `pushed` of the events popped for overflow. -/
  dropped : List Nat
  /-- The events handed to `forEachCallback`. -/
  handed : List (ProcEvent D)
deriving DecidableEq, Repr

/-- What the system answers is part of the label: whether a socket, a subscription or a thread could
be had, and what `recv` returned. -/
inductive Action (D : Type) where
  | start
  | connect (socketOk bindOk : Bool)
  | subscribe (sendOk : Bool)
  | createRecv (ok : Bool)
  | createDispatcher (ok : Bool)
  | started
  | stop
  | unsubscribe (sendOk : Bool)
  | joinRecv
  | notify
  | joinDispatcher
  | close
  | enter
  | test
  | recv (r : Recv D)
  | push
  | lock
  | wake
  | resume
  | next
  | handedBack
deriving DecidableEq, Repr

variable {D : Type}

/-- The events the receiver queues. -/
def ProcEvent.queued (ev : ProcEvent D) : Bool :=
  ev.what = .FORK || ev.what = .EXEC || ev.what = .EXIT

/-- `ProcEvQueueCv_.notify_all()`, seen from the dispatcher. -/
def Dispatcher.notify : Dispatcher D → Dispatcher D
  | .waiting => .woken true
  | d => d

namespace State

def init : State D where
  Started_ := false
  StopThreads_ := false
  netlink_sock_ := false
  subscribed := false
  ProcEvProducerThread_ := none
  CallbackDispatchThread_ := none
  control := .idle
  ProcEvQueue_ := []
  returned := []
  received := []
  pushed := []
  dropped := []
  handed := []

variable (s : State D)

/-! ### `Start`

Each step of it may fail by itself, and the label says so. Where it gives up it closes what it has
opened. -/

def start : Option (State D) :=
  if s.control = .idle then
    if s.Started_ then some { s with returned := s.returned ++ [0] }
    else some { s with control := .connecting }
  else none

/-- `connectToProcNetlink`. A socket that cannot be bound is closed again. -/
def connect (socketOk bindOk : Bool) : Option (State D) :=
  if s.control = .connecting then
    if s.netlink_sock_ then some { s with control := .subscribing }
    else if socketOk && bindOk then some { s with netlink_sock_ := true, control := .subscribing }
    else some { s with control := .idle, returned := s.returned ++ [-1] }
  else none

/-- `subscribeToProcNetlink`, and `closeProcNetlink` if it fails. -/
def subscribe (sendOk : Bool) : Option (State D) :=
  if s.control = .subscribing then
    if s.netlink_sock_ && sendOk then
      some { s with subscribed := true, control := .createRecv }
    else
      some { s with netlink_sock_ := false, subscribed := false, control := .idle,
                    returned := s.returned ++ [-1] }
  else none

/-- The first thread of the `try` block. An exception goes to the empty handler. -/
def createRecv (ok : Bool) : Option (State D) :=
  if s.control = .createRecv then
    if ok then
      match s.ProcEvProducerThread_ with
      | none =>
        some { s with ProcEvProducerThread_ := some .entry, control := .createDispatcher }
      | some _ => none
    else some { s with control := .started }
  else none

def createDispatcher (ok : Bool) : Option (State D) :=
  if s.control = .createDispatcher then
    if ok then
      match s.CallbackDispatchThread_ with
      | none => some { s with CallbackDispatchThread_ := some .lock, control := .started }
      | some _ => none
    else some { s with control := .started }
  else none

def started : Option (State D) :=
  if s.control = .started then
    some { s with Started_ := true, control := .idle, returned := s.returned ++ [0] }
  else none

/-! ### `Stop`

The flag first, then the receiver, then the notification and the dispatcher, and the socket last. -/

def stop : Option (State D) :=
  if s.control = .idle then
    if s.Started_ then some { s with StopThreads_ := true, control := .unsubscribing }
    else some s
  else none

/-- `unSubscribeToProcNetlink`, whose result nobody looks at. -/
def unsubscribe (sendOk : Bool) : Option (State D) :=
  if s.control = .unsubscribing then
    some { s with subscribed := s.subscribed && !(s.netlink_sock_ && sendOk),
                  control := .joinRecv }
  else none

/-- Blocks until the receiver has exited, if there is one. -/
def joinRecv : Option (State D) :=
  if s.control = .joinRecv then
    match s.ProcEvProducerThread_ with
    | none | some .exited => some { s with ProcEvProducerThread_ := none, control := .notifying }
    | some _ => none
  else none

def notify : Option (State D) :=
  if s.control = .notifying then
    some { s with CallbackDispatchThread_ := s.CallbackDispatchThread_.map Dispatcher.notify,
                  control := .joinDispatcher }
  else none

def joinDispatcher : Option (State D) :=
  if s.control = .joinDispatcher then
    match s.CallbackDispatchThread_ with
    | none | some .exited => some { s with CallbackDispatchThread_ := none, control := .closing }
    | some _ => none
  else none

def close : Option (State D) :=
  if s.control = .closing then
    some { s with netlink_sock_ := false, subscribed := false, StopThreads_ := false,
                  Started_ := false, control := .idle }
  else none

/-! ### `procEvRecvImpl`

One turn of the loop is a `recv`, whose result decides, and a push under the mutex. -/

def enter : Option (State D) :=
  match s.ProcEvProducerThread_ with
  | some .entry =>
    some { s with ProcEvProducerThread_ := some (if s.netlink_sock_ then .test else .exited) }
  | _ => none

/-- `while (StopThreads_ == false)`. -/
def test : Option (State D) :=
  match s.ProcEvProducerThread_ with
  | some .test =>
    some { s with ProcEvProducerThread_ := some (if s.StopThreads_ then .exited else .recv) }
  | _ => none

def recv (r : Recv D) : Option (State D) :=
  match s.ProcEvProducerThread_ with
  | some .recv =>
    match r with
    | .event ev =>
      if ev.queued then
        some { s with ProcEvProducerThread_ := some (.got ev), received := s.received ++ [ev] }
      else some { s with ProcEvProducerThread_ := some .test }
    | .again => some { s with ProcEvProducerThread_ := some .test }
    | .shutdown | .error => some { s with ProcEvProducerThread_ := some .exited }
  | _ => none

/-- The section of the receiver. With more than the limit queued, the oldest event is popped; its
position is that of the first queued event. -/
def push (kProcEvQueueMaxSize : Nat) : Option (State D) :=
  match s.ProcEvProducerThread_ with
  | some (.got ev) =>
    let s' := { s with ProcEvProducerThread_ := some .test,
                       CallbackDispatchThread_ :=
                         s.CallbackDispatchThread_.map Dispatcher.notify,
                       pushed := s.pushed ++ [ev] }
    if s.ProcEvQueue_.length > kProcEvQueueMaxSize then
      some { s' with ProcEvQueue_ := s.ProcEvQueue_.tail ++ [ev],
                     dropped := s.dropped ++ [s.pushed.length - s.ProcEvQueue_.length] }
    else some { s' with ProcEvQueue_ := s.ProcEvQueue_ ++ [ev] }
  | _ => none

/-! ### `procEvDispatcherImpl`

The dispatcher takes the whole queue at a time and hands its events on without the mutex. It looks
at the flag under the mutex only. -/

/-- The section of the dispatcher, to its end or to the `wait`. -/
def lock : Option (State D) :=
  match s.CallbackDispatchThread_ with
  | some .lock =>
    if s.StopThreads_ then some { s with CallbackDispatchThread_ := some .exited }
    else if s.ProcEvQueue_.length > 0 then
      some { s with CallbackDispatchThread_ := some (.draining s.ProcEvQueue_),
                    ProcEvQueue_ := [] }
    else some { s with CallbackDispatchThread_ := some .waiting }
  | _ => none

/-- The dispatcher wakes up by itself. -/
def wake : Option (State D) :=
  match s.CallbackDispatchThread_ with
  | some .waiting => some { s with CallbackDispatchThread_ := some (.woken false) }
  | _ => none

/-- The rest of the section, after the `wait`. -/
def resume : Option (State D) :=
  match s.CallbackDispatchThread_ with
  | some (.woken _) =>
    some { s with CallbackDispatchThread_ := some (.draining s.ProcEvQueue_), ProcEvQueue_ := [] }
  | _ => none

/-- `while (!tempEvQueue.empty())`, and the front goes to `forEachCallback`. -/
def next : Option (State D) :=
  match s.CallbackDispatchThread_ with
  | some (.draining []) => some { s with CallbackDispatchThread_ := some .lock }
  | some (.draining (ev :: tempEvQueue)) =>
    some { s with CallbackDispatchThread_ := some (.handing ev tempEvQueue),
                  handed := s.handed ++ [ev] }
  | _ => none

def handedBack : Option (State D) :=
  match s.CallbackDispatchThread_ with
  | some (.handing _ tempEvQueue) =>
    some { s with CallbackDispatchThread_ := some (.draining tempEvQueue) }
  | _ => none

def step (kProcEvQueueMaxSize : Nat) : Action D → Option (State D)
  | .start => s.start
  | .connect socketOk bindOk => s.connect socketOk bindOk
  | .subscribe sendOk => s.subscribe sendOk
  | .createRecv ok => s.createRecv ok
  | .createDispatcher ok => s.createDispatcher ok
  | .started => s.started
  | .stop => s.stop
  | .unsubscribe sendOk => s.unsubscribe sendOk
  | .joinRecv => s.joinRecv
  | .notify => s.notify
  | .joinDispatcher => s.joinDispatcher
  | .close => s.close
  | .enter => s.enter
  | .test => s.test
  | .recv r => s.recv r
  | .push => s.push kProcEvQueueMaxSize
  | .lock => s.lock
  | .wake => s.wake
  | .resume => s.resume
  | .next => s.next
  | .handedBack => s.handedBack

end State

def monitor (D : Type) (kProcEvQueueMaxSize : Nat) : Machine (State D) (Action D) where
  init := .init
  step := fun s a => s.step kProcEvQueueMaxSize a

/-! ## What each step does

The guard and the whole change of every step, and two frames behind them. -/

section Steps

variable {s s' : State D}

theorem State.start_cases (h : s.start = some s') :
    s.control = .idle ∧ (s.Started_ = true ∧ s' = { s with returned := s.returned ++ [0] } ∨
      s.Started_ = false ∧ s' = { s with control := .connecting }) := by
  unfold State.start at h
  split at h
  · next hc =>
    refine ⟨hc, ?_⟩
    split at h
    · next hst => exact Or.inl ⟨hst, (Option.some.inj h).symm⟩
    · next hst => exact Or.inr ⟨Bool.eq_false_iff.mpr hst, (Option.some.inj h).symm⟩
  · cases h

/-- A socket that is open already, a new one, or none. -/
theorem State.connect_cases {socketOk bindOk : Bool} (h : s.connect socketOk bindOk = some s') :
    s.control = .connecting ∧
      (s.netlink_sock_ = true ∧ s' = { s with control := .subscribing } ∨
        s.netlink_sock_ = false ∧
          ((socketOk && bindOk) = true ∧
              s' = { s with netlink_sock_ := true, control := .subscribing } ∨
            (socketOk && bindOk) = false ∧
              s' = { s with control := .idle, returned := s.returned ++ [-1] })) := by
  unfold State.connect at h
  split at h
  · next hc =>
    refine ⟨hc, ?_⟩
    split at h
    · next hsock => exact Or.inl ⟨hsock, (Option.some.inj h).symm⟩
    · next hsock =>
      refine Or.inr ⟨Bool.eq_false_iff.mpr hsock, ?_⟩
      split at h
      · next hok => exact Or.inl ⟨hok, (Option.some.inj h).symm⟩
      · next hok => exact Or.inr ⟨Bool.eq_false_iff.mpr hok, (Option.some.inj h).symm⟩
  · cases h

/-- Where the message cannot be sent, the socket is closed again and `Start` returns -1. -/
theorem State.subscribe_cases {sendOk : Bool} (h : s.subscribe sendOk = some s') :
    s.control = .subscribing ∧
      ((s.netlink_sock_ && sendOk) = true ∧
          s' = { s with subscribed := true, control := .createRecv } ∨
        (s.netlink_sock_ && sendOk) = false ∧
          s' = { s with netlink_sock_ := false, subscribed := false, control := .idle,
                        returned := s.returned ++ [-1] }) := by
  unfold State.subscribe at h
  split at h
  · next hc =>
    refine ⟨hc, ?_⟩
    split at h
    · next hok => exact Or.inl ⟨hok, (Option.some.inj h).symm⟩
    · next hok => exact Or.inr ⟨Bool.eq_false_iff.mpr hok, (Option.some.inj h).symm⟩
  · cases h

/-- The receiver is created, or the system has no thread left: then the exception is swallowed, and
the dispatcher is not tried any more. -/
theorem State.createRecv_cases {ok : Bool} (h : s.createRecv ok = some s') :
    s.control = .createRecv ∧
      (ok = true ∧ s.ProcEvProducerThread_ = none ∧
          s' = { s with ProcEvProducerThread_ := some .entry, control := .createDispatcher } ∨
        ok = false ∧ s' = { s with control := .started }) := by
  unfold State.createRecv at h
  split at h
  · next hc =>
    refine ⟨hc, ?_⟩
    split at h
    · next hok =>
      split at h
      · next hnone => exact Or.inl ⟨hok, hnone, (Option.some.inj h).symm⟩
      · cases h
    · next hok => exact Or.inr ⟨Bool.eq_false_iff.mpr hok, (Option.some.inj h).symm⟩
  · cases h

/-- The same with the dispatcher. What comes next is the end of `Start` in either case, and it
returns 0. -/
theorem State.createDispatcher_cases {ok : Bool} (h : s.createDispatcher ok = some s') :
    s.control = .createDispatcher ∧
      (ok = true ∧ s.CallbackDispatchThread_ = none ∧
          s' = { s with CallbackDispatchThread_ := some .lock, control := .started } ∨
        ok = false ∧ s' = { s with control := .started }) := by
  unfold State.createDispatcher at h
  split at h
  · next hc =>
    refine ⟨hc, ?_⟩
    split at h
    · next hok =>
      split at h
      · next hnone => exact Or.inl ⟨hok, hnone, (Option.some.inj h).symm⟩
      · cases h
    · next hok => exact Or.inr ⟨Bool.eq_false_iff.mpr hok, (Option.some.inj h).symm⟩
  · cases h

theorem State.started_cases (h : s.started = some s') :
    s.control = .started ∧
      s' = { s with Started_ := true, control := .idle, returned := s.returned ++ [0] } := by
  unfold State.started at h
  split at h
  · next hc => exact ⟨hc, (Option.some.inj h).symm⟩
  · cases h

/-- Without a `Start` before it, there is nothing to stop. -/
theorem State.stop_cases (h : s.stop = some s') :
    s.control = .idle ∧
      (s.Started_ = true ∧ s' = { s with StopThreads_ := true, control := .unsubscribing } ∨
        s.Started_ = false ∧ s' = s) := by
  unfold State.stop at h
  split at h
  · next hc =>
    refine ⟨hc, ?_⟩
    split at h
    · next hst => exact Or.inl ⟨hst, (Option.some.inj h).symm⟩
    · next hst => exact Or.inr ⟨Bool.eq_false_iff.mpr hst, (Option.some.inj h).symm⟩
  · cases h

theorem State.unsubscribe_cases {sendOk : Bool} (h : s.unsubscribe sendOk = some s') :
    s.control = .unsubscribing ∧
      s' = { s with subscribed := s.subscribed && !(s.netlink_sock_ && sendOk),
                    control := .joinRecv } := by
  unfold State.unsubscribe at h
  split at h
  · next hc => exact ⟨hc, (Option.some.inj h).symm⟩
  · cases h

/-- The join waits for the receiver to leave its loop; a thread that was never created is not waited
for. -/
theorem State.joinRecv_cases (h : s.joinRecv = some s') :
    s.control = .joinRecv ∧
      (s.ProcEvProducerThread_ = none ∨ s.ProcEvProducerThread_ = some .exited) ∧
      s' = { s with ProcEvProducerThread_ := none, control := .notifying } := by
  unfold State.joinRecv at h
  split at h
  · next hc =>
    split at h
    · next hnone => exact ⟨hc, Or.inl hnone, (Option.some.inj h).symm⟩
    · next hexit => exact ⟨hc, Or.inr hexit, (Option.some.inj h).symm⟩
    · cases h
  · cases h

theorem State.notify_cases (h : s.notify = some s') :
    s.control = .notifying ∧
      s' = { s with CallbackDispatchThread_ := s.CallbackDispatchThread_.map Dispatcher.notify,
                    control := .joinDispatcher } := by
  unfold State.notify at h
  split at h
  · next hc => exact ⟨hc, (Option.some.inj h).symm⟩
  · cases h

/-- The same for the dispatcher, which was notified before. -/
theorem State.joinDispatcher_cases (h : s.joinDispatcher = some s') :
    s.control = .joinDispatcher ∧
      (s.CallbackDispatchThread_ = none ∨ s.CallbackDispatchThread_ = some .exited) ∧
      s' = { s with CallbackDispatchThread_ := none, control := .closing } := by
  unfold State.joinDispatcher at h
  split at h
  · next hc =>
    split at h
    · next hnone => exact ⟨hc, Or.inl hnone, (Option.some.inj h).symm⟩
    · next hexit => exact ⟨hc, Or.inr hexit, (Option.some.inj h).symm⟩
    · cases h
  · cases h

theorem State.close_cases (h : s.close = some s') :
    s.control = .closing ∧
      s' = { s with netlink_sock_ := false, subscribed := false, StopThreads_ := false,
                    Started_ := false, control := .idle } := by
  unfold State.close at h
  split at h
  · next hc => exact ⟨hc, (Option.some.inj h).symm⟩
  · cases h

/-! ### The loops

The receiver goes from its test to `recv` and to the push. The dispatcher goes from the lock to its
wait or to the events, and hands them on one by one. -/

theorem State.enter_cases (h : s.enter = some s') :
    s.ProcEvProducerThread_ = some .entry ∧
      s' = { s with
              ProcEvProducerThread_ := some (if s.netlink_sock_ then .test else .exited) } := by
  unfold State.enter at h
  split at h
  · next hp => exact ⟨hp, (Option.some.inj h).symm⟩
  · cases h

theorem State.test_cases (h : s.test = some s') :
    s.ProcEvProducerThread_ = some .test ∧
      s' = { s with
              ProcEvProducerThread_ := some (if s.StopThreads_ then .exited else .recv) } := by
  unfold State.test at h
  split at h
  · next hp => exact ⟨hp, (Option.some.inj h).symm⟩
  · cases h

/-- Either an event is taken in, or the receiver goes on or leaves with nothing in hand. -/
theorem State.recv_cases {r : Recv D} (h : s.recv r = some s') :
    s.ProcEvProducerThread_ = some .recv ∧
      ((∃ ev, r = .event ev ∧ ev.queued = true ∧
          s' = { s with ProcEvProducerThread_ := some (.got ev),
                        received := s.received ++ [ev] }) ∨
        ∃ receiver : Receiver D, (receiver = .test ∨ receiver = .exited) ∧
          s' = { s with ProcEvProducerThread_ := some receiver }) := by
  unfold State.recv at h
  split at h
  · next hp =>
    refine ⟨hp, ?_⟩
    split at h
    · next ev =>
      split at h
      · next hq => exact Or.inl ⟨ev, rfl, hq, (Option.some.inj h).symm⟩
      · exact Or.inr ⟨.test, Or.inl rfl, (Option.some.inj h).symm⟩
    · exact Or.inr ⟨.test, Or.inl rfl, (Option.some.inj h).symm⟩
    · exact Or.inr ⟨.exited, Or.inr rfl, (Option.some.inj h).symm⟩
    · exact Or.inr ⟨.exited, Or.inr rfl, (Option.some.inj h).symm⟩
  · cases h

/-- The event in hand is pushed, behind all that is queued or behind all but the oldest. -/
theorem State.push_cases {M : Nat} (h : s.push M = some s') :
    ∃ ev, s.ProcEvProducerThread_ = some (.got ev) ∧
      ((∃ oldest rest, s.ProcEvQueue_ = oldest :: rest ∧ M < s.ProcEvQueue_.length ∧
          s' = { s with ProcEvProducerThread_ := some .test,
                        CallbackDispatchThread_ :=
                          s.CallbackDispatchThread_.map Dispatcher.notify,
                        pushed := s.pushed ++ [ev], ProcEvQueue_ := rest ++ [ev],
                        dropped := s.dropped ++ [s.pushed.length - s.ProcEvQueue_.length] }) ∨
        s.ProcEvQueue_.length ≤ M ∧
          s' = { s with ProcEvProducerThread_ := some .test,
                        CallbackDispatchThread_ :=
                          s.CallbackDispatchThread_.map Dispatcher.notify,
                        pushed := s.pushed ++ [ev], ProcEvQueue_ := s.ProcEvQueue_ ++ [ev] }) := by
  unfold State.push at h
  split at h
  · next ev hp =>
    refine ⟨ev, hp, ?_⟩
    dsimp only at h
    split at h
    -- the limit is exceeded, so there is an oldest event
    · next hlt =>
      cases hq : s.ProcEvQueue_ with
      | nil =>
        rw [hq] at hlt
        cases hlt
      | cons oldest rest =>
        rw [hq] at h hlt
        exact Or.inl ⟨oldest, rest, rfl, hlt, (Option.some.inj h).symm⟩
    · next hle => exact Or.inr ⟨Nat.le_of_not_lt hle, (Option.some.inj h).symm⟩
  · cases h

/-- The dispatcher leaves, takes all that is queued, or finds nothing and waits. -/
theorem State.lock_cases (h : s.lock = some s') :
    s.CallbackDispatchThread_ = some .lock ∧
      (s.StopThreads_ = true ∧ s' = { s with CallbackDispatchThread_ := some .exited } ∨
        s.StopThreads_ = false ∧
          (s.ProcEvQueue_ ≠ [] ∧
              s' = { s with CallbackDispatchThread_ := some (.draining s.ProcEvQueue_),
                            ProcEvQueue_ := [] } ∨
            s.ProcEvQueue_ = [] ∧ s' = { s with CallbackDispatchThread_ := some .waiting })) := by
  unfold State.lock at h
  split at h
  · next hd =>
    refine ⟨hd, ?_⟩
    split at h
    · next hst => exact Or.inl ⟨hst, (Option.some.inj h).symm⟩
    · next hst =>
      refine Or.inr ⟨Bool.eq_false_iff.mpr hst, ?_⟩
      split at h
      · next hlen =>
        exact Or.inl ⟨List.ne_nil_of_length_pos hlen, (Option.some.inj h).symm⟩
      · next hlen =>
        exact Or.inr ⟨List.length_eq_zero_iff.mp (Nat.eq_zero_of_not_pos hlen),
          (Option.some.inj h).symm⟩
  · cases h

theorem State.wake_cases (h : s.wake = some s') :
    s.CallbackDispatchThread_ = some .waiting ∧
      s' = { s with CallbackDispatchThread_ := some (.woken false) } := by
  unfold State.wake at h
  split at h
  · next hd => exact ⟨hd, (Option.some.inj h).symm⟩
  · cases h

theorem State.resume_cases (h : s.resume = some s') :
    (∃ notified, s.CallbackDispatchThread_ = some (.woken notified)) ∧
      s' = { s with CallbackDispatchThread_ := some (.draining s.ProcEvQueue_),
                    ProcEvQueue_ := [] } := by
  unfold State.resume at h
  split at h
  · next notified hd => exact ⟨⟨notified, hd⟩, (Option.some.inj h).symm⟩
  · cases h

theorem State.next_cases (h : s.next = some s') :
    s.CallbackDispatchThread_ = some (.draining []) ∧
        s' = { s with CallbackDispatchThread_ := some .lock } ∨
      ∃ ev tempEvQueue, s.CallbackDispatchThread_ = some (.draining (ev :: tempEvQueue)) ∧
        s' = { s with CallbackDispatchThread_ := some (.handing ev tempEvQueue),
                      handed := s.handed ++ [ev] } := by
  unfold State.next at h
  split at h
  · next hd => exact Or.inl ⟨hd, (Option.some.inj h).symm⟩
  · next ev tempEvQueue hd => exact Or.inr ⟨ev, tempEvQueue, hd, (Option.some.inj h).symm⟩
  · cases h

/-- The callbacks have all returned, and the dispatcher goes on with the next event of its own
queue. -/
theorem State.handedBack_cases (h : s.handedBack = some s') :
    ∃ ev tempEvQueue, s.CallbackDispatchThread_ = some (.handing ev tempEvQueue) ∧
      s' = { s with CallbackDispatchThread_ := some (.draining tempEvQueue) } := by
  unfold State.handedBack at h
  split at h
  · next ev tempEvQueue hd => exact ⟨ev, tempEvQueue, hd, (Option.some.inj h).symm⟩
  · cases h

end Steps

/-! ## What the loops and the controller leave alone

Most invariants are about one of the two sides. These two lemmas are the other side of each of them.
-/

section Frames

variable {M : Nat} {s s' : State D} {a : Action D}

/-- A step of the receiver or of the dispatcher. -/
def Action.loop : Action D → Bool
  | .enter | .test | .recv _ | .push | .lock | .wake | .resume | .next | .handedBack => true
  | _ => false

/-- A loop creates and joins no thread, and the rest it leaves to the controller. A loop may end by
itself; its thread object is joinable still. -/
structure LoopFrame (s s' : State D) : Prop where
  control : s'.control = s.control
  Started_ : s'.Started_ = s.Started_
  StopThreads_ : s'.StopThreads_ = s.StopThreads_
  netlink_sock_ : s'.netlink_sock_ = s.netlink_sock_
  subscribed : s'.subscribed = s.subscribed
  returned : s'.returned = s.returned
  receiver : s'.ProcEvProducerThread_ = none ↔ s.ProcEvProducerThread_ = none
  dispatcher : s'.CallbackDispatchThread_ = none ↔ s.CallbackDispatchThread_ = none

/-- A step of a loop leaves everything that the controller looks at alone. -/
theorem State.loop_frame (ha : a.loop = true) (hs : s.step M a = some s') : LoopFrame s s' := by
  -- a thread that takes a step is joinable before and after
  have hrec : ∀ {r r' : Receiver D}, s.ProcEvProducerThread_ = some r →
      (some r' = none ↔ s.ProcEvProducerThread_ = none) := fun hr => by
    rw [hr]
    exact ⟨nofun, nofun⟩
  have hdis : ∀ {d d' : Dispatcher D}, s.CallbackDispatchThread_ = some d →
      (some d' = none ↔ s.CallbackDispatchThread_ = none) := fun hd => by
    rw [hd]
    exact ⟨nofun, nofun⟩
  -- the receiver's steps, then the dispatcher's
  cases a with
  | enter =>
    obtain ⟨hp, rfl⟩ := State.enter_cases hs
    exact ⟨rfl, rfl, rfl, rfl, rfl, rfl, hrec hp, Iff.rfl⟩
  | test =>
    obtain ⟨hp, rfl⟩ := State.test_cases hs
    exact ⟨rfl, rfl, rfl, rfl, rfl, rfl, hrec hp, Iff.rfl⟩
  | recv r =>
    obtain ⟨hp, ⟨ev, -, -, rfl⟩ | ⟨receiver, -, rfl⟩⟩ := State.recv_cases hs
    · exact ⟨rfl, rfl, rfl, rfl, rfl, rfl, hrec hp, Iff.rfl⟩
    · exact ⟨rfl, rfl, rfl, rfl, rfl, rfl, hrec hp, Iff.rfl⟩
  | push =>
    obtain ⟨ev, hp, ⟨oldest, rest, -, -, rfl⟩ | ⟨-, rfl⟩⟩ := State.push_cases hs
    · exact ⟨rfl, rfl, rfl, rfl, rfl, rfl, hrec hp, Option.map_eq_none_iff⟩
    · exact ⟨rfl, rfl, rfl, rfl, rfl, rfl, hrec hp, Option.map_eq_none_iff⟩
  | lock =>
    obtain ⟨hd, ⟨-, rfl⟩ | ⟨-, ⟨-, rfl⟩ | ⟨-, rfl⟩⟩⟩ := State.lock_cases hs
    · exact ⟨rfl, rfl, rfl, rfl, rfl, rfl, Iff.rfl, hdis hd⟩
    · exact ⟨rfl, rfl, rfl, rfl, rfl, rfl, Iff.rfl, hdis hd⟩
    · exact ⟨rfl, rfl, rfl, rfl, rfl, rfl, Iff.rfl, hdis hd⟩
  | wake =>
    obtain ⟨hd, rfl⟩ := State.wake_cases hs
    exact ⟨rfl, rfl, rfl, rfl, rfl, rfl, Iff.rfl, hdis hd⟩
  | resume =>
    obtain ⟨⟨notified, hd⟩, rfl⟩ := State.resume_cases hs
    exact ⟨rfl, rfl, rfl, rfl, rfl, rfl, Iff.rfl, hdis hd⟩
  | next =>
    obtain ⟨hd, rfl⟩ | ⟨ev, tempEvQueue, hd, rfl⟩ := State.next_cases hs
    · exact ⟨rfl, rfl, rfl, rfl, rfl, rfl, Iff.rfl, hdis hd⟩
    · exact ⟨rfl, rfl, rfl, rfl, rfl, rfl, Iff.rfl, hdis hd⟩
  | handedBack =>
    obtain ⟨ev, tempEvQueue, hd, rfl⟩ := State.handedBack_cases hs
    exact ⟨rfl, rfl, rfl, rfl, rfl, rfl, Iff.rfl, hdis hd⟩
  | _ => cases ha

/-- The controller moves no event. It creates a thread where there is none and joins one that has
left its loop, and it notifies the dispatcher before it joins it. Between two of its steps the loops
may go on as they like. -/
structure ControllerFrame (s s' : State D) : Prop where
  ProcEvQueue_ : s'.ProcEvQueue_ = s.ProcEvQueue_
  received : s'.received = s.received
  pushed : s'.pushed = s.pushed
  dropped : s'.dropped = s.dropped
  handed : s'.handed = s.handed
  receiver : s'.ProcEvProducerThread_ = s.ProcEvProducerThread_ ∨
    (s.ProcEvProducerThread_ = none ∨ s.ProcEvProducerThread_ = some .exited) ∧
      (s'.ProcEvProducerThread_ = none ∨ s'.ProcEvProducerThread_ = some .entry)
  dispatcher : s'.CallbackDispatchThread_ = s.CallbackDispatchThread_ ∨
    s'.CallbackDispatchThread_ = s.CallbackDispatchThread_.map Dispatcher.notify ∨
    (s.CallbackDispatchThread_ = none ∨ s.CallbackDispatchThread_ = some .exited) ∧
      (s'.CallbackDispatchThread_ = none ∨ s'.CallbackDispatchThread_ = some .lock)
  notified : s'.control = .joinDispatcher →
    s'.CallbackDispatchThread_ = s.CallbackDispatchThread_.map Dispatcher.notify

/-- It only moves itself along. -/
theorem ControllerFrame.move (hq : s'.ProcEvQueue_ = s.ProcEvQueue_)
    (hrec : s'.received = s.received) (hpush : s'.pushed = s.pushed)
    (hdrop : s'.dropped = s.dropped) (hhand : s'.handed = s.handed)
    (hp : s'.ProcEvProducerThread_ = s.ProcEvProducerThread_)
    (hd : s'.CallbackDispatchThread_ = s.CallbackDispatchThread_)
    (hc : s'.control ≠ .joinDispatcher) : ControllerFrame s s' :=
  ⟨hq, hrec, hpush, hdrop, hhand, Or.inl hp, Or.inl hd, fun h => absurd h hc⟩

/-- A step of the controller moves no event. Of a thread that is in its loop it touches the
dispatcher only, to wake it. -/
theorem State.controller_frame (ha : a.loop = false) (hs : s.step M a = some s') :
    ControllerFrame s s' := by
  -- most steps only move the controller; the others create or join one thread
  cases a with
  | start =>
    obtain ⟨hc, ⟨-, rfl⟩ | ⟨-, rfl⟩⟩ := State.start_cases hs
    · exact .move rfl rfl rfl rfl rfl rfl rfl (by rw [hc]; exact nofun)
    · exact .move rfl rfl rfl rfl rfl rfl rfl nofun
  | connect socketOk bindOk =>
    obtain ⟨-, ⟨-, rfl⟩ | ⟨-, ⟨-, rfl⟩ | ⟨-, rfl⟩⟩⟩ := State.connect_cases hs
    · exact .move rfl rfl rfl rfl rfl rfl rfl nofun
    · exact .move rfl rfl rfl rfl rfl rfl rfl nofun
    · exact .move rfl rfl rfl rfl rfl rfl rfl nofun
  | subscribe sendOk =>
    obtain ⟨-, ⟨-, rfl⟩ | ⟨-, rfl⟩⟩ := State.subscribe_cases hs
    · exact .move rfl rfl rfl rfl rfl rfl rfl nofun
    · exact .move rfl rfl rfl rfl rfl rfl rfl nofun
  | createRecv ok =>
    obtain ⟨-, ⟨-, hnone, rfl⟩ | ⟨-, rfl⟩⟩ := State.createRecv_cases hs
    · exact ⟨rfl, rfl, rfl, rfl, rfl, Or.inr ⟨Or.inl hnone, Or.inr rfl⟩, Or.inl rfl, nofun⟩
    · exact .move rfl rfl rfl rfl rfl rfl rfl nofun
  | createDispatcher ok =>
    obtain ⟨-, ⟨-, hnone, rfl⟩ | ⟨-, rfl⟩⟩ := State.createDispatcher_cases hs
    · exact ⟨rfl, rfl, rfl, rfl, rfl, Or.inl rfl, Or.inr (Or.inr ⟨Or.inl hnone, Or.inr rfl⟩), nofun⟩
    · exact .move rfl rfl rfl rfl rfl rfl rfl nofun
  | started =>
    obtain ⟨-, rfl⟩ := State.started_cases hs
    exact .move rfl rfl rfl rfl rfl rfl rfl nofun
  | stop =>
    obtain ⟨hc, ⟨-, rfl⟩ | ⟨-, rfl⟩⟩ := State.stop_cases hs
    · exact .move rfl rfl rfl rfl rfl rfl rfl nofun
    · exact .move rfl rfl rfl rfl rfl rfl rfl (by rw [hc]; exact nofun)
  | unsubscribe sendOk =>
    obtain ⟨-, rfl⟩ := State.unsubscribe_cases hs
    exact .move rfl rfl rfl rfl rfl rfl rfl nofun
  | joinRecv =>
    obtain ⟨-, hend, rfl⟩ := State.joinRecv_cases hs
    exact ⟨rfl, rfl, rfl, rfl, rfl, Or.inr ⟨hend, Or.inl rfl⟩, Or.inl rfl, nofun⟩
  | notify =>
    obtain ⟨-, rfl⟩ := State.notify_cases hs
    exact ⟨rfl, rfl, rfl, rfl, rfl, Or.inl rfl, Or.inr (Or.inl rfl), fun _ => rfl⟩
  | joinDispatcher =>
    obtain ⟨-, hend, rfl⟩ := State.joinDispatcher_cases hs
    exact ⟨rfl, rfl, rfl, rfl, rfl, Or.inl rfl, Or.inr (Or.inr ⟨hend, Or.inl rfl⟩), nofun⟩
  | close =>
    obtain ⟨-, rfl⟩ := State.close_cases hs
    exact .move rfl rfl rfl rfl rfl rfl rfl nofun
  | _ => cases ha

end Frames

end CppDone.Netlink
