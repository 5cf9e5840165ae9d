import CppDone.Lib.Progress
import CppDone.Netlink.Dispatch
import CppDone.Netlink.Handshake

/-!
# The monitor settles

Every event that is received is worth a number of steps, and so is everything a thread does beside
waiting for the next one. What there is to do (`effort`) grows only with a call of `Start` or
`Stop`, with a wake-up out of nothing and with a turn of the receiver's loop. So the dispatcher
comes to sleep, and when it sleeps the queue is empty: what was received has been handed on, or was
popped for overflow.

Once `Stop` has set its flag the receiver's loop has no further turn either, and the calls that the
socket's time-out ends are all that is left of it. `Stop` returns after a bounded number of steps,
however the threads stand to one another.

A notification is paid for by the push that sends it, and the one of `Stop` by `Stop`. A spurious
wake-up is paid for by nobody; so in the bound it is counted by itself.
-/

set_option autoImplicit false

namespace CppDone.Netlink

variable {D : Type} {M : Nat} {s s' t : State D}

/-! ## How much there is to do

For each thread the steps to where it waits, for each event the steps it costs the dispatcher. A
notification is worth the steps of the one it wakes. -/

/-- With the steps of the dispatcher that the event in hand costs. -/
def Receiver.effort : Receiver D → Nat
  | .exited => 0
  | .test => 1
  | .entry => 2
  | .got _ => 9
  | .recv => 10

def Dispatcher.effort : Dispatcher D → Nat
  | .exited | .waiting => 0
  | .lock => 1
  | .woken _ => 3
  | .draining tempEvQueue => 2 * tempEvQueue.length + 2
  | .handing _ tempEvQueue => 2 * tempEvQueue.length + 3

/-- With the threads that are created, and the wake-up. -/
def Control.effort : Control → Nat
  | .idle => 0
  | .closing | .started => 1
  | .joinDispatcher => 2
  | .createDispatcher => 3
  | .createRecv | .notifying => 6
  | .subscribing | .joinRecv => 7
  | .connecting | .unsubscribing => 8

def State.effort (s : State D) : Nat :=
  (s.ProcEvProducerThread_.elim 0 Receiver.effort) +
    (s.CallbackDispatchThread_.elim 0 Dispatcher.effort) + 4 * s.ProcEvQueue_.length +
    s.control.effort

/-- What goes on without a caller, a spurious wake-up or a turn of the receiver's loop. -/
def Action.own : Action D → Bool
  | .start | .stop | .wake | .test | .recv _ => false
  | _ => true

def Action.brings : Action D → Nat
  | .start | .stop => 8
  | .test => 9
  | .wake => 3
  | _ => 0

/-! ### What a step costs

For each step that writes more than one field one lemma says what the sum is before and behind it.
The rest is arithmetic. -/

theorem effort_notify (d : Option (Dispatcher D)) :
    (d.map Dispatcher.notify).elim 0 Dispatcher.effort ≤ d.elim 0 Dispatcher.effort + 3 := by
  cases d with
  | none => exact Nat.zero_le 3
  | some d =>
    cases d with
    | waiting => exact Nat.le_refl 3
    | _ => exact Nat.le_add_right _ 3

/-- The controller goes on, and leaves the threads alone. -/
theorem effort_control {control : Control} {n k : Nat}
    (hreceiver : s'.ProcEvProducerThread_ = s.ProcEvProducerThread_)
    (hdispatcher : s'.CallbackDispatchThread_ = s.CallbackDispatchThread_)
    (hqueue : s'.ProcEvQueue_ = s.ProcEvQueue_) (hc : s.control = control)
    (hle : s'.control.effort + n ≤ control.effort + k) : s'.effort + n ≤ s.effort + k := by
  unfold State.effort
  rw [hreceiver, hdispatcher, hqueue, hc]
  omega

theorem effort_receiver {r r' : Receiver D} {n k : Nat} (hr : s.ProcEvProducerThread_ = some r)
    (hr' : s'.ProcEvProducerThread_ = some r')
    (hdispatcher : s'.CallbackDispatchThread_ = s.CallbackDispatchThread_)
    (hqueue : s'.ProcEvQueue_ = s.ProcEvQueue_) (hc : s'.control = s.control)
    (hle : r'.effort + n ≤ r.effort + k) : s'.effort + n ≤ s.effort + k := by
  unfold State.effort
  rw [hr, hr', hdispatcher, hqueue, hc]
  dsimp only [Option.elim_some]
  omega

theorem effort_push (hs : s.push M = some s') : s'.effort + 1 ≤ s.effort := by
  have hnotify := effort_notify s.CallbackDispatchThread_
  obtain ⟨ev, hp, ⟨oldest, rest, hq, -, rfl⟩ | ⟨-, rfl⟩⟩ := State.push_cases hs
  · simp only [State.effort, hp, hq, Option.elim_some, Receiver.effort, List.length_append,
      List.length_cons, List.length_nil]
    omega
  · simp only [State.effort, hp, Option.elim_some, Receiver.effort, List.length_append,
      List.length_cons, List.length_nil]
    omega

theorem effort_lock (hs : s.lock = some s') : s'.effort + 1 ≤ s.effort := by
  obtain ⟨hd, ⟨-, rfl⟩ | ⟨-, ⟨hne, rfl⟩ | ⟨-, rfl⟩⟩⟩ := State.lock_cases hs
  · simp only [State.effort, hd, Option.elim_some, Dispatcher.effort]
    omega
  · -- the events that are taken pay for the turn
    have hpos := List.length_pos_iff.mpr hne
    simp only [State.effort, hd, Option.elim_some, Dispatcher.effort, List.length_nil]
    omega
  · simp only [State.effort, hd, Option.elim_some, Dispatcher.effort]
    omega

theorem effort_createRecv {ok : Bool} (hs : s.createRecv ok = some s') :
    s'.effort + 1 ≤ s.effort := by
  obtain ⟨hc, ⟨-, hnone, rfl⟩ | ⟨-, rfl⟩⟩ := State.createRecv_cases hs
  · simp only [State.effort, hc, hnone, Option.elim_some, Option.elim_none, Receiver.effort,
      Control.effort]
    omega
  · exact effort_control (n := 1) (k := 0) rfl rfl rfl hc (Nat.le_add_left 2 4)

theorem effort_createDispatcher {ok : Bool} (hs : s.createDispatcher ok = some s') :
    s'.effort + 1 ≤ s.effort := by
  obtain ⟨hc, ⟨-, hnone, rfl⟩ | ⟨-, rfl⟩⟩ := State.createDispatcher_cases hs
  · simp only [State.effort, hc, hnone, Option.elim_some, Option.elim_none, Dispatcher.effort,
      Control.effort]
    omega
  · exact effort_control (n := 1) (k := 0) rfl rfl rfl hc (Nat.le_add_left 2 1)

theorem effort_joinRecv (hs : s.joinRecv = some s') : s'.effort + 1 ≤ s.effort := by
  obtain ⟨hc, -, rfl⟩ := State.joinRecv_cases hs
  simp only [State.effort, hc, Option.elim_none, Control.effort]
  omega

theorem effort_notifying (hs : s.notify = some s') : s'.effort + 1 ≤ s.effort := by
  have hnotify := effort_notify s.CallbackDispatchThread_
  obtain ⟨hc, rfl⟩ := State.notify_cases hs
  simp only [State.effort, hc, Control.effort]
  omega

theorem effort_joinDispatcher (hs : s.joinDispatcher = some s') : s'.effort + 1 ≤ s.effort := by
  obtain ⟨hc, -, rfl⟩ := State.joinDispatcher_cases hs
  simp only [State.effort, hc, Option.elim_none, Control.effort]
  omega

theorem effort_wake (hs : s.wake = some s') : s'.effort ≤ s.effort + 3 := by
  obtain ⟨hd, rfl⟩ := State.wake_cases hs
  simp only [State.effort, hd, Option.elim_some, Dispatcher.effort]
  omega

theorem effort_resume (hs : s.resume = some s') : s'.effort + 1 ≤ s.effort := by
  obtain ⟨⟨notified, hd⟩, rfl⟩ := State.resume_cases hs
  simp only [State.effort, hd, Option.elim_some, Dispatcher.effort, List.length_nil]
  omega

theorem effort_next (hs : s.next = some s') : s'.effort + 1 ≤ s.effort := by
  obtain ⟨hd, rfl⟩ | ⟨ev, tempEvQueue, hd, rfl⟩ := State.next_cases hs
  · simp only [State.effort, hd, Option.elim_some, Dispatcher.effort, List.length_nil]
    omega
  · simp only [State.effort, hd, Option.elim_some, Dispatcher.effort, List.length_cons]
    omega

theorem effort_handedBack (hs : s.handedBack = some s') : s'.effort + 1 ≤ s.effort := by
  obtain ⟨ev, tempEvQueue, hd, rfl⟩ := State.handedBack_cases hs
  simp only [State.effort, hd, Option.elim_some, Dispatcher.effort]
  omega

/-- **Every step is paid.** -/
theorem effort_step {a : Action D} (hs : s.step M a = some s') :
    s'.effort + (if a.own then 1 else 0) ≤ s.effort + a.brings := by
  -- the threads one by one: whoever is nearer to waiting has less before it
  cases a with
  | start =>
    obtain ⟨hc, ⟨-, rfl⟩ | ⟨-, rfl⟩⟩ := State.start_cases hs
    · exact Nat.le_add_right _ 8
    · exact effort_control rfl rfl rfl hc (Nat.le_refl 8)
  | connect socketOk bindOk =>
    obtain ⟨hc, ⟨-, rfl⟩ | ⟨-, ⟨-, rfl⟩ | ⟨-, rfl⟩⟩⟩ := State.connect_cases hs
    · exact effort_control rfl rfl rfl hc (Nat.le_refl 8)
    · exact effort_control rfl rfl rfl hc (Nat.le_refl 8)
    · exact effort_control rfl rfl rfl hc (Nat.le_add_left 1 7)
  | subscribe sendOk =>
    obtain ⟨hc, ⟨-, rfl⟩ | ⟨-, rfl⟩⟩ := State.subscribe_cases hs
    · exact effort_control rfl rfl rfl hc (Nat.le_refl 7)
    · exact effort_control rfl rfl rfl hc (Nat.le_add_left 1 6)
  | createRecv ok => exact effort_createRecv hs
  | createDispatcher ok => exact effort_createDispatcher hs
  | started =>
    obtain ⟨hc, rfl⟩ := State.started_cases hs
    exact effort_control rfl rfl rfl hc (Nat.le_refl 1)
  | stop =>
    obtain ⟨hc, ⟨-, rfl⟩ | ⟨-, rfl⟩⟩ := State.stop_cases hs
    · exact effort_control rfl rfl rfl hc (Nat.le_refl 8)
    · exact Nat.le_add_right _ 8
  | unsubscribe sendOk =>
    obtain ⟨hc, rfl⟩ := State.unsubscribe_cases hs
    exact effort_control rfl rfl rfl hc (Nat.le_refl 8)
  | joinRecv => exact effort_joinRecv hs
  | notify => exact effort_notifying hs
  | joinDispatcher => exact effort_joinDispatcher hs
  | close =>
    obtain ⟨hc, rfl⟩ := State.close_cases hs
    exact effort_control rfl rfl rfl hc (Nat.le_refl 1)
  -- the receiver: a turn of its loop is brought by the test, and used up by the rest
  | enter =>
    obtain ⟨hp, rfl⟩ := State.enter_cases hs
    refine effort_receiver hp rfl rfl rfl rfl ?_
    split
    · exact Nat.le_refl 2
    · exact Nat.le_add_left 1 1
  | test =>
    obtain ⟨hp, rfl⟩ := State.test_cases hs
    refine effort_receiver hp rfl rfl rfl rfl ?_
    split
    · exact Nat.le_add_left 0 10
    · exact Nat.le_refl 10
  | recv r =>
    obtain ⟨hp, ⟨ev, -, -, rfl⟩ | ⟨receiver, hnext, rfl⟩⟩ := State.recv_cases hs
    · exact effort_receiver hp rfl rfl rfl rfl (Nat.le_add_left 9 1)
    · refine effort_receiver hp rfl rfl rfl rfl ?_
      rcases hnext with rfl | rfl
      · exact Nat.le_add_left 1 9
      · exact Nat.le_add_left 0 10
  | push => exact effort_push hs
  | lock => exact effort_lock hs
  | wake => exact effort_wake hs
  | resume => exact effort_resume hs
  | next => exact effort_next hs
  | handedBack => exact effort_handedBack hs

/-! ## While nobody stops it

With the flag down the dispatcher stays, and comes to its sleep when the queue is empty. That is
also the only place where it can be when nothing goes on. -/

/-- The dispatcher leaves its loop only if it was told to. -/
def Leaves (s : State D) : Prop :=
  s.CallbackDispatchThread_ = some .exited → s.StopThreads_ = true

theorem leaves_init : Leaves (State.init : State D) := fun h => by cases h

theorem notify_eq_exited {d : Option (Dispatcher D)}
    (h : d.map Dispatcher.notify = some .exited) : d = some .exited := by
  obtain ⟨d', rfl, hd⟩ := Option.map_eq_some_iff.mp h
  cases d' with
  | waiting => cases hd
  | _ => exact congrArg some hd

/-- Only `Stop` writes the flag. -/
theorem stopThreads_step {a : Action D} (hstop : a ≠ .stop) (hclose : a ≠ .close)
    (hs : s.step M a = some s') : s'.StopThreads_ = s.StopThreads_ := by
  -- `Start` reads the flag and does not write it
  cases a with
  | stop => exact absurd rfl hstop
  | close => exact absurd rfl hclose
  | start =>
    obtain ⟨-, ⟨-, rfl⟩ | ⟨-, rfl⟩⟩ := State.start_cases hs
    · rfl
    · rfl
  | connect socketOk bindOk =>
    obtain ⟨-, ⟨-, rfl⟩ | ⟨-, ⟨-, rfl⟩ | ⟨-, rfl⟩⟩⟩ := State.connect_cases hs
    · rfl
    · rfl
    · rfl
  | subscribe sendOk =>
    obtain ⟨-, ⟨-, rfl⟩ | ⟨-, rfl⟩⟩ := State.subscribe_cases hs
    · rfl
    · rfl
  | createRecv ok =>
    obtain ⟨-, ⟨-, -, rfl⟩ | ⟨-, rfl⟩⟩ := State.createRecv_cases hs
    · rfl
    · rfl
  | createDispatcher ok =>
    obtain ⟨-, ⟨-, -, rfl⟩ | ⟨-, rfl⟩⟩ := State.createDispatcher_cases hs
    · rfl
    · rfl
  | started =>
    obtain ⟨-, rfl⟩ := State.started_cases hs
    rfl
  | unsubscribe sendOk =>
    obtain ⟨-, rfl⟩ := State.unsubscribe_cases hs
    rfl
  | joinRecv =>
    obtain ⟨-, -, rfl⟩ := State.joinRecv_cases hs
    rfl
  | notify =>
    obtain ⟨-, rfl⟩ := State.notify_cases hs
    rfl
  | joinDispatcher =>
    obtain ⟨-, -, rfl⟩ := State.joinDispatcher_cases hs
    rfl
  | _ => exact (State.loop_frame rfl hs).StopThreads_

/-- The controller does not send the dispatcher away. -/
theorem Leaves.controller (h : Leaves s) (hf : ControllerFrame s s')
    (hstop : s.StopThreads_ = true → s'.StopThreads_ = true) : Leaves s' := by
  intro hexit
  rcases hf.dispatcher with hd | hd | ⟨-, hd | hd⟩
  · exact hstop (h (hd ▸ hexit))
  · exact hstop (h (notify_eq_exited (hd ▸ hexit)))
  · cases hd.symm.trans hexit
  · cases hd.symm.trans hexit

/-- The dispatcher tests `StopThreads_` under the lock, and the controller sets it back only behind
the join. -/
theorem Leaves.step (h : Leaves s) (hl : Lifecycle s) {a : Action D} (hs : s.step M a = some s') :
    Leaves s' := by
  -- the two steps that write the flag, and all others
  by_cases hstop : a = .stop
  · subst hstop
    obtain ⟨-, ⟨-, rfl⟩ | ⟨-, rfl⟩⟩ := State.stop_cases hs
    · exact fun _ => rfl
    · exact h
  by_cases hclose : a = .close
  · subst hclose
    obtain ⟨hc, rfl⟩ := State.close_cases hs
    unfold Lifecycle at hl
    rw [hc] at hl
    intro hexit
    -- the flag goes down when the dispatcher has been joined
    cases hl.2.2.symm.trans hexit
  have hflag := stopThreads_step hstop hclose hs
  -- the dispatcher leaves where it has seen the flag
  cases a with
  | enter =>
    obtain ⟨-, rfl⟩ := State.enter_cases hs
    exact h
  | test =>
    obtain ⟨-, rfl⟩ := State.test_cases hs
    exact h
  | recv r =>
    obtain ⟨-, ⟨ev, -, -, rfl⟩ | ⟨receiver, -, rfl⟩⟩ := State.recv_cases hs
    · exact h
    · exact h
  | push =>
    obtain ⟨ev, -, ⟨oldest, rest, -, -, rfl⟩ | ⟨-, rfl⟩⟩ := State.push_cases hs
    · exact fun hexit => h (notify_eq_exited hexit)
    · exact fun hexit => h (notify_eq_exited hexit)
  | lock =>
    obtain ⟨-, ⟨hstop, rfl⟩ | ⟨-, ⟨-, rfl⟩ | ⟨-, rfl⟩⟩⟩ := State.lock_cases hs
    · exact fun _ => hstop
    · exact fun hexit => by cases hexit
    · exact fun hexit => by cases hexit
  | wake =>
    obtain ⟨-, rfl⟩ := State.wake_cases hs
    exact fun hexit => by cases hexit
  | resume =>
    obtain ⟨-, rfl⟩ := State.resume_cases hs
    exact fun hexit => by cases hexit
  | next =>
    obtain ⟨-, rfl⟩ | ⟨ev, tempEvQueue, -, rfl⟩ := State.next_cases hs
    · exact fun hexit => by cases hexit
    · exact fun hexit => by cases hexit
  | handedBack =>
    obtain ⟨ev, tempEvQueue, -, rfl⟩ := State.handedBack_cases hs
    exact fun hexit => by cases hexit
  | _ => exact h.controller (State.controller_frame rfl hs) hflag.trans

/-! ### A dispatcher at work

It was created, and nobody has told it to stop. Such a dispatcher sleeps with an empty queue only,
so where nothing goes on it has nothing left. -/

/-- There is a dispatcher, and nobody has told it to leave. The controller may be in `Start` or
between two calls. -/
structure Dispatching (s : State D) : Prop where
  StopThreads_ : s.StopThreads_ = false
  dispatcher : s.CallbackDispatchThread_ ≠ none

/-- Only `Stop` ends this. -/
theorem Dispatching.step (h : Dispatching s) (hl : Lifecycle s) (hleaves : Leaves s)
    {a : Action D} (ha : a ≠ .stop) (hs : s.step M a = some s') : Dispatching s' := by
  have hclose : a ≠ .close := by
    rintro rfl
    obtain ⟨hc, -⟩ := State.close_cases hs
    unfold Lifecycle at hl
    rw [hc] at hl
    cases h.StopThreads_.symm.trans hl.1.StopThreads_
  refine ⟨(stopThreads_step ha hclose hs).trans h.StopThreads_, fun hnone => ?_⟩
  cases hloop : a.loop with
  | true => exact h.dispatcher ((State.loop_frame hloop hs).dispatcher.mp hnone)
  | false =>
    rcases (State.controller_frame hloop hs).dispatcher with hd | hd | ⟨hd | hd, -⟩
    · exact h.dispatcher (hd ▸ hnone)
    · exact h.dispatcher (Option.map_eq_none_iff.mp (hd ▸ hnone))
    · exact h.dispatcher hd
    · cases h.StopThreads_.symm.trans (hleaves hd)

/-- Nothing goes on until a caller, the kernel or a spurious wake-up comes. -/
def Still (M : Nat) (s : State D) : Prop := ∀ a, a.own = true → (monitor D M).step s a = none

/-- The receiver has nothing in its hand. -/
theorem Still.inHand (h : Still M s) : s.inHand = [] := by
  unfold State.inHand
  cases hp : s.ProcEvProducerThread_ with
  | none => rfl
  | some r =>
    cases r with
    | got ev =>
      have hpush : s.push M = none := h .push rfl
      unfold State.push at hpush
      rw [hp] at hpush
      dsimp only at hpush
      split at hpush
      · cases hpush
      · cases hpush
    | _ => rfl

/-- The dispatcher sleeps. -/
theorem Still.dispatcher (h : Still M s) (hd : Dispatching s) (hleaves : Leaves s) :
    s.CallbackDispatchThread_ = some .waiting := by
  obtain ⟨d, hthere⟩ := Option.ne_none_iff_exists'.mp hd.dispatcher
  rw [hthere]
  -- everywhere else it could go on
  cases d with
  | waiting => rfl
  | exited => cases hd.StopThreads_.symm.trans (hleaves hthere)
  | lock =>
    have hlock : s.lock = none := h .lock rfl
    simp only [State.lock, hthere, hd.StopThreads_, Bool.false_eq_true, if_false] at hlock
    split at hlock
    · cases hlock
    · cases hlock
  | woken notified =>
    have hresume : s.resume = none := h .resume rfl
    simp only [State.resume, hthere] at hresume
    cases hresume
  | draining tempEvQueue =>
    have hnext : s.next = none := h .next rfl
    cases tempEvQueue with
    | nil =>
      simp only [State.next, hthere] at hnext
      cases hnext
    | cons ev rest =>
      simp only [State.next, hthere] at hnext
      cases hnext
  | handing ev tempEvQueue =>
    have hback : s.handedBack = none := h .handedBack rfl
    simp only [State.handedBack, hthere] at hback
    cases hback

/-- Whatever was received has been handed on, but for what was popped for overflow. In the order in
which it was received. -/
structure HandedOn (s : State D) : Prop where
  onTheWay : s.onTheWay = []
  handed : s.handed = deleted s.received s.dropped

theorem Still.handedOn (h : Still M s) (hd : Dispatching s) (hleaves : Leaves s) (hawake : Awake s)
    (hdel : Delivered s) : HandedOn s := by
  have hsleeps := h.dispatcher hd hleaves
  have hway : s.onTheWay = [] := by
    unfold State.onTheWay
    rw [tempEvQueue_of_dispatcher hsleeps, (hawake hsleeps).1, h.inHand]
    rfl
  refine ⟨hway, ?_⟩
  rw [← hdel.all.1, hway, List.append_nil]

/-- What goes on by itself receives nothing. -/
theorem received_own {a : Action D} (ha : a.own = true) (hs : s.step M a = some s') :
    s'.received = s.received := by
  -- events come in by `recv` only
  cases a with
  | start | stop | test | recv r | wake => cases ha
  | enter =>
    obtain ⟨-, rfl⟩ := State.enter_cases hs
    rfl
  | push =>
    obtain ⟨ev, -, ⟨oldest, rest, -, -, rfl⟩ | ⟨-, rfl⟩⟩ := State.push_cases hs
    · rfl
    · rfl
  | lock =>
    obtain ⟨-, ⟨-, rfl⟩ | ⟨-, ⟨-, rfl⟩ | ⟨-, rfl⟩⟩⟩ := State.lock_cases hs
    · rfl
    · rfl
    · rfl
  | resume =>
    obtain ⟨-, rfl⟩ := State.resume_cases hs
    rfl
  | next =>
    obtain ⟨-, rfl⟩ | ⟨ev, tempEvQueue, -, rfl⟩ := State.next_cases hs
    · rfl
    · rfl
  | handedBack =>
    obtain ⟨ev, tempEvQueue, -, rfl⟩ := State.handedBack_cases hs
    rfl
  | _ => exact (State.controller_frame rfl hs).received

/-- **What is received is handed on.** Take a reachable state with a dispatcher that nobody has told
to leave, and any schedule without `Stop`. The steps that go on by themselves are no more than
`effort` and what the schedule brings; and when nobody can go on by himself, every event received
has been handed on, but for those popped for overflow. It comes to that without anybody's help. -/
theorem everything_is_handed_on (M : Nat) (s : State D) (h : (monitor D M).Reachable s)
    (hd : Dispatching s) :
    (∀ as t, (monitor D M).runFrom s as = some t → (∀ a ∈ as, a ≠ .stop) →
      as.countP Action.own ≤ s.effort + total Action.brings as ∧ (Still M t → HandedOn t)) ∧
    ∃ t, (monitor D M).Leads (fun a => a.own = true) s t ∧ HandedOn t ∧
      t.received = s.received := by
  have hI : (monitor D M).Inductive fun s => Lifecycle s ∧ Leaves s :=
    ⟨⟨lifecycle_init, leaves_init⟩, fun hI hs => ⟨hI.1.step hs, hI.2.step hI.1 hs⟩⟩
  have hend : ∀ {t : State D}, (monitor D M).Reachable t → Dispatching t → Still M t →
      HandedOn t := by
    intro t ht hdt hstill
    exact hstill.handedOn hdt (ht.inv hI).2 (ht.inv awake_inductive).2 (ht.inv delivered_inductive)
  constructor
  -- any schedule without a `Stop`: the effort pays, and at rest all has been handed on
  · intro as t hrun hnostop
    have hkept : (Lifecycle t ∧ Leaves t) ∧ Dispatching t :=
      Machine.runFrom_inv_of (I := fun t => (Lifecycle t ∧ Leaves t) ∧ Dispatching t)
        (fun hI' ha hs => ⟨hI.step hI'.1 hs, hI'.2.step hI'.1.1 hI'.1.2 ha hs⟩) hnostop
        ⟨h.inv hI, hd⟩ hrun
    have hle := Machine.countP_le_of_paid Action.own Action.brings State.effort effort_step hrun
    exact ⟨Nat.le_of_add_right_le hle, hend (h.runFrom hrun) hkept.2⟩
  -- and rest is reached by the dispatcher and the receiver alone
  · have hstep : ∀ {t : State D} {a : Action D} {u : State D},
        ((monitor D M).Reachable t ∧ Dispatching t ∧ t.received = s.received) → a.own = true →
        (monitor D M).step t a = some u →
          ((monitor D M).Reachable u ∧ Dispatching u ∧ u.received = s.received) ∧
            u.effort < t.effort := by
      intro t a u hI' hown hu
      obtain ⟨ht, hdt, hreceived⟩ := hI'
      have hnostop : a ≠ .stop := by
        rintro rfl
        cases hown
      have hbrings : a.brings = 0 := by
        cases a with
        | start | stop | wake | test | recv r => cases hown
        | _ => rfl
      have hle := effort_step hu
      rw [if_pos hown, hbrings] at hle
      exact ⟨⟨ht.step hu, hdt.step (ht.inv hI).1 (ht.inv hI).2 hnostop hu,
        (received_own hown hu).trans hreceived⟩, hle⟩
    obtain ⟨t, hleads, ⟨-, -, hreceived⟩, hhanded⟩ := Machine.leads_of_still State.effort hstep
      (fun hI' hstill => hend hI'.1 hI'.2.1 hstill) ⟨h, hd, rfl⟩
    exact ⟨t, hleads, hhanded, hreceived⟩

theorem asleep_reachable : (monitor Nat 8192).Reachable asleep :=
  ⟨[.start, .connect true true, .subscribe true, .createRecv true, .createDispatcher true,
    .started, .lock], by decide⟩

/-- One event has come, and the dispatcher sleeps again. -/
def caughtUp : State Nat :=
  { asleep with ProcEvProducerThread_ := some .recv, received := [⟨.FORK, 1⟩],
                pushed := [⟨.FORK, 1⟩], handed := [⟨.FORK, 1⟩] }

theorem everything_is_handed_on_caughtUp : HandedOn caughtUp := by
  have hrun : (monitor Nat 8192).runFrom asleep [.enter, .test, .recv (.event ⟨.FORK, 1⟩), .push,
      .resume, .test, .next, .handedBack, .next, .lock] = some caughtUp := by decide
  have hstill : Still 8192 caughtUp := by
    intro a ha
    cases a with
    | start | stop | wake | test | recv r => cases ha
    | _ => rfl
  exact ((everything_is_handed_on 8192 asleep asleep_reachable ⟨rfl, nofun⟩).1 _ _ hrun
    (by decide)).2 hstill

/-! ## While `Stop` is under way

With the flag up every loop has one more test before it. Nothing is brought any more, so what is
left goes down to nothing, and where it does not go on `Stop` has returned. -/

/-- A spurious wake-up. -/
def Action.wakes : Action D → Bool
  | .wake => true
  | _ => false

/-- `Stop` is under way, or has returned and left nothing. -/
def Ending (s : State D) : Prop := s.StopThreads_ = true ∨ s.control = .idle ∧ Clean s

/-- Nothing happens in a stopped monitor that nobody starts. -/
theorem stopped_none (hc : s.control = .idle) (hclean : Clean s) {a : Action D}
    (hstart : a ≠ .start) (hstop : a ≠ .stop) : s.step M a = none := by
  have hreceiver := hclean.receiver
  have hdispatcher := hclean.dispatcher
  -- no place of the controller but the idle one, and no thread to go on
  cases a with
  | start => exact absurd rfl hstart
  | stop => exact absurd rfl hstop
  | connect socketOk bindOk => simp [State.step, State.connect, hc]
  | subscribe sendOk => simp [State.step, State.subscribe, hc]
  | createRecv ok => simp [State.step, State.createRecv, hc]
  | createDispatcher ok => simp [State.step, State.createDispatcher, hc]
  | started => simp [State.step, State.started, hc]
  | unsubscribe sendOk => simp [State.step, State.unsubscribe, hc]
  | joinRecv => simp [State.step, State.joinRecv, hc]
  | notify => simp [State.step, State.notify, hc]
  | joinDispatcher => simp [State.step, State.joinDispatcher, hc]
  | close => simp [State.step, State.close, hc]
  | enter => simp [State.step, State.enter, hreceiver]
  | test => simp [State.step, State.test, hreceiver]
  | recv r => simp [State.step, State.recv, hreceiver]
  | push => simp [State.step, State.push, hreceiver]
  | lock => simp [State.step, State.lock, hdispatcher]
  | wake => simp [State.step, State.wake, hdispatcher]
  | resume => simp [State.step, State.resume, hdispatcher]
  | next => simp [State.step, State.next, hdispatcher]
  | handedBack => simp [State.step, State.handedBack, hdispatcher]

/-- The flag is up until `Stop` returns. -/
theorem Ending.step (h : Ending s) (hl : Lifecycle s) {a : Action D} (hstart : a ≠ .start)
    (hstop : a ≠ .stop) (hs : s.step M a = some s') : Ending s' := by
  rcases h with h | ⟨hc, hclean⟩
  · by_cases hclose : a = .close
    · subst hclose
      have hidle : s'.control = .idle := by
        obtain ⟨-, rfl⟩ := State.close_cases hs
        rfl
      exact .inr ⟨hidle, hl.returned hs (.inl rfl)⟩
    · exact .inl ((stopThreads_step hstop hclose hs).trans h)
  · rw [stopped_none hc hclean hstart hstop] at hs
    cases hs

/-- With the flag up the receiver's loop has no further turn. -/
theorem effort_ending (h : Ending s) {a : Action D} (hstart : a ≠ .start) (hstop : a ≠ .stop)
    (hs : s.step M a = some s') :
    s'.effort + (if !a.wakes then 1 else 0) ≤ s.effort + if a.wakes then 3 else 0 := by
  have hflag : s.StopThreads_ = true := by
    rcases h with h | ⟨hc, hclean⟩
    · exact h
    · rw [stopped_none hc hclean hstart hstop] at hs
      cases hs
  cases a with
  | start => exact absurd rfl hstart
  | stop => exact absurd rfl hstop
  | test =>
    obtain ⟨hp, rfl⟩ := State.test_cases hs
    rw [hflag]
    exact effort_receiver (n := 1) (k := 0) hp rfl rfl rfl rfl (Nat.le_refl 1)
  | recv r =>
    obtain ⟨hp, ⟨ev, -, -, rfl⟩ | ⟨receiver, hnext, rfl⟩⟩ := State.recv_cases hs
    · exact effort_receiver (n := 1) (k := 0) hp rfl rfl rfl rfl (Nat.le_refl 10)
    · refine effort_receiver (n := 1) (k := 0) hp rfl rfl rfl rfl ?_
      rcases hnext with rfl | rfl
      · exact Nat.le_add_left 2 8
      · exact Nat.le_add_left 1 9
  | _ => exact effort_step hs

theorem Lifecycle.busy (hl : Lifecycle s) (hflag : s.StopThreads_ = true) : s.control ≠ .idle := by
  intro hc
  unfold Lifecycle at hl
  rw [hc] at hl
  rcases hl with ⟨-, hlistening⟩ | hclean
  · cases hflag.symm.trans hlistening.StopThreads_
  · cases hflag.symm.trans hclean.StopThreads_

/-- A step that no caller takes, and that is no spurious wake-up. -/
def Action.Inner (a : Action D) : Prop := a ≠ .start ∧ a ≠ .stop ∧ a ≠ .wake

/-- `Stop` has returned, or somebody can go on. -/
theorem Ending.goes_on (h : Ending s) (hl : Lifecycle s) (hawake : Awake s) :
    s.control = .idle ∧ Clean s ∨ ∃ a s', a.Inner ∧ (monitor D M).step s a = some s' := by
  rcases h with hflag | hdone
  · obtain ⟨a, s', hwake, hs⟩ := hawake.goes_on (M := M) hl hflag
    refine .inr ⟨a, s', ⟨?_, ?_, hwake⟩, hs⟩
    · rintro rfl
      exact hl.busy hflag (State.start_cases hs).1
    · rintro rfl
      exact hl.busy hflag (State.stop_cases hs).1
  · exact .inl hdone

/-- **`Stop` comes to its end.** From every reachable state in which it is under way, on every
schedule up to the next call of `Start` or `Stop`: there are no more steps than `effort` says, and
four for each spurious wake-up; and where no other step can be taken, `Stop` has returned and no
thread, no socket and no flag is left. The threads and the time-out of the socket come to that by
themselves. -/
theorem stop_comes_to_its_end (M : Nat) (s : State D) (h : (monitor D M).Reachable s)
    (hstop : s.StopThreads_ = true) :
    (∀ as t, (monitor D M).runFrom s as = some t → (∀ a ∈ as, a ≠ .start ∧ a ≠ .stop) →
      as.length ≤ s.effort + 4 * as.countP Action.wakes ∧
      (t.control = .idle ∧ Clean t ∨ ∃ a u, a.Inner ∧ (monitor D M).step t a = some u)) ∧
    ∃ t, (monitor D M).Leads Action.Inner s t ∧ t.control = .idle ∧ Clean t := by
  have hgoal : ∀ {t : State D}, (monitor D M).Reachable t → Ending t →
      t.control = .idle ∧ Clean t ∨ ∃ a u, a.Inner ∧ (monitor D M).step t a = some u :=
    fun ht hend => hend.goes_on (ht.inv awake_inductive).1 (ht.inv awake_inductive).2
  constructor
  -- any schedule: each step is paid for, and a wake-up out of nothing costs three more
  · intro as t hrun hok
    have hpaid : ∀ {s : State D} {a : Action D} {s' : State D}, Lifecycle s ∧ Ending s →
        a ≠ .start ∧ a ≠ .stop → (monitor D M).step s a = some s' →
          (Lifecycle s' ∧ Ending s') ∧ s'.effort + (if !a.wakes then 1 else 0) ≤
            s.effort + if a.wakes then 3 else 0 :=
      fun hI ha hs => ⟨⟨hI.1.step hs, hI.2.step hI.1 ha.1 ha.2 hs⟩,
        effort_ending hI.2 ha.1 ha.2 hs⟩
    have hI : Lifecycle s ∧ Ending s := ⟨(h.inv awake_inductive).1, .inl hstop⟩
    have hend : Lifecycle t ∧ Ending t :=
      Machine.runFrom_inv_of (I := fun t => Lifecycle t ∧ Ending t)
        (fun hI ha hs => (hpaid hI ha hs).1) hok hI hrun
    refine ⟨?_, hgoal (h.runFrom hrun) hend.2⟩
    have hle := Machine.countP_le_of_potential (fun a : Action D => !a.wakes) _ State.effort hpaid
      hok hI hrun
    rw [total_ite] at hle
    -- the steps that are no wake-ups are what the effort pays for
    have hlen : as.length = as.countP Action.wakes + as.countP fun a => !a.wakes := by
      rw [List.length_eq_countP_add_countP Action.wakes]
      simp
    omega
  -- the inner steps come to an end, and that is the clean state
  · have hstep : ∀ {t : State D} {a : Action D} {u : State D},
        (monitor D M).Reachable t ∧ Ending t → a.Inner → (monitor D M).step t a = some u →
          ((monitor D M).Reachable u ∧ Ending u) ∧ u.effort < t.effort := by
      intro t a u hI ha hu
      have hend := hI.2.step (hI.1.inv awake_inductive).1 ha.1 ha.2.1 hu
      have hle := effort_ending hI.2 ha.1 ha.2.1 hu
      have hwakes : a.wakes = false := by
        cases a with
        | wake => exact absurd rfl ha.2.2
        | _ => rfl
      rw [hwakes] at hle
      exact ⟨⟨hI.1.step hu, hend⟩, hle⟩
    obtain ⟨t, hleads, -, hdone⟩ := Machine.leads_of_still State.effort hstep
      (fun hI hstill => (hgoal hI.1 hI.2).resolve_right fun hmoves =>
        let ⟨a, u, ha, hu⟩ := hmoves
        nomatch (hstill a ha).symm.trans hu) ⟨h, .inl hstop⟩
    exact ⟨t, hleads, hdone⟩

theorem stop_comes_to_its_end_asleep :
    ∃ s, (monitor Nat 8192).runFrom asleep [.stop] = some s ∧
      ∃ t, (monitor Nat 8192).Leads Action.Inner s t ∧ t.control = .idle ∧ Clean t := by
  let s : State Nat := { asleep with StopThreads_ := true, control := .unsubscribing }
  have hrun : (monitor Nat 8192).runFrom asleep [.stop] = some s := by decide
  exact ⟨s, hrun, (stop_comes_to_its_end 8192 s (asleep_reachable.runFrom hrun) rfl).2⟩

end CppDone.Netlink
