import CppDone.Lib.Deleted
import CppDone.Netlink.Monitor

/-!
# Delivery of process events

What the receiver has pushed is, at any time, what is gone from the queue followed by the queue
itself, and what is gone was handed on in order, is about to be, or was popped for overflow. The
popped events are known by their position among the pushed ones, because two events may be equal.

The swap takes the whole queue and happens only when the dispatcher's own queue is empty, so the
order survives it; a `Stop` and a restart move no event at all.
-/

set_option autoImplicit false

namespace CppDone.Netlink

variable {D : Type} {M : Nat} {s s' : State D}

/-- The event the receiver has received and not pushed yet. -/
def Receiver.inHand : Receiver D → List (ProcEvent D)
  | .got ev => [ev]
  | _ => []

/-- The dispatcher's own queue. -/
def Dispatcher.tempEvQueue : Dispatcher D → List (ProcEvent D)
  | .draining tempEvQueue | .handing _ tempEvQueue => tempEvQueue
  | _ => []

def State.inHand (s : State D) : List (ProcEvent D) :=
  (s.ProcEvProducerThread_.map Receiver.inHand).getD []

def State.tempEvQueue (s : State D) : List (ProcEvent D) :=
  (s.CallbackDispatchThread_.map Dispatcher.tempEvQueue).getD []

theorem tempEvQueue_notify (d : Dispatcher D) : d.notify.tempEvQueue = d.tempEvQueue := by
  cases d with
  | _ => rfl

theorem tempEvQueue_map_notify (d : Option (Dispatcher D)) :
    ((d.map Dispatcher.notify).map Dispatcher.tempEvQueue).getD [] =
      (d.map Dispatcher.tempEvQueue).getD [] := by
  cases d with
  | none => rfl
  | some d => exact tempEvQueue_notify d

theorem inHand_of_receiver {r : Option (Receiver D)} (hr : s.ProcEvProducerThread_ = r) :
    s.inHand = (r.map Receiver.inHand).getD [] := by
  unfold State.inHand
  rw [hr]

theorem tempEvQueue_of_dispatcher {d : Option (Dispatcher D)}
    (hd : s.CallbackDispatchThread_ = d) :
    s.tempEvQueue = (d.map Dispatcher.tempEvQueue).getD [] := by
  unfold State.tempEvQueue
  rw [hd]

/-! ## What a step does with the events

Five things can happen to an event: it is received, pushed, swapped out with the rest of the queue,
handed on, or popped because the queue was over its limit. -/

/-- Where the events are and where they were. What is left of a state when it is only asked for
events. -/
structure Events (D : Type) where
  inHand : List (ProcEvent D)
  ProcEvQueue_ : List (ProcEvent D)
  tempEvQueue : List (ProcEvent D)
  received : List (ProcEvent D)
  pushed : List (ProcEvent D)
  dropped : List Nat
  handed : List (ProcEvent D)

def State.events (s : State D) : Events D where
  inHand := s.inHand
  ProcEvQueue_ := s.ProcEvQueue_
  tempEvQueue := s.tempEvQueue
  received := s.received
  pushed := s.pushed
  dropped := s.dropped
  handed := s.handed

/-- The events before and after a step. In `pushOut` the oldest event makes room, and its position
among the pushed ones is noted. -/
inductive Moved (s s' : State D) : Prop where
  | still (h : s'.events = s.events)
  | recv (ev : ProcEvent D) (hin : s.inHand = [])
      (h : s'.events = { s.events with inHand := [ev], received := s.received ++ [ev] })
  | pushOut (ev oldest : ProcEvent D) (rest : List (ProcEvent D)) (hin : s.inHand = [ev])
      (hq : s.ProcEvQueue_ = oldest :: rest)
      (h : s'.events = { s.events with
        inHand := [], ProcEvQueue_ := rest ++ [ev], pushed := s.pushed ++ [ev],
        dropped := s.dropped ++ [s.pushed.length - s.ProcEvQueue_.length] })
  | push (ev : ProcEvent D) (hin : s.inHand = [ev])
      (h : s'.events = { s.events with
        inHand := [], ProcEvQueue_ := s.ProcEvQueue_ ++ [ev], pushed := s.pushed ++ [ev] })
  | swap (htemp : s.tempEvQueue = [])
      (h : s'.events = { s.events with tempEvQueue := s.ProcEvQueue_, ProcEvQueue_ := [] })
  | hand (ev : ProcEvent D) (rest : List (ProcEvent D)) (htemp : s.tempEvQueue = ev :: rest)
      (h : s'.events = { s.events with tempEvQueue := rest, handed := s.handed ++ [ev] })

/-- A receiver that takes nothing in and puts nothing down. -/
theorem Moved.receiver {receiver : Receiver D} (h : receiver.inHand = s.inHand) :
    Moved s { s with ProcEvProducerThread_ := some receiver } := by
  apply Moved.still
  unfold State.events
  rw [← h]
  rfl

/-- A dispatcher that goes on with what it has. -/
theorem Moved.dispatcher {dispatcher : Dispatcher D}
    (h : dispatcher.tempEvQueue = s.tempEvQueue) :
    Moved s { s with CallbackDispatchThread_ := some dispatcher } := by
  apply Moved.still
  unfold State.events
  rw [← h]
  rfl

theorem Moved.recv_step {r : Recv D} (hs : s.recv r = some s') : Moved s s' := by
  obtain ⟨hp, ⟨ev, -, -, rfl⟩ | ⟨receiver, hreceiver, rfl⟩⟩ := State.recv_cases hs
  · exact Moved.recv ev (inHand_of_receiver hp) rfl
  · apply Moved.receiver
    rw [inHand_of_receiver hp]
    rcases hreceiver with rfl | rfl <;> rfl

theorem Moved.push_step (hs : s.push M = some s') : Moved s s' := by
  obtain ⟨ev, hp, hcases⟩ := State.push_cases hs
  have htemp : ((s.CallbackDispatchThread_.map Dispatcher.notify).map
      Dispatcher.tempEvQueue).getD [] = s.tempEvQueue := tempEvQueue_map_notify _
  rcases hcases with ⟨oldest, rest, hq, -, rfl⟩ | ⟨-, rfl⟩
  · refine Moved.pushOut ev oldest rest (inHand_of_receiver hp) hq ?_
    unfold State.events
    rw [← htemp]
    rfl
  · refine Moved.push ev (inHand_of_receiver hp) ?_
    unfold State.events
    rw [← htemp]
    rfl

/-- The swap: an idle dispatcher takes the whole queue. -/
theorem Moved.swap_step (htemp : s.tempEvQueue = []) :
    Moved s { s with CallbackDispatchThread_ := some (.draining s.ProcEvQueue_),
                     ProcEvQueue_ := [] } :=
  Moved.swap htemp rfl

theorem Moved.next_step (hs : s.next = some s') : Moved s s' := by
  rcases State.next_cases hs with ⟨hd, rfl⟩ | ⟨ev, tempEvQueue, hd, rfl⟩
  · exact Moved.dispatcher (tempEvQueue_of_dispatcher hd).symm
  · exact Moved.hand ev tempEvQueue (tempEvQueue_of_dispatcher hd) rfl

/-- The controller wakes, creates and joins threads that have no event. -/
theorem Moved.controller (hf : ControllerFrame s s') : Moved s s' := by
  have hin : s'.inHand = s.inHand := by
    unfold State.inHand
    rcases hf.receiver with hp | ⟨hp, hp'⟩
    · rw [hp]
    · rcases hp with hp | hp <;> rcases hp' with hp' | hp' <;> rw [hp, hp'] <;> rfl
  have htemp : s'.tempEvQueue = s.tempEvQueue := by
    unfold State.tempEvQueue
    rcases hf.dispatcher with hd | hd | ⟨hd, hd'⟩
    · rw [hd]
    · rw [hd, tempEvQueue_map_notify]
    · rcases hd with hd | hd <;> rcases hd' with hd' | hd' <;> rw [hd, hd'] <;> rfl
  apply Moved.still
  unfold State.events
  rw [hin, htemp, hf.ProcEvQueue_, hf.received, hf.pushed, hf.dropped, hf.handed]

theorem State.moved {a : Action D} (hs : s.step M a = some s') : Moved s s' := by
  -- an event goes from the hand into the queue, from there to the dispatcher and on to the
  -- callbacks
  cases a with
  | enter =>
    obtain ⟨hp, rfl⟩ := State.enter_cases hs
    apply Moved.receiver
    rw [inHand_of_receiver hp]
    split <;> rfl
  | test =>
    obtain ⟨hp, rfl⟩ := State.test_cases hs
    apply Moved.receiver
    rw [inHand_of_receiver hp]
    split <;> rfl
  | recv r => exact Moved.recv_step hs
  | push => exact Moved.push_step hs
  | lock =>
    obtain ⟨hd, ⟨-, rfl⟩ | ⟨-, ⟨-, rfl⟩ | ⟨-, rfl⟩⟩⟩ := State.lock_cases hs
    · exact Moved.dispatcher (tempEvQueue_of_dispatcher hd).symm
    -- something is queued, and the dispatcher has handed on all it had
    · exact Moved.swap_step (tempEvQueue_of_dispatcher hd)
    · exact Moved.dispatcher (tempEvQueue_of_dispatcher hd).symm
  | wake =>
    obtain ⟨hd, rfl⟩ := State.wake_cases hs
    exact Moved.dispatcher (tempEvQueue_of_dispatcher hd).symm
  | resume =>
    obtain ⟨⟨notified, hd⟩, rfl⟩ := State.resume_cases hs
    exact Moved.swap_step (tempEvQueue_of_dispatcher hd)
  | next => exact Moved.next_step hs
  | handedBack =>
    obtain ⟨ev, tempEvQueue, hd, rfl⟩ := State.handedBack_cases hs
    exact Moved.dispatcher (tempEvQueue_of_dispatcher hd).symm
  | _ => exact Moved.controller (State.controller_frame rfl hs)

/-! ## Delivery

The lists are one list cut at different places, so the order is kept as long as each step moves the
cut and nothing else. -/

/-- Where the received events are. What has left the queue was handed on, is in the dispatcher's own
queue, or was dropped; and this in the order of the pushes. -/
structure Delivered (s : State D) : Prop where
  arrived : s.received = s.pushed ++ s.inHand
  kept : ∃ gone, s.pushed = gone ++ s.ProcEvQueue_ ∧ (∀ p ∈ s.dropped, p < gone.length) ∧
    s.handed ++ s.tempEvQueue = deleted gone s.dropped

theorem delivered_init : Delivered (State.init : State D) where
  arrived := rfl
  kept := ⟨[], rfl, fun _ h => (by cases h), rfl⟩

theorem Delivered.of_events {e : Events D} (he : s.events = e)
    (arrived : e.received = e.pushed ++ e.inHand)
    (kept : ∃ gone, e.pushed = gone ++ e.ProcEvQueue_ ∧ (∀ p ∈ e.dropped, p < gone.length) ∧
      e.handed ++ e.tempEvQueue = deleted gone e.dropped) : Delivered s := by
  subst he
  exact ⟨arrived, kept⟩

theorem Delivered.step (h : Delivered s) {a : Action D} (hs : s.step M a = some s') :
    Delivered s' := by
  have harrived := h.arrived
  obtain ⟨gone, hpushed, hlt, hkept⟩ := h.kept
  cases State.moved hs with
  | still he => exact Delivered.of_events he harrived ⟨gone, hpushed, hlt, hkept⟩
  | recv ev hin he =>
    rw [hin, List.append_nil] at harrived
    refine Delivered.of_events he ?_ ⟨gone, hpushed, hlt, hkept⟩
    show s.received ++ [ev] = s.pushed ++ [ev]
    rw [harrived]
  | pushOut ev oldest rest hin hq he =>
    -- the oldest event is gone, and at its position nothing survives
    have hpos : s.pushed.length - s.ProcEvQueue_.length = gone.length := by
      rw [hpushed, List.length_append]
      omega
    rw [hin] at harrived
    refine Delivered.of_events he ?_ ⟨gone ++ [oldest], ?_, ?_, ?_⟩
    · rw [List.append_nil]
      exact harrived
    · show s.pushed ++ [ev] = (gone ++ [oldest]) ++ (rest ++ [ev])
      rw [hpushed, hq]
      simp
    · intro p hmem
      rw [List.length_append, List.length_singleton]
      rcases List.mem_append.mp hmem with hmem | hmem
      · exact Nat.lt_succ_of_lt (hlt p hmem)
      · rw [List.mem_singleton.mp hmem, hpos]
        exact Nat.lt_succ_self _
    · dsimp only [State.events]
      rw [hkept, hpos, deleted_snoc, if_pos (by simp), List.append_nil,
        deleted_snoc_position (Nat.le_refl _)]
  | push ev hin he =>
    rw [hin] at harrived
    refine Delivered.of_events he ?_ ⟨gone, ?_, hlt, hkept⟩
    · rw [List.append_nil]
      exact harrived
    · show s.pushed ++ [ev] = gone ++ (s.ProcEvQueue_ ++ [ev])
      rw [hpushed, List.append_assoc]
  | swap htemp he =>
    refine Delivered.of_events he harrived ⟨s.pushed, (List.append_nil _).symm, ?_, ?_⟩
    · intro p hp
      rw [hpushed, List.length_append]
      exact Nat.lt_add_right _ (hlt p hp)
    · show s.handed ++ s.ProcEvQueue_ = deleted s.pushed s.dropped
      rw [htemp, List.append_nil] at hkept
      rw [hpushed, deleted_append hlt, hkept]
  | hand ev rest htemp he =>
    refine Delivered.of_events he harrived ⟨gone, hpushed, hlt, ?_⟩
    show (s.handed ++ [ev]) ++ rest = deleted gone s.dropped
    rw [htemp] at hkept
    rw [List.append_assoc]
    exact hkept

theorem delivered_inductive : (monitor D M).Inductive Delivered where
  init := delivered_init
  step h hs := h.step hs

/-! ## Overflow

An event is dropped at the front of the queue when one is pushed at its end. It was the oldest, and
the queue was over the limit then. -/

/-- An event is popped for overflow only by a push that finds more than the limit queued, and it
is the oldest one. -/
structure Overflow (M : Nat) (s s' : State D) : Prop where
  full : M < s.ProcEvQueue_.length
  oldest : ∃ oldest rest ev, s.ProcEvQueue_ = oldest :: rest ∧ s.inHand = [ev] ∧
    s'.ProcEvQueue_ = rest ++ [ev] ∧ s'.pushed = s.pushed ++ [ev] ∧
    s.pushed[s.pushed.length - s.ProcEvQueue_.length]? = some oldest
  position : s'.dropped = s.dropped ++ [s.pushed.length - s.ProcEvQueue_.length]

theorem Delivered.overflow (h : Delivered s) (hs : s.push M = some s') :
    s'.dropped = s.dropped ∨ Overflow M s s' := by
  obtain ⟨ev, hp, ⟨oldest, rest, hq, hlt, rfl⟩ | ⟨-, rfl⟩⟩ := State.push_cases hs
  · have hin : s.inHand = [ev] := by
      unfold State.inHand
      rw [hp]
      rfl
    obtain ⟨gone, hpushed, -, -⟩ := h.kept
    have hget : s.pushed[s.pushed.length - s.ProcEvQueue_.length]? = some oldest := by
      rw [hpushed, List.length_append, Nat.add_sub_cancel, hq]
      simp
    exact Or.inr ⟨hlt, ⟨oldest, rest, ev, hq, hin, rfl, rfl, hget⟩, rfl⟩
  · exact Or.inl rfl

/-- No other step drops anything. -/
theorem dropped_step {a : Action D} (ha : a ≠ .push) (hs : s.step M a = some s') :
    s'.dropped = s.dropped := by
  cases a with
  | enter => obtain ⟨-, rfl⟩ := State.enter_cases hs; rfl
  | test => obtain ⟨-, rfl⟩ := State.test_cases hs; rfl
  | recv r => obtain ⟨-, ⟨ev, -, -, rfl⟩ | ⟨receiver, -, rfl⟩⟩ := State.recv_cases hs <;> rfl
  | push => exact absurd rfl ha
  | lock => obtain ⟨-, ⟨-, rfl⟩ | ⟨-, ⟨-, rfl⟩ | ⟨-, rfl⟩⟩⟩ := State.lock_cases hs <;> rfl
  | wake => obtain ⟨-, rfl⟩ := State.wake_cases hs; rfl
  | resume => obtain ⟨-, rfl⟩ := State.resume_cases hs; rfl
  | next => obtain ⟨-, rfl⟩ | ⟨ev, tempEvQueue, -, rfl⟩ := State.next_cases hs <;> rfl
  | handedBack => obtain ⟨ev, tempEvQueue, -, rfl⟩ := State.handedBack_cases hs; rfl
  | _ => exact (State.controller_frame rfl hs).dropped

/-- **Process events are delivered in order, once, and lost only by overflow.** In every
reachable state the events handed on, then the dispatcher's own queue, then the shared queue are
the pushed events without those popped for overflow; the pushed events are the received ones,
but for one that is about to be pushed; and a step that pops an event for overflow is a push that
finds more than `M` queued and pops the oldest. -/
theorem events_delivered (M : Nat) (s : State D) (h : (monitor D M).Reachable s) :
    s.handed ++ s.tempEvQueue ++ s.ProcEvQueue_ = deleted s.pushed s.dropped ∧
    s.received = s.pushed ++ s.inHand ∧
    ∀ a s', s.step M a = some s' →
      s'.dropped = s.dropped ∨ a = .push ∧ Overflow M s s' := by
  have hdel := h.inv delivered_inductive
  refine ⟨?_, hdel.arrived, fun a s' hs => ?_⟩
  · obtain ⟨gone, hpushed, hlt, hkept⟩ := hdel.kept
    rw [hkept, hpushed, deleted_append hlt]
  · by_cases ha : a = .push
    · subst ha
      rcases hdel.overflow hs with hsame | hover
      · exact Or.inl hsame
      · exact Or.inr ⟨rfl, hover⟩
    · exact Or.inl (dropped_step ha hs)

/-- With no room beyond one event, a second one pushes the first out before it is handed on. -/
def pushedOut : State Nat where
  Started_ := true
  StopThreads_ := false
  netlink_sock_ := true
  subscribed := true
  ProcEvProducerThread_ := some .test
  CallbackDispatchThread_ := some (.handing ⟨.EXEC, 2⟩ [])
  control := .idle
  ProcEvQueue_ := []
  returned := [0]
  received := [⟨.FORK, 1⟩, ⟨.EXEC, 2⟩]
  pushed := [⟨.FORK, 1⟩, ⟨.EXEC, 2⟩]
  dropped := [0]
  handed := [⟨.EXEC, 2⟩]

theorem events_delivered_pushedOut :
    (monitor Nat 0).run [.start, .connect true true, .subscribe true, .createRecv true,
        .createDispatcher true, .started, .enter, .test, .recv (.event ⟨.FORK, 1⟩), .push, .test,
        .recv (.event ⟨.EXEC, 2⟩), .push, .lock, .next] = some pushedOut ∧
      pushedOut.handed ++ pushedOut.tempEvQueue ++ pushedOut.ProcEvQueue_ =
        deleted pushedOut.pushed pushedOut.dropped := by
  have hrun : (monitor Nat 0).run [.start, .connect true true, .subscribe true, .createRecv true,
      .createDispatcher true, .started, .enter, .test, .recv (.event ⟨.FORK, 1⟩), .push, .test,
      .recv (.event ⟨.EXEC, 2⟩), .push, .lock, .next] = some pushedOut := by decide
  exact ⟨hrun, (events_delivered 0 pushedOut ⟨_, hrun⟩).1⟩

end CppDone.Netlink
