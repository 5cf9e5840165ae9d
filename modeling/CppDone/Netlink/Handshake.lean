import CppDone.Netlink.Lifecycle

/-!
# The shutdown handshake

`Stop` sets `StopThreads_` without the queue lock, and the dispatcher's `wait` has no predicate. It
is sound all the same: the dispatcher tests the flag under the lock, so once `Stop` has notified
it either was woken or finds the flag set; and before that the receiver has been joined, so what
it pushed came with a notification of its own.

Beside the lost wake-up nothing else can hold `Stop` up: each thread that it joins can go on, or
has left its loop.
-/

set_option autoImplicit false

namespace CppDone.Netlink

variable {D : Type} {M : Nat} {s s' : State D}

/-- The dispatcher sleeps only with nothing queued and before the notification of `Stop`. -/
def Awake (s : State D) : Prop :=
  s.CallbackDispatchThread_ = some .waiting →
    s.ProcEvQueue_ = [] ∧ s.control ≠ .joinDispatcher

theorem notify_ne_waiting (d : Option (Dispatcher D)) :
    d.map Dispatcher.notify ≠ some .waiting := by
  intro h
  obtain ⟨d, -, hd⟩ := Option.map_eq_some_iff.mp h
  cases d with
  | waiting => cases hd
  | lock | woken _ | draining _ | handing _ _ | exited => cases hd

/-- A step that leaves the dispatcher and the queue alone and does not notify. -/
theorem Awake.frame (h : Awake s) (hd : s'.CallbackDispatchThread_ = s.CallbackDispatchThread_)
    (hq : s'.ProcEvQueue_ = s.ProcEvQueue_)
    (hc : s'.control = .joinDispatcher → s.control = .joinDispatcher) : Awake s' := by
  intro hw
  rw [hd] at hw
  obtain ⟨hempty, hbefore⟩ := h hw
  exact ⟨hq.trans hempty, fun hc' => hbefore (hc hc')⟩

theorem Awake.of_ne (h : s.CallbackDispatchThread_ ≠ some .waiting) : Awake s :=
  fun hw => absurd hw h

/-- After the notification of `Stop` the dispatcher finds the flag set. -/
theorem Awake.lock (hl : Lifecycle s) (hs : s.lock = some s') : Awake s' := by
  obtain ⟨-, ⟨-, rfl⟩ | ⟨hstop, ⟨-, rfl⟩ | ⟨hempty, rfl⟩⟩⟩ := State.lock_cases hs
  · exact Awake.of_ne nofun
  · exact Awake.of_ne nofun
  · refine fun _ => ⟨hempty, fun hc => ?_⟩
    have hc : s.control = .joinDispatcher := hc
    unfold Lifecycle at hl
    rw [hc] at hl
    rw [hl.1.StopThreads_] at hstop
    cases hstop

/-- The controller puts no dispatcher to sleep, and notifies the one it is going to join. -/
theorem Awake.controller (h : Awake s) (hf : ControllerFrame s s') : Awake s' := by
  intro hw
  refine ⟨?_, fun hc => ?_⟩
  · rcases hf.dispatcher with hd | hd | ⟨-, hd | hd⟩
    · exact hf.ProcEvQueue_.trans (h (hd ▸ hw)).1
    · exact absurd (hd ▸ hw) (notify_ne_waiting _)
    · rw [hd] at hw
      cases hw
    · rw [hd] at hw
      cases hw
  · exact absurd (hf.notified hc ▸ hw) (notify_ne_waiting _)

theorem Awake.step (h : Awake s) (hl : Lifecycle s) {a : Action D} (hs : s.step M a = some s') :
    Awake s' := by
  cases a with
  | enter =>
    obtain ⟨-, rfl⟩ := State.enter_cases hs
    exact h.frame rfl rfl id
  | test =>
    obtain ⟨-, rfl⟩ := State.test_cases hs
    exact h.frame rfl rfl id
  | recv r =>
    obtain ⟨-, ⟨ev, -, -, rfl⟩ | ⟨receiver, -, rfl⟩⟩ := State.recv_cases hs <;>
      exact h.frame rfl rfl id
  | push =>
    -- a push notifies under the lock it pushes under
    obtain ⟨ev, -, ⟨oldest, rest, -, -, rfl⟩ | ⟨-, rfl⟩⟩ := State.push_cases hs <;>
      exact Awake.of_ne (notify_ne_waiting _)
  | lock => exact Awake.lock hl hs
  | wake =>
    obtain ⟨-, rfl⟩ := State.wake_cases hs
    exact Awake.of_ne nofun
  | resume =>
    obtain ⟨-, rfl⟩ := State.resume_cases hs
    exact Awake.of_ne nofun
  | next =>
    obtain ⟨-, rfl⟩ | ⟨ev, tempEvQueue, -, rfl⟩ := State.next_cases hs <;>
      exact Awake.of_ne nofun
  | handedBack =>
    obtain ⟨ev, tempEvQueue, -, rfl⟩ := State.handedBack_cases hs
    exact Awake.of_ne nofun
  | _ => exact h.controller (State.controller_frame rfl hs)

theorem awake_inductive : (monitor D M).Inductive fun s => Lifecycle s ∧ Awake s where
  init := ⟨lifecycle_init, Awake.of_ne nofun⟩
  step h hs := ⟨h.1.step hs, h.2.step h.1 hs⟩

/-! ## `Stop` goes on

Each thread it waits for has a step, or is through. The receiver blocks in `recv` only until the
time-out of the socket, and that counts as a step of its own. -/

/-- A receiver that has not left its loop can go on. -/
theorem receiver_goes_on {r : Receiver D} (hp : s.ProcEvProducerThread_ = some r)
    (hr : r ≠ .exited) : ∃ a s', a ≠ .wake ∧ s.step M a = some s' := by
  cases r with
  | entry => exact ⟨.enter, _, nofun, by simp only [State.step, State.enter, hp]; rfl⟩
  | test => exact ⟨.test, _, nofun, by simp only [State.step, State.test, hp]; rfl⟩
  | recv => exact ⟨.recv .again, _, nofun, by simp only [State.step, State.recv, hp]; rfl⟩
  | got ev =>
    refine ⟨.push, ?_⟩
    simp only [State.step, State.push, hp]
    split
    · exact ⟨_, nofun, rfl⟩
    · exact ⟨_, nofun, rfl⟩
  | exited => exact absurd rfl hr

/-- A dispatcher that neither sleeps nor has left its loop can go on. -/
theorem dispatcher_goes_on {d : Dispatcher D} (hd : s.CallbackDispatchThread_ = some d)
    (hw : d ≠ .waiting) (he : d ≠ .exited) : ∃ a s', a ≠ .wake ∧ s.step M a = some s' := by
  cases d with
  | lock =>
    refine ⟨.lock, ?_⟩
    simp only [State.step, State.lock, hd]
    split
    · exact ⟨_, nofun, rfl⟩
    · split
      · exact ⟨_, nofun, rfl⟩
      · exact ⟨_, nofun, rfl⟩
  | waiting => exact absurd rfl hw
  | woken notified => exact ⟨.resume, _, nofun, by simp only [State.step, State.resume, hd]; rfl⟩
  | draining tempEvQueue =>
    cases tempEvQueue with
    | nil => exact ⟨.next, _, nofun, by simp only [State.step, State.next, hd]; rfl⟩
    | cons ev rest => exact ⟨.next, _, nofun, by simp only [State.step, State.next, hd]; rfl⟩
  | handing ev tempEvQueue =>
    exact ⟨.handedBack, _, nofun, by simp only [State.step, State.handedBack, hd]; rfl⟩
  | exited => exact absurd rfl he

/-- While `Stop` is under way, some thread can take a step that is no spurious wake-up. -/
theorem Awake.goes_on (h : Awake s) (hl : Lifecycle s) (hstop : s.StopThreads_ = true) :
    ∃ a s', a ≠ .wake ∧ s.step M a = some s' := by
  unfold Lifecycle at hl
  -- the flag is up between `Stop` and its `close`, so the other places drop out
  split at hl
  · rcases hl with ⟨-, hl⟩ | hclean
    · exact absurd hstop (Bool.eq_false_iff.mp hl.StopThreads_)
    · exact absurd hstop (Bool.eq_false_iff.mp hclean.StopThreads_)
  · exact absurd hstop (Bool.eq_false_iff.mp hl.StopThreads_)
  · exact absurd hstop (Bool.eq_false_iff.mp hl.2.1)
  · exact absurd hstop (Bool.eq_false_iff.mp hl.1.StopThreads_)
  · exact absurd hstop (Bool.eq_false_iff.mp hl.1.StopThreads_)
  · exact absurd hstop (Bool.eq_false_iff.mp hl.StopThreads_)
  · next hc =>
    exact ⟨.unsubscribe true, _, nofun, by simp only [State.step, State.unsubscribe, hc]; rfl⟩
  · next hc =>
    -- the receiver is joined, or goes on towards its end
    cases hp : s.ProcEvProducerThread_ with
    | none =>
      exact ⟨.joinRecv, _, nofun, by simp only [State.step, State.joinRecv, hc, hp]; rfl⟩
    | some r =>
      by_cases hr : r = .exited
      · subst hr
        exact ⟨.joinRecv, _, nofun, by simp only [State.step, State.joinRecv, hc, hp]; rfl⟩
      · exact receiver_goes_on hp hr
  · next hc => exact ⟨.notify, _, nofun, by simp only [State.step, State.notify, hc]; rfl⟩
  · next hc =>
    cases hd : s.CallbackDispatchThread_ with
    | none =>
      exact ⟨.joinDispatcher, _, nofun,
        by simp only [State.step, State.joinDispatcher, hc, hd]; rfl⟩
    | some d =>
      by_cases he : d = .exited
      · subst he
        exact ⟨.joinDispatcher, _, nofun,
          by simp only [State.step, State.joinDispatcher, hc, hd]; rfl⟩
      -- notified, the dispatcher does not sleep
      · refine dispatcher_goes_on hd ?_ he
        rintro rfl
        exact (h hd).2 hc
  · next hc => exact ⟨.close, _, nofun, by simp only [State.step, State.close, hc]; rfl⟩

/-- A step that returns from `Stop` leaves nothing behind. -/
theorem Lifecycle.returned (hl : Lifecycle s) {a : Action D} (hs : s.step M a = some s')
    (ha : a = .close ∨ a = .stop ∧ s'.control = .idle) : Clean s' := by
  have hl' := hl.step hs
  unfold Lifecycle at hl hl'
  rcases ha with rfl | ⟨rfl, hidle⟩
  · obtain ⟨-, rfl⟩ := State.close_cases hs
    rcases hl' with ⟨hst, -⟩ | hclean
    · cases hst
    · exact hclean
  · obtain ⟨hc, ⟨-, rfl⟩ | ⟨hst, rfl⟩⟩ := State.stop_cases hs
    · cases hidle
    · rw [hc] at hl
      rcases hl with ⟨hst', -⟩ | hclean
      · rw [hst] at hst'
        cases hst'
      · exact hclean

/-! ### No lost notification

The three parts put together: the dispatcher is awake or will be woken, `Stop` returns to a clean
monitor, and until then somebody goes on. -/

/-- **`Stop` of the monitor cannot hang.** In no reachable state does the dispatcher sleep while
an event is queued or after `Stop` has notified; when `Stop` returns, no thread is left, the
socket is closed and both flags are down. While `Stop` is under way some thread can always go on,
without a spurious wake-up. -/
theorem stop_cannot_hang (M : Nat) (s : State D) (h : (monitor D M).Reachable s) :
    (s.CallbackDispatchThread_ = some .waiting →
      s.ProcEvQueue_ = [] ∧ s.control ≠ .joinDispatcher ∧ s.control ≠ .closing) ∧
    (∀ a s', s.step M a = some s' → a = .close ∨ a = .stop ∧ s'.control = .idle →
      s'.ProcEvProducerThread_ = none ∧ s'.CallbackDispatchThread_ = none ∧
        s'.netlink_sock_ = false ∧ s'.Started_ = false ∧ s'.StopThreads_ = false) ∧
    (s.StopThreads_ = true → ∃ a s', a ≠ .wake ∧ s.step M a = some s') := by
  obtain ⟨hl, hawake⟩ := h.inv awake_inductive
  refine ⟨fun hw => ?_, fun a s' hs ha => ?_, hawake.goes_on hl⟩
  · obtain ⟨hempty, hbefore⟩ := hawake hw
    refine ⟨hempty, hbefore, fun hc => ?_⟩
    unfold Lifecycle at hl
    rw [hc, hw] at hl
    cases hl.2.2
  · have hclean := hl.returned hs ha
    exact ⟨hclean.receiver, hclean.dispatcher, hclean.netlink_sock_, hclean.Started_,
      hclean.StopThreads_⟩

/-- Started, with the dispatcher asleep. -/
def asleep : State Nat where
  Started_ := true
  StopThreads_ := false
  netlink_sock_ := true
  subscribed := true
  ProcEvProducerThread_ := some .entry
  CallbackDispatchThread_ := some .waiting
  control := .idle
  ProcEvQueue_ := []
  returned := [0]
  received := []
  pushed := []
  dropped := []
  handed := []

/-- Both threads are joined, and `Stop` is about to close the socket. -/
def closing : State Nat :=
  { asleep with StopThreads_ := true, subscribed := false, ProcEvProducerThread_ := none,
                CallbackDispatchThread_ := none, control := .closing }

theorem stop_cannot_hang_closing :
    asleep.ProcEvQueue_ = [] ∧
      (∃ s', closing.step 8192 .close = some s' ∧ s'.netlink_sock_ = false) ∧
      ∃ a s', a ≠ .wake ∧ closing.step 8192 a = some s' := by
  have hasleep : (monitor Nat 8192).Reachable asleep :=
    ⟨[.start, .connect true true, .subscribe true, .createRecv true, .createDispatcher true,
      .started, .lock], by decide⟩
  have hstop : (monitor Nat 8192).runFrom asleep [.stop, .unsubscribe true, .enter, .test,
      .joinRecv, .notify, .resume, .next, .lock, .joinDispatcher] = some closing := by decide
  obtain ⟨hempty, -, -⟩ := (stop_cannot_hang 8192 asleep hasleep).1 rfl
  obtain ⟨-, hreturned, hgoes⟩ := stop_cannot_hang 8192 closing (hasleep.runFrom hstop)
  exact ⟨hempty, ⟨_, rfl, (hreturned .close _ rfl (Or.inl rfl)).2.2.1⟩, hgoes rfl⟩

end CppDone.Netlink
