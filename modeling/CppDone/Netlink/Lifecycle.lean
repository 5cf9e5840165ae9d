import CppDone.Netlink.Monitor

/-!
# What the monitor holds while it starts and stops

The controller is alone in `Start` and `Stop`, so the flags, the socket and which thread objects
are joinable follow from where it is (`Lifecycle`). The loops only move their own thread along:
none of them opens, closes, creates or joins anything.

Two things are read off. Whether `Start` is all or nothing is a matter of the handler around the
two thread creations, which swallows the exception and lets `Start` go on to success. And `Stop`
comes to its end with both threads joined, because the dispatcher waits only where nobody has to
wake it: with the queue empty, and not after the notification of `Stop`.
-/

set_option autoImplicit false

namespace CppDone.Netlink

variable {D : Type} {M : Nat} {s s' : State D}

/-- Nothing is held: as before the first `Start`. What may be left is in the queue, which nobody
clears. -/
structure Clean (s : State D) : Prop where
  Started_ : s.Started_ = false
  StopThreads_ : s.StopThreads_ = false
  netlink_sock_ : s.netlink_sock_ = false
  receiver : s.ProcEvProducerThread_ = none
  dispatcher : s.CallbackDispatchThread_ = none

/-- The socket is open and the subscription was sent. -/
structure Listening (s : State D) : Prop where
  StopThreads_ : s.StopThreads_ = false
  netlink_sock_ : s.netlink_sock_ = true
  subscribed : s.subscribed = true

/-- Between the flag and the end of `Stop`. -/
structure Stopping (s : State D) : Prop where
  Started_ : s.Started_ = true
  StopThreads_ : s.StopThreads_ = true

/-- One case for each place of the controller: what it holds there, and which of its two threads
exist. -/
def Lifecycle (s : State D) : Prop :=
  match s.control with
  | .idle => s.Started_ = true ∧ Listening s ∨ Clean s
  | .connecting => Clean s
  | .subscribing =>
    s.Started_ = false ∧ s.StopThreads_ = false ∧ s.netlink_sock_ = true ∧
      s.ProcEvProducerThread_ = none ∧ s.CallbackDispatchThread_ = none
  | .createRecv =>
    Listening s ∧ s.Started_ = false ∧ s.ProcEvProducerThread_ = none ∧
      s.CallbackDispatchThread_ = none
  | .createDispatcher => Listening s ∧ s.Started_ = false ∧ s.CallbackDispatchThread_ = none
  | .started => Listening s
  | .unsubscribing | .joinRecv => Stopping s
  | .notifying | .joinDispatcher => Stopping s ∧ s.ProcEvProducerThread_ = none
  | .closing =>
    Stopping s ∧ s.ProcEvProducerThread_ = none ∧ s.CallbackDispatchThread_ = none

/-! ## Its steps

A step of a loop leaves the controller where it is, with what it holds. A step of the controller
goes from one place to the next. -/

/-- A step of a loop. -/
theorem Lifecycle.loop (h : Lifecycle s) (hf : LoopFrame s s') : Lifecycle s' := by
  have hclean : Clean s → Clean s' := fun hcl =>
    ⟨hf.Started_.trans hcl.Started_, hf.StopThreads_.trans hcl.StopThreads_,
      hf.netlink_sock_.trans hcl.netlink_sock_, hf.receiver.mpr hcl.receiver,
      hf.dispatcher.mpr hcl.dispatcher⟩
  have hlisten : Listening s → Listening s' := fun hl =>
    ⟨hf.StopThreads_.trans hl.StopThreads_, hf.netlink_sock_.trans hl.netlink_sock_,
      hf.subscribed.trans hl.subscribed⟩
  have hstopping : Stopping s → Stopping s' := fun hst =>
    ⟨hf.Started_.trans hst.Started_, hf.StopThreads_.trans hst.StopThreads_⟩
  -- the controller stays where it is, so each place keeps what it has
  unfold Lifecycle at h ⊢
  rw [hf.control]
  split at h
  · exact h.imp (fun hl => ⟨hf.Started_.trans hl.1, hlisten hl.2⟩) hclean
  · exact hclean h
  · obtain ⟨hst, hstop, hsock, hp, hd⟩ := h
    exact ⟨hf.Started_.trans hst, hf.StopThreads_.trans hstop, hf.netlink_sock_.trans hsock,
      hf.receiver.mpr hp, hf.dispatcher.mpr hd⟩
  · obtain ⟨hl, hst, hp, hd⟩ := h
    exact ⟨hlisten hl, hf.Started_.trans hst, hf.receiver.mpr hp, hf.dispatcher.mpr hd⟩
  · obtain ⟨hl, hst, hd⟩ := h
    exact ⟨hlisten hl, hf.Started_.trans hst, hf.dispatcher.mpr hd⟩
  · exact hlisten h
  · exact hstopping h
  · exact hstopping h
  · exact ⟨hstopping h.1, hf.receiver.mpr h.2⟩
  · exact ⟨hstopping h.1, hf.receiver.mpr h.2⟩
  · exact ⟨hstopping h.1, hf.receiver.mpr h.2.1, hf.dispatcher.mpr h.2.2⟩

theorem lifecycle_init : Lifecycle (State.init : State D) :=
  Or.inr ⟨rfl, rfl, rfl, rfl, rfl⟩

/-- Each step of the controller begins at the place that the one before it has left, so its case is
about two lines of the source. -/
theorem Lifecycle.step (h : Lifecycle s) {a : Action D} (hs : s.step M a = some s') :
    Lifecycle s' := by
  have hat := h
  unfold Lifecycle at hat
  -- each step of the controller finds what its place says, and leaves what the next one asks for
  cases a with
  | start =>
    obtain ⟨hc, ⟨-, rfl⟩ | ⟨hst, rfl⟩⟩ := State.start_cases hs
    -- started already: the call returns at once
    · rw [hc] at hat
      unfold Lifecycle
      dsimp only
      rw [hc]
      exact hat.imp (fun hl => ⟨hl.1, hl.2.1, hl.2.2, hl.2.3⟩)
        fun hcl => ⟨hcl.1, hcl.2, hcl.3, hcl.4, hcl.5⟩
    · rw [hc] at hat
      rcases hat with ⟨hst', -⟩ | hclean
      · rw [hst] at hst'
        cases hst'
      · exact ⟨hclean.1, hclean.2, hclean.3, hclean.4, hclean.5⟩
  | connect socketOk bindOk =>
    obtain ⟨hc, hcases⟩ := State.connect_cases hs
    rw [hc] at hat
    have hclean : Clean s := hat
    obtain ⟨hsock, -⟩ | ⟨-, ⟨-, rfl⟩ | ⟨-, rfl⟩⟩ := hcases
    -- there is no socket from before, since the last `Stop` has closed it
    · rw [hclean.netlink_sock_] at hsock
      cases hsock
    · exact ⟨hclean.Started_, hclean.StopThreads_, rfl, hclean.receiver, hclean.dispatcher⟩
    · exact Or.inr ⟨hclean.1, hclean.2, hclean.3, hclean.4, hclean.5⟩
  | subscribe sendOk =>
    obtain ⟨hc, hcases⟩ := State.subscribe_cases hs
    rw [hc] at hat
    obtain ⟨hst, hstop, hsock, hp, hd⟩ := hat
    obtain ⟨-, rfl⟩ | ⟨-, rfl⟩ := hcases
    · exact ⟨⟨hstop, hsock, rfl⟩, hst, hp, hd⟩
    · exact Or.inr ⟨hst, hstop, rfl, hp, hd⟩
  | createRecv ok =>
    obtain ⟨hc, hcases⟩ := State.createRecv_cases hs
    rw [hc] at hat
    obtain ⟨hl, hst, hp, hd⟩ := hat
    -- created, or the exception goes to the handler, which leaves all as it is
    obtain ⟨-, -, rfl⟩ | ⟨-, rfl⟩ := hcases
    · exact ⟨⟨hl.1, hl.2, hl.3⟩, hst, hd⟩
    · show Listening _
      exact ⟨hl.1, hl.2, hl.3⟩
  | createDispatcher ok =>
    obtain ⟨hc, hcases⟩ := State.createDispatcher_cases hs
    rw [hc] at hat
    obtain ⟨hl, hst, hd⟩ := hat
    obtain ⟨-, -, rfl⟩ | ⟨-, rfl⟩ := hcases <;>
      (show Listening _; exact ⟨hl.1, hl.2, hl.3⟩)
  | started =>
    obtain ⟨hc, rfl⟩ := State.started_cases hs
    rw [hc] at hat
    have hl : Listening s := hat
    exact Or.inl ⟨rfl, hl.1, hl.2, hl.3⟩
  | stop =>
    obtain ⟨hc, ⟨hst, rfl⟩ | ⟨-, rfl⟩⟩ := State.stop_cases hs
    · show Stopping _
      exact ⟨hst, rfl⟩
    · exact h
  | unsubscribe sendOk =>
    obtain ⟨hc, rfl⟩ := State.unsubscribe_cases hs
    rw [hc] at hat
    have hst : Stopping s := hat
    show Stopping _
    exact ⟨hst.1, hst.2⟩
  | joinRecv =>
    obtain ⟨hc, -, rfl⟩ := State.joinRecv_cases hs
    rw [hc] at hat
    have hst : Stopping s := hat
    exact ⟨⟨hst.1, hst.2⟩, rfl⟩
  | notify =>
    obtain ⟨hc, rfl⟩ := State.notify_cases hs
    rw [hc] at hat
    obtain ⟨hst, hp⟩ := hat
    exact ⟨⟨hst.1, hst.2⟩, hp⟩
  | joinDispatcher =>
    obtain ⟨hc, -, rfl⟩ := State.joinDispatcher_cases hs
    rw [hc] at hat
    obtain ⟨hst, hp⟩ := hat
    exact ⟨⟨hst.1, hst.2⟩, hp, rfl⟩
  | close =>
    obtain ⟨hc, rfl⟩ := State.close_cases hs
    rw [hc] at hat
    obtain ⟨-, hp, hd⟩ := hat
    -- flags down, socket closed, both threads joined
    exact Or.inr ⟨rfl, rfl, rfl, hp, hd⟩
  | _ => exact h.loop (State.loop_frame rfl hs)

theorem lifecycle_inductive : (monitor D M).Inductive Lifecycle where
  init := lifecycle_init
  step h hs := h.step hs

/-! ## `Start`

What it has to have done to return success, and what it may leave behind when it does not. Both are
read off the place the controller is at, except for the threads, which may be missing. -/

/-- All of it: the socket, the subscription and both threads. A thread object that is there may have
left its loop by itself, when `recv` has failed. -/
structure Up (s : State D) : Prop where
  netlink_sock_ : s.netlink_sock_ = true
  subscribed : s.subscribed = true
  receiver : s.ProcEvProducerThread_ ≠ none
  dispatcher : s.CallbackDispatchThread_ ≠ none

/-- What a step leaves that returns from `Start` or from `Stop`. A step that returns from neither
leaves `returned` as it is, and then only the last field can say something. -/
structure AllOrNothing (s : State D) (a : Action D) (s' : State D) : Prop where
  result : s'.returned = s.returned ∨ s'.returned = s.returned ++ [0] ∨
    s'.returned = s.returned ++ [-1]
  success : s'.returned = s.returned ++ [0] → Up s'
  failure : s'.returned = s.returned ++ [-1] → s'.control = .idle ∧ Clean s'
  stopped : a = .close ∨ a = .stop ∧ s'.control = .idle → s'.control = .idle ∧ Clean s'

/-- The creation of a thread does not fail in this step. -/
def Creates (_ : State D) (a : Action D) : Prop :=
  a ≠ .createRecv false ∧ a ≠ .createDispatcher false

instance [DecidableEq D] (s : State D) (a : Action D) : Decidable (Creates s a) :=
  inferInstanceAs (Decidable (_ ∧ _))

/-! ### The threads of a `Start`

Where the creations go well, there are two threads from their creation on, and `Start` returns 0
with both of them. -/

/-- The threads that `Start` has created by now are there. A `Start` that could not create a thread
is past this, and so excluded. -/
structure Created (s : State D) : Prop where
  receiver : s.control = .createDispatcher → s.ProcEvProducerThread_ ≠ none
  both : s.control = .started ∨ s.control = .idle ∧ s.Started_ = true →
    s.ProcEvProducerThread_ ≠ none ∧ s.CallbackDispatchThread_ ≠ none

theorem created_init : Created (State.init : State D) where
  receiver h := (by cases h)
  both h := by
    rcases h with h | ⟨-, h⟩ <;> cases h

/-- A step of a loop. -/
theorem Created.loop (h : Created s) (hf : LoopFrame s s') : Created s' where
  receiver h' := by
    rw [hf.control] at h'
    exact mt hf.receiver.mp (h.receiver h')
  both h' := by
    rw [hf.control, hf.Started_] at h'
    exact (h.both h').imp (mt hf.receiver.mp) (mt hf.dispatcher.mp)

/-- A step of the controller to where no thread is promised. -/
theorem Created.of_control (h₁ : s.control ≠ .createDispatcher) (h₂ : s.control ≠ .started)
    (h₃ : s.control = .idle → s.Started_ = false) : Created s where
  receiver h := absurd h h₁
  both h := by
    rcases h with h | ⟨hc, hst⟩
    · exact absurd h h₂
    · rw [h₃ hc] at hst
      cases hst

/-- With every creation going well, the threads are there from their creation to their join. -/
theorem Created.step (h : Created s) (hl : Lifecycle s) {a : Action D} (ha : Creates s a)
    (hs : s.step M a = some s') : Created s' := by
  unfold Lifecycle at hl
  -- both creations go well; what is between them and the end of `Start` is a matter of control
  cases a with
  | start =>
    obtain ⟨-, ⟨-, rfl⟩ | ⟨-, rfl⟩⟩ := State.start_cases hs
    · exact ⟨h.receiver, h.both⟩
    · exact Created.of_control nofun nofun nofun
  | connect socketOk bindOk =>
    obtain ⟨hc, hcases⟩ := State.connect_cases hs
    rw [hc] at hl
    have hclean : Clean s := hl
    obtain ⟨-, rfl⟩ | ⟨-, ⟨-, rfl⟩ | ⟨-, rfl⟩⟩ := hcases
    · exact Created.of_control nofun nofun nofun
    · exact Created.of_control nofun nofun nofun
    · exact Created.of_control nofun nofun fun _ => hclean.Started_
  | subscribe sendOk =>
    obtain ⟨hc, hcases⟩ := State.subscribe_cases hs
    rw [hc] at hl
    obtain ⟨-, rfl⟩ | ⟨-, rfl⟩ := hcases
    · exact Created.of_control nofun nofun nofun
    · exact Created.of_control nofun nofun fun _ => hl.1
  | createRecv ok =>
    obtain ⟨-, ⟨-, -, rfl⟩ | ⟨rfl, -⟩⟩ := State.createRecv_cases hs
    · exact ⟨fun _ => nofun, fun h' => by rcases h' with h' | ⟨h', -⟩ <;> cases h'⟩
    -- the creation that fails is not in this run
    · exact absurd rfl ha.1
  | createDispatcher ok =>
    obtain ⟨hc, ⟨-, -, rfl⟩ | ⟨rfl, -⟩⟩ := State.createDispatcher_cases hs
    · exact ⟨nofun, fun _ => ⟨h.receiver hc, nofun⟩⟩
    · exact absurd rfl ha.2
  | started =>
    obtain ⟨hc, rfl⟩ := State.started_cases hs
    exact ⟨nofun, fun _ => h.both (Or.inl hc)⟩
  | stop =>
    obtain ⟨-, ⟨-, rfl⟩ | ⟨-, rfl⟩⟩ := State.stop_cases hs
    · exact Created.of_control nofun nofun nofun
    · exact h
  | unsubscribe sendOk =>
    obtain ⟨-, rfl⟩ := State.unsubscribe_cases hs
    exact Created.of_control nofun nofun nofun
  | joinRecv =>
    obtain ⟨-, -, rfl⟩ := State.joinRecv_cases hs
    exact Created.of_control nofun nofun nofun
  | notify =>
    obtain ⟨-, rfl⟩ := State.notify_cases hs
    exact Created.of_control nofun nofun nofun
  | joinDispatcher =>
    obtain ⟨-, -, rfl⟩ := State.joinDispatcher_cases hs
    exact Created.of_control nofun nofun nofun
  | close =>
    obtain ⟨-, rfl⟩ := State.close_cases hs
    exact Created.of_control nofun nofun fun _ => rfl
  | _ => exact h.loop (State.loop_frame rfl hs)

/-! ### The returns

What was returned is a list that a return makes longer by one, so a step is a return of 0, of -1, of
`Stop`, or none. -/

theorem ne_append_singleton {l : List Int} {x : Int} : l ≠ l ++ [x] := fun h => by
  have hlen := congrArg List.length h
  rw [List.length_append, List.length_singleton] at hlen
  omega

theorem append_singleton_inj {l : List Int} {x y : Int} (h : l ++ [x] = l ++ [y]) : x = y :=
  List.singleton_inj.mp (List.append_cancel_left h)

/-- A step that returns from nothing. -/
theorem AllOrNothing.quiet {a : Action D} (h : s'.returned = s.returned) (hclose : a ≠ .close)
    (hstop : a ≠ .stop ∨ s'.control ≠ .idle) : AllOrNothing s a s' where
  result := Or.inl h
  success h' := absurd (h.symm.trans h') ne_append_singleton
  failure h' := absurd (h.symm.trans h') ne_append_singleton
  stopped h' := by
    rcases h' with h' | ⟨h', hc⟩
    · exact absurd h' hclose
    · exact absurd hc (hstop.resolve_left (absurd h'))

theorem AllOrNothing.returned_zero {a : Action D} (h : s'.returned = s.returned ++ [0])
    (hclose : a ≠ .close) (hstop : a ≠ .stop) (hup : Up s') : AllOrNothing s a s' where
  result := Or.inr (Or.inl h)
  success _ := hup
  failure h' := by
    have heq := append_singleton_inj (h.symm.trans h')
    cases heq
  stopped h' := by
    rcases h' with h' | ⟨h', -⟩
    · exact absurd h' hclose
    · exact absurd h' hstop

theorem AllOrNothing.returned_error {a : Action D} (h : s'.returned = s.returned ++ [-1])
    (hc : s'.control = .idle) (hclean : Clean s') : AllOrNothing s a s' where
  result := Or.inr (Or.inr h)
  success h' := by
    have heq := append_singleton_inj (h.symm.trans h')
    cases heq
  failure _ := ⟨hc, hclean⟩
  stopped _ := ⟨hc, hclean⟩

theorem AllOrNothing.returned_void {a : Action D} (h : s'.returned = s.returned)
    (hc : s'.control = .idle) (hclean : Clean s') : AllOrNothing s a s' where
  result := Or.inl h
  success h' := absurd (h.symm.trans h') ne_append_singleton
  failure _ := ⟨hc, hclean⟩
  stopped _ := ⟨hc, hclean⟩

/-- The returns are the steps that need an argument: that of a call which has nothing to do, of a
`Start` that fails or comes to its end, and of a `Stop` that does. -/
theorem Created.allOrNothing (h : Created s) (hl : Lifecycle s) {a : Action D}
    (hs : s.step M a = some s') : AllOrNothing s a s' := by
  have hl' := hl.step hs
  unfold Lifecycle at hl hl'
  cases a with
  | start =>
    obtain ⟨hc, ⟨hst, rfl⟩ | ⟨-, rfl⟩⟩ := State.start_cases hs
    · -- the monitor runs already
      rw [hc] at hl
      have hl : Listening s := by
        rcases hl with ⟨-, hl⟩ | hclean
        · exact hl
        · rw [hclean.Started_] at hst
          cases hst
      obtain ⟨hp, hd⟩ := h.both (Or.inr ⟨hc, hst⟩)
      exact AllOrNothing.returned_zero rfl nofun nofun ⟨hl.2, hl.3, hp, hd⟩
    · exact AllOrNothing.quiet rfl nofun (Or.inl nofun)
  | connect socketOk bindOk =>
    obtain ⟨hc, hcases⟩ := State.connect_cases hs
    rw [hc] at hl
    have hclean : Clean s := hl
    obtain ⟨-, rfl⟩ | ⟨-, ⟨-, rfl⟩ | ⟨-, rfl⟩⟩ := hcases
    · exact AllOrNothing.quiet rfl nofun (Or.inl nofun)
    · exact AllOrNothing.quiet rfl nofun (Or.inl nofun)
    · exact AllOrNothing.returned_error rfl rfl
        ⟨hclean.1, hclean.2, hclean.3, hclean.4, hclean.5⟩
  | subscribe sendOk =>
    obtain ⟨hc, hcases⟩ := State.subscribe_cases hs
    rw [hc] at hl
    obtain ⟨hst, hstop, -, hp, hd⟩ := hl
    obtain ⟨-, rfl⟩ | ⟨-, rfl⟩ := hcases
    · exact AllOrNothing.quiet rfl nofun (Or.inl nofun)
    · exact AllOrNothing.returned_error rfl rfl ⟨hst, hstop, rfl, hp, hd⟩
  | createRecv ok =>
    obtain ⟨-, ⟨-, -, rfl⟩ | ⟨-, rfl⟩⟩ := State.createRecv_cases hs <;>
      exact AllOrNothing.quiet rfl nofun (Or.inl nofun)
  | createDispatcher ok =>
    obtain ⟨-, ⟨-, -, rfl⟩ | ⟨-, rfl⟩⟩ := State.createDispatcher_cases hs <;>
      exact AllOrNothing.quiet rfl nofun (Or.inl nofun)
  | started =>
    obtain ⟨hc, rfl⟩ := State.started_cases hs
    rw [hc] at hl
    have hl : Listening s := hl
    obtain ⟨hp, hd⟩ := h.both (Or.inl hc)
    exact AllOrNothing.returned_zero rfl nofun nofun ⟨hl.2, hl.3, hp, hd⟩
  | stop =>
    obtain ⟨hc, ⟨-, rfl⟩ | ⟨hst, rfl⟩⟩ := State.stop_cases hs
    · exact AllOrNothing.quiet rfl nofun (Or.inr nofun)
    · rw [hc] at hl
      rcases hl with ⟨hst', -⟩ | hclean
      · rw [hst] at hst'
        cases hst'
      · exact AllOrNothing.returned_void rfl hc hclean
  | unsubscribe sendOk =>
    obtain ⟨-, rfl⟩ := State.unsubscribe_cases hs
    exact AllOrNothing.quiet rfl nofun (Or.inl nofun)
  | joinRecv =>
    obtain ⟨-, -, rfl⟩ := State.joinRecv_cases hs
    exact AllOrNothing.quiet rfl nofun (Or.inl nofun)
  | notify =>
    obtain ⟨-, rfl⟩ := State.notify_cases hs
    exact AllOrNothing.quiet rfl nofun (Or.inl nofun)
  | joinDispatcher =>
    obtain ⟨-, -, rfl⟩ := State.joinDispatcher_cases hs
    exact AllOrNothing.quiet rfl nofun (Or.inl nofun)
  | close =>
    obtain ⟨hc, rfl⟩ := State.close_cases hs
    rw [hc] at hl
    obtain ⟨-, hp, hd⟩ := hl
    exact AllOrNothing.returned_void rfl rfl ⟨rfl, rfl, rfl, hp, hd⟩
  | _ => exact AllOrNothing.quiet (State.loop_frame rfl hs).returned nofun (Or.inl nofun)

/-- A `Start` in which a thread was not created returns 0 without it. -/
theorem started_without_thread (hl : Lifecycle s) {a : Action D} (ha : ¬ Creates s a)
    (hs : s.step M a = some s') :
    ∃ s'', s'.step M .started = some s'' ∧ ¬ AllOrNothing s' .started s'' := by
  have hcases : a = .createRecv false ∨ a = .createDispatcher false := by
    by_contra hne
    exact ha ⟨fun h => hne (Or.inl h), fun h => hne (Or.inr h)⟩
  unfold Lifecycle at hl
  rcases hcases with rfl | rfl
  · obtain ⟨hc, ⟨hok, -, -⟩ | ⟨-, rfl⟩⟩ := State.createRecv_cases hs
    · cases hok
    · rw [hc] at hl
      exact ⟨_, rfl, fun hall => (hall.success rfl).receiver hl.2.2.1⟩
  · obtain ⟨hc, ⟨hok, -, -⟩ | ⟨-, rfl⟩⟩ := State.createDispatcher_cases hs
    · cases hok
    · rw [hc] at hl
      exact ⟨_, rfl, fun hall => (hall.success rfl).dispatcher hl.2.2⟩

/-- **`Start` is all or nothing, unless a thread cannot be created.** In a run in which every
thread creation succeeds, each return of `Start` and of `Stop` leaves all or nothing; and where a
creation fails, the `Start` it belongs to goes on to return 0 without the thread. -/
theorem start_all_or_nothing (M : Nat) :
    (∀ as, (monitor D M).Meets Creates as →
      (monitor D M).Meets (fun s a => ∀ s', s.step M a = some s' → AllOrNothing s a s') as) ∧
    ∀ s, (monitor D M).Reachable s → ∀ a s', ¬ Creates s a → s.step M a = some s' →
      ∃ s'', s'.step M .started = some s'' ∧ ¬ AllOrNothing s' .started s'' := by
  constructor
  · intro as hm
    refine Machine.Meets.imp (I := fun s => Lifecycle s ∧ Created s)
      ⟨lifecycle_init, created_init⟩ ?_ ?_ hm
    · rintro s a s' ⟨hl, hcr⟩ ha hs
      exact ⟨hl.step hs, hcr.step hl ha hs⟩
    · rintro s a ⟨hl, hcr⟩ ha s' hs
      exact hcr.allOrNothing hl hs
  · intro s hr a s' ha hs
    exact started_without_thread (hr.inv lifecycle_inductive) ha hs

/-- `Start` has subscribed and is about to create the threads. -/
def subscribed : State Nat where
  Started_ := false
  StopThreads_ := false
  netlink_sock_ := true
  subscribed := true
  ProcEvProducerThread_ := none
  CallbackDispatchThread_ := none
  control := .createRecv
  ProcEvQueue_ := []
  returned := []
  received := []
  pushed := []
  dropped := []
  handed := []

theorem start_all_or_nothing_up :
    (monitor Nat 8192).Meets
        (fun s a => ∀ s', s.step 8192 a = some s' → AllOrNothing s a s')
        [.start, .connect true false, .start, .connect true true, .subscribe true,
          .createRecv true, .createDispatcher true, .started] ∧
      ∃ s'', State.step { subscribed with control := .started } 8192 .started = some s'' ∧
        ¬ AllOrNothing { subscribed with control := .started } .started s'' := by
  obtain ⟨hall, hnot⟩ := start_all_or_nothing (D := Nat) 8192
  refine ⟨hall _ ?_, ?_⟩
  · decide
  · have hreach : (monitor Nat 8192).Reachable subscribed :=
      ⟨[.start, .connect true true, .subscribe true], by decide⟩
    exact hnot subscribed hreach (.createRecv false) _ (fun h => h.1 rfl) rfl

/-- The receiver cannot be created, and `Start` returns 0 with no thread at all. -/
theorem start_swallows_exception :
    ¬ (monitor Nat 8192).Meets
        (fun s a => ∀ s', s.step 8192 a = some s' → AllOrNothing s a s')
        [.start, .connect true true, .subscribe true, .createRecv false, .started] ∧
      (monitor Nat 8192).run
          [.start, .connect true true, .subscribe true, .createRecv false, .started] =
        some { subscribed with Started_ := true, control := .idle, returned := [0] } := by
  refine ⟨fun hm => ?_, by decide⟩
  have hlast := hm [.start, .connect true true, .subscribe true, .createRecv false] .started []
    { subscribed with control := .started } rfl (by decide) _ rfl
  exact (hlast.success rfl).receiver rfl

end CppDone.Netlink
