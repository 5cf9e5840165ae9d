import CppDone.Netlink.Delivery
import CppDone.Netlink.Lifecycle
import Mathlib.Data.List.Basic

/-!
# What a restarted monitor hands on

Events flow: what is handed on was on the way before or has been received since (`Flow`), and
nothing comes on the way but by a `recv`. So a monitor that starts with nothing on the way hands
on fresh events only.

`Stop` joins both threads, and with them goes what they had in their hands; the queue stays. The
dispatcher looks at `StopThreads_` before it looks at the queue, so what was pushed since its last
swap is left there for the dispatcher of the next `Start`.
-/

set_option autoImplicit false

namespace CppDone.Netlink

variable {D : Type} {M : Nat} {s t u s' : State D}

/-- The events received and not handed on yet, the oldest first. -/
def State.onTheWay (s : State D) : List (ProcEvent D) :=
  s.tempEvQueue ++ s.ProcEvQueue_ ++ s.inHand

/-- From `s` to `t`: what is handed on or on the way now was on the way or is received since. -/
def Flow (s t : State D) : Prop :=
  ∃ given taken, t.handed = s.handed ++ given ∧ t.received = s.received ++ taken ∧
    (given ++ t.onTheWay).Sublist (s.onTheWay ++ taken)

theorem Flow.refl (s : State D) : Flow s s := by
  refine ⟨[], [], (List.append_nil _).symm, (List.append_nil _).symm, ?_⟩
  rw [List.nil_append, List.append_nil]

theorem Flow.trans (h : Flow s t) (h' : Flow t u) : Flow s u := by
  obtain ⟨given, taken, hhand, hrec, hsub⟩ := h
  obtain ⟨given', taken', hhand', hrec', hsub'⟩ := h'
  refine ⟨given ++ given', taken ++ taken', ?_, ?_, ?_⟩
  · rw [hhand', hhand, List.append_assoc]
  · rw [hrec', hrec, List.append_assoc]
  · have hfirst : (given ++ (given' ++ u.onTheWay)).Sublist (given ++ (t.onTheWay ++ taken')) :=
      hsub'.append_left given
    have hthen : ((given ++ t.onTheWay) ++ taken').Sublist ((s.onTheWay ++ taken) ++ taken') :=
      hsub.append_right taken'
    rw [List.append_assoc, List.append_assoc] at hthen
    rw [List.append_assoc]
    exact hfirst.trans hthen

theorem Flow.of_events {e : Events D} (he : s'.events = e) (given taken : List (ProcEvent D))
    (hhand : e.handed = s.handed ++ given) (hrec : e.received = s.received ++ taken)
    (hsub : (given ++ (e.tempEvQueue ++ e.ProcEvQueue_ ++ e.inHand)).Sublist
      (s.onTheWay ++ taken)) : Flow s s' := by
  subst he
  exact ⟨given, taken, hhand, hrec, hsub⟩

/-- Nothing is received or handed on, and at most something is lost on the way. -/
theorem Flow.of_sublist {e : Events D} (he : s'.events = e) (hhand : e.handed = s.handed)
    (hrec : e.received = s.received)
    (hsub : (e.tempEvQueue ++ e.ProcEvQueue_ ++ e.inHand).Sublist s.onTheWay) : Flow s s' := by
  refine Flow.of_events he [] [] ?_ ?_ ?_
  · rw [hhand, List.append_nil]
  · rw [hrec, List.append_nil]
  · rw [List.nil_append, List.append_nil]
    exact hsub

theorem Flow.step {a : Action D} (hs : s.step M a = some s') : Flow s s' := by
  -- by what becomes of the events on the way
  cases State.moved hs with
  | still he => exact Flow.of_sublist he rfl rfl (List.Sublist.refl _)
  | recv ev hin he =>
    apply Flow.of_events he [] [ev] (List.append_nil _).symm rfl
    show (s.tempEvQueue ++ s.ProcEvQueue_ ++ [ev]).Sublist (s.onTheWay ++ [ev])
    unfold State.onTheWay
    rw [hin, List.append_nil]
  | pushOut ev oldest rest hin hq he =>
    apply Flow.of_sublist he rfl rfl
    show (s.tempEvQueue ++ (rest ++ [ev]) ++ []).Sublist s.onTheWay
    unfold State.onTheWay
    rw [hq, hin, List.append_nil, List.append_assoc]
    -- the oldest one falls out, and the others keep their order
    apply List.Sublist.append_left
    exact List.sublist_cons_self oldest (rest ++ [ev])
  | push ev hin he =>
    apply Flow.of_sublist he rfl rfl
    show (s.tempEvQueue ++ (s.ProcEvQueue_ ++ [ev]) ++ []).Sublist s.onTheWay
    unfold State.onTheWay
    rw [hin, List.append_nil, List.append_assoc]
  | swap htemp he =>
    apply Flow.of_sublist he rfl rfl
    show (s.ProcEvQueue_ ++ [] ++ s.inHand).Sublist s.onTheWay
    unfold State.onTheWay
    rw [htemp, List.append_nil, List.nil_append]
  | hand ev rest htemp he =>
    -- handed on: the front of what was on the way
    apply Flow.of_events he [ev] [] rfl (List.append_nil _).symm
    show ([ev] ++ (rest ++ s.ProcEvQueue_ ++ s.inHand)).Sublist (s.onTheWay ++ [])
    unfold State.onTheWay
    rw [htemp, List.append_nil]
    exact List.Sublist.refl _

theorem flow_runFrom {as : List (Action D)} (h : (monitor D M).runFrom s as = some t) :
    Flow s t := by
  refine Machine.runFrom_inv (I := fun t => Flow s t) ?_ (Flow.refl s) h
  intro t a t' hflow hs
  exact hflow.trans (Flow.step hs)

/-! ## Between a stopped monitor and its next `Start`

Of a stopped monitor only the queue is left. If that is empty, all that the next dispatcher hands on
has been received since; if it is not, there is a schedule that hands the old event on first. -/

/-- No `Start` has succeeded since the last `Stop`, and none is under way. What `Start` has left
behind that failed is the same as what `Stop` leaves. -/
structure State.Stopped (s : State D) : Prop where
  control : s.control = .idle
  Started_ : s.Started_ = false

/-- The events handed on since `s` are among those received since `s`, in order. -/
def State.FreshSince (s t : State D) : Prop :=
  (t.handed.drop s.handed.length).Sublist (t.received.drop s.received.length)

/-- In the run `as`, what is handed on from when the monitor is stopped is received from then. So
no cycle hands on what an earlier one received. -/
def HandsOnFresh (M : Nat) (as : List (Action D)) : Prop :=
  ∀ pre post s t, as = pre ++ post → (monitor D M).run pre = some s → s.Stopped →
    (monitor D M).runFrom s post = some t → s.FreshSince t

/-- A `Start` of a stopped monitor finds nothing queued. -/
def EmptyAtStart (s : State D) (a : Action D) : Prop :=
  a = .start → s.Started_ = false → s.ProcEvQueue_ = []

instance [DecidableEq D] (s : State D) (a : Action D) : Decidable (EmptyAtStart s a) :=
  inferInstanceAs (Decidable (_ → _ → _))

theorem Lifecycle.clean (hl : Lifecycle s) (hstop : s.Stopped) : Clean s := by
  unfold Lifecycle at hl
  rw [hstop.control] at hl
  rcases hl with ⟨hst, -⟩ | hclean
  · rw [hstop.Started_] at hst
    cases hst
  · exact hclean

/-- Of a stopped monitor, only the queue is left. -/
theorem Clean.onTheWay (hclean : Clean s) : s.onTheWay = s.ProcEvQueue_ := by
  unfold State.onTheWay State.tempEvQueue State.inHand
  rw [hclean.receiver, hclean.dispatcher]
  exact List.append_nil _

theorem Flow.freshSince (h : Flow s t) (hempty : s.onTheWay = []) : s.FreshSince t := by
  obtain ⟨given, taken, hhand, hrec, hsub⟩ := h
  rw [hempty, List.nil_append] at hsub
  unfold State.FreshSince
  rw [hhand, hrec, List.drop_left, List.drop_left]
  exact (List.sublist_append_left given t.onTheWay).trans hsub

/-- A stopped monitor does nothing but start. -/
theorem stopped_step (hl : Lifecycle s) (hstop : s.Stopped) {a : Action D} (ha : a ≠ .start)
    (hs : s.step M a = some s') : s' = s := by
  have hclean := hl.clean hstop
  have hidle : ∀ {c : Control}, s.control = c → c = .idle := fun hc => hc ▸ hstop.control
  have hrec : ∀ {r : Receiver D}, s.ProcEvProducerThread_ ≠ some r := fun hp => by
    rw [hclean.receiver] at hp
    cases hp
  have hdis : ∀ {d : Dispatcher D}, s.CallbackDispatchThread_ ≠ some d := fun hd => by
    rw [hclean.dispatcher] at hd
    cases hd
  -- the steps of the controller need it elsewhere, those of the loops a thread
  cases a with
  | start => exact absurd rfl ha
  | stop =>
    -- `Stop` of a stopped monitor returns at once
    obtain ⟨-, ⟨hst, -⟩ | ⟨-, rfl⟩⟩ := State.stop_cases hs
    · rw [hstop.Started_] at hst
      cases hst
    · rfl
  | connect socketOk bindOk => exact nomatch hidle (State.connect_cases hs).1
  | subscribe sendOk => exact nomatch hidle (State.subscribe_cases hs).1
  | createRecv ok => exact nomatch hidle (State.createRecv_cases hs).1
  | createDispatcher ok => exact nomatch hidle (State.createDispatcher_cases hs).1
  | started => exact nomatch hidle (State.started_cases hs).1
  | unsubscribe sendOk => exact nomatch hidle (State.unsubscribe_cases hs).1
  | joinRecv => exact nomatch hidle (State.joinRecv_cases hs).1
  | notify => exact nomatch hidle (State.notify_cases hs).1
  | joinDispatcher => exact nomatch hidle (State.joinDispatcher_cases hs).1
  | close => exact nomatch hidle (State.close_cases hs).1
  | enter => exact absurd (State.enter_cases hs).1 hrec
  | test => exact absurd (State.test_cases hs).1 hrec
  | recv r => exact absurd (State.recv_cases hs).1 hrec
  | push =>
    obtain ⟨ev, hp, -⟩ := State.push_cases hs
    exact absurd hp hrec
  | lock => exact absurd (State.lock_cases hs).1 hdis
  | wake => exact absurd (State.wake_cases hs).1 hdis
  | resume =>
    obtain ⟨⟨notified, hd⟩, -⟩ := State.resume_cases hs
    exact absurd hd hdis
  | next =>
    obtain ⟨hd, -⟩ | ⟨ev, tempEvQueue, hd, -⟩ := State.next_cases hs
    · exact absurd hd hdis
    · exact absurd hd hdis
  | handedBack =>
    obtain ⟨ev, tempEvQueue, hd, -⟩ := State.handedBack_cases hs
    exact absurd hd hdis

theorem fresh_of_empty (hl : Lifecycle s) (hstop : s.Stopped) (hempty : s.ProcEvQueue_ = [])
    {post : List (Action D)} (h : (monitor D M).runFrom s post = some t) : s.FreshSince t := by
  apply (flow_runFrom h).freshSince
  rw [(hl.clean hstop).onTheWay, hempty]

/-- As long as it is stopped it hands on nothing, and then its `Start` finds nothing queued. -/
theorem fresh_of_meetsFrom (hl : Lifecycle s) (hstop : s.Stopped) {post : List (Action D)}
    (hm : (monitor D M).MeetsFrom EmptyAtStart s post)
    (h : (monitor D M).runFrom s post = some t) : s.FreshSince t := by
  induction post with
  | nil =>
    obtain rfl : s = t := by simpa using h
    unfold State.FreshSince
    rw [List.drop_length]
    exact List.nil_sublist _
  | cons a post ih =>
    by_cases ha : a = .start
    · exact fresh_of_empty hl hstop (hm.1 ha hstop.Started_) h
    · obtain ⟨s', hs', h'⟩ := Option.bind_eq_some_iff.mp h
      obtain rfl := stopped_step hl hstop ha hs'
      exact ih (hm.2 s' hs') h'

/-! ### What is handed on too late

Where the queue is not empty when `Start` is called, a schedule of the new threads hands on an event
from before it. -/

/-- A `Start` in which nothing fails, and the dispatcher takes the queue before anything is
received. -/
def startAndHand : List (Action D) :=
  [.start, .connect true true, .subscribe true, .createRecv true, .createDispatcher true,
    .started, .lock, .next]

theorem stale_of_queued (hl : Lifecycle s) (hstop : s.Stopped) {old : ProcEvent D}
    {rest : List (ProcEvent D)} (hq : s.ProcEvQueue_ = old :: rest) :
    ∃ t, (monitor D M).runFrom s startAndHand = some t ∧ ¬ s.FreshSince t := by
  have hclean := hl.clean hstop
  have hcontrol := hstop.control
  obtain ⟨hst, hstp, hsock, hrec, hdis⟩ := hclean
  cases s with
  | mk =>
    subst hst hstp hsock hrec hdis hcontrol hq
    refine ⟨_, rfl, fun hsub => ?_⟩
    unfold State.FreshSince at hsub
    simp at hsub

/-- **A restarted monitor hands on fresh events only, unless the queue was left full.** In a run
in which every `Start` of the stopped monitor finds nothing queued, no cycle hands on what an
earlier one received; and a stopped monitor is one that can go on to do so exactly if its queue
is not empty. -/
theorem restarted_monitor_fresh (M : Nat) :
    (∀ as : List (Action D), (monitor D M).Meets EmptyAtStart as → HandsOnFresh M as) ∧
    ∀ s : State D, (monitor D M).Reachable s → s.Stopped →
      ((∀ post t, (monitor D M).runFrom s post = some t → s.FreshSince t) ↔
        s.ProcEvQueue_ = []) := by
  constructor
  · intro as hm pre post s t he hs hstop ht
    have hl : Lifecycle s := Machine.Reachable.inv lifecycle_inductive ⟨pre, hs⟩
    rw [he] at hm
    exact fresh_of_meetsFrom hl hstop (hm.rest hs) ht
  · intro s hr hstop
    have hl : Lifecycle s := hr.inv lifecycle_inductive
    constructor
    · intro hfresh
      cases hq : s.ProcEvQueue_ with
      | nil => rfl
      | cons old rest =>
        obtain ⟨t, ht, hstale⟩ := stale_of_queued (M := M) hl hstop hq
        exact absurd (hfresh _ t ht) hstale
    · intro hempty post t ht
      exact fresh_of_empty hl hstop hempty ht

/-- The receiver pushes one event before the monitor is stopped. -/
def oneEvent : List (Action Nat) :=
  [.start, .connect true true, .subscribe true, .createRecv true, .createDispatcher true,
    .started, .enter, .test, .recv (.event ⟨.FORK, 1⟩), .push]

/-- `Stop`, with both threads going by themselves to their next look at `StopThreads_`. -/
def stopped : List (Action Nat) :=
  [.stop, .unsubscribe true, .test, .joinRecv, .lock, .notify, .joinDispatcher, .close]

theorem restarted_monitor_fresh_drained :
    HandsOnFresh 8192 (oneEvent ++ [.lock, .next, .handedBack, .next] ++ stopped ++ startAndHand) ∧
      (State.init : State Nat).FreshSince .init := by
  obtain ⟨hrun, hiff⟩ := restarted_monitor_fresh (D := Nat) 8192
  refine ⟨hrun _ (by decide), ?_⟩
  exact (hiff .init .init ⟨rfl, rfl⟩).mpr rfl [] .init rfl

/-- **The event was received before the `Stop`** and is handed on after the next `Start`, which
has received nothing yet. -/
theorem restarted_monitor_stale :
    ¬ HandsOnFresh 8192 (oneEvent ++ stopped ++ startAndHand) := by
  intro hfresh
  obtain ⟨s, hs⟩ := Option.isSome_iff_exists.mp
    (show ((monitor Nat 8192).run (oneEvent ++ stopped)).isSome = true by decide)
  have hleft : ((monitor Nat 8192).run (oneEvent ++ stopped)).map (fun s =>
      (s.control, s.Started_, s.ProcEvQueue_)) = some (.idle, false, [⟨.FORK, 1⟩]) := by decide
  rw [hs] at hleft
  obtain ⟨hcontrol, hst, hq⟩ := Prod.ext_iff.mp (Option.some.inj hleft) |>.imp_right
    Prod.ext_iff.mp
  have hl : Lifecycle s := Machine.Reachable.inv lifecycle_inductive ⟨_, hs⟩
  have hstop : s.Stopped := ⟨hcontrol, hst⟩
  obtain ⟨t, ht, hstale⟩ := stale_of_queued (M := 8192) hl hstop hq
  exact hstale (hfresh _ startAndHand s t rfl hs hstop ht)

end CppDone.Netlink
