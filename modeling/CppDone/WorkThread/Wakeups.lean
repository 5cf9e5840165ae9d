import CppDone.WorkThread.Loop

/-!
# The sleeping worker of `WorkThread`

`PushWork` does not notify, and `StopWork` stores its flag and notifies without the lock that the
worker holds between the test of its predicate and the blocking. Each of the two breaks one
promise, and each by one kind of step: a push that finds the worker asleep, and a notification
that comes while the worker has tested and does not sleep yet.

Everything else is in order: the worker goes to sleep on an empty queue only, and once the flag is
up no test of the predicate fails.
-/

set_option autoImplicit false

namespace CppDone.WorkThread

variable {s s' : State} {stoped_ : Bool}

/-- What the flag is by where the controlling thread is, and what the worker has tested. `StartWork`
and `StopWork` write the flag, each as its first step, and one thread calls both. -/
structure Tested (s : State) : Prop where
  idle : s.control = .idle → s.worker_ ≠ none → s.stoped_ = false
  creating : s.control = .creating → s.stoped_ = false
  stopping : s.control = .notifying ∨ s.control = .joining → s.stoped_ = true
  sleep : s.worker_ = some .sleep → s.works_ = []

theorem tested_init : Tested (workThread stoped_).init where
  idle _ h := absurd rfl h
  creating h := (by cases h)
  stopping h := by rcases h with h | h <;> cases h
  sleep h := (by cases h)

/-- A step that leaves flag, worker and queue alone. -/
theorem Tested.frame (h : Tested s) (hst : s'.stoped_ = s.stoped_) (hc : s'.control = s.control)
    (hw : s'.worker_ = s.worker_) (hq : s'.works_ = s.works_) : Tested s' where
  idle := by
    rw [hst, hc, hw]
    exact h.idle
  creating := by
    rw [hst, hc]
    exact h.creating
  stopping := by
    rw [hst, hc]
    exact h.stopping
  sleep := by
    rw [hw, hq]
    exact h.sleep

theorem map_notify_sleep {w : Option Worker} (h : w.map Worker.notify = some .sleep) :
    w = some .sleep := by
  obtain ⟨pc, rfl, hpc⟩ := Option.map_eq_some_iff.mp h
  rcases Worker.notify_cases pc with ⟨-, hwoken⟩ | ⟨-, hsame⟩
  · cases hwoken.symm.trans hpc
  · rw [← hsame, hpc]

theorem map_notify_ne_waiting (w : Option Worker) : w.map Worker.notify ≠ some .waiting := by
  intro h
  obtain ⟨pc, -, hpc⟩ := Option.map_eq_some_iff.mp h
  rcases Worker.notify_cases pc with ⟨-, hwoken⟩ | ⟨hne, hsame⟩
  · cases hwoken.symm.trans hpc
  · exact hne (hsame.symm.trans hpc)

/-- The worker goes to sleep from the test that it has made, under the lock that it has made it
under. -/
theorem Tested.step (h : Tested s) {a : Action} (hs : s.step a = some s') : Tested s' := by
  cases a with
  | start =>
    obtain ⟨-, rfl⟩ := State.start_cases hs
    exact ⟨nofun, fun _ => rfl, fun hc => (by rcases hc with hc | hc <;> cases hc), h.sleep⟩
  | create ok =>
    obtain ⟨hc, ⟨-, rfl⟩ | rfl⟩ := State.create_cases hs
    · exact ⟨fun _ _ => h.creating hc, nofun, fun hc => (by rcases hc with hc | hc <;> cases hc),
        nofun⟩
    · exact ⟨fun _ _ => h.creating hc, nofun, fun hc => (by rcases hc with hc | hc <;> cases hc),
        h.sleep⟩
  | stop =>
    obtain ⟨-, rfl⟩ := State.stop_cases hs
    exact ⟨nofun, nofun, fun _ => rfl, h.sleep⟩
  | notify =>
    obtain ⟨hc, rfl⟩ := State.notify_cases hs
    exact ⟨nofun, nofun, fun _ => h.stopping (Or.inl hc), fun hw => h.sleep (map_notify_sleep hw)⟩
  | join =>
    obtain ⟨-, -, rfl⟩ := State.join_cases hs
    exact ⟨fun _ hw => absurd rfl hw, nofun, fun hc => (by rcases hc with hc | hc <;> cases hc),
      nofun⟩
  | newWork | setWorkStatus | callPush | testStoped =>
    obtain ⟨hst, hc, hw, hq⟩ := State.prepares_frame rfl hs
    exact h.frame hst hc hw hq
  | push i =>
    -- a worker that has tested holds the lock
    obtain ⟨ptr, -, hfree, rfl⟩ := State.push_cases hs
    refine ⟨h.idle, h.creating, h.stopping, fun hw => ?_⟩
    cases hfree .sleep hw
  | work =>
    obtain ⟨pc, hw, hs⟩ := State.work_cases hs
    obtain ⟨pc', hm⟩ := State.workAt_moves hs
    refine ⟨fun hc _ => ?_, fun hc => ?_, fun hc => ?_, fun hw' => ?_⟩
    · rw [hm.stoped_]
      exact h.idle (hm.control ▸ hc) (by rw [hw]; exact nofun)
    · rw [hm.stoped_]
      exact h.creating (hm.control ▸ hc)
    · rw [hm.stoped_]
      exact h.stopping (hm.control ▸ hc)
    · rw [hm.worker_] at hw'
      have hempty := (hm.sleep (Option.some.inj hw')).2
      rcases hm.works_ with hq | rfl
      · exact hq.trans hempty
      · -- a worker that takes from the queue finds a work there
        unfold State.workAt at hs
        dsimp only at hs
        rw [hempty] at hs
        cases hs
  | wake =>
    obtain ⟨hw, rfl⟩ := State.wake_cases hs
    refine ⟨fun hc _ => h.idle hc ?_, h.creating, h.stopping, nofun⟩
    rw [hw]
    exact nofun

theorem tested_inductive : (workThread stoped_).Inductive Tested where
  init := tested_init
  step h hs := h.step hs

/-! ## Posted work

A push does not wake the worker. So whether the work is noticed is decided when it is pushed, by
where the worker is. -/

/-- The worker of a running `WorkThread` does not sleep over posted work. -/
def Noticed (s : State) : Prop :=
  s.stoped_ = false → s.worker_ = some .waiting → s.works_ = []

/-- A push into a running `WorkThread` does not find the worker asleep. -/
def pushesAwake (s : State) : Action → Bool
  | .push _ => s.stoped_ || !decide (s.worker_ = some .waiting)
  | _ => true

theorem Noticed.of_ne (h : s.worker_ ≠ some .waiting) : Noticed s := fun _ hw => absurd hw h

theorem Noticed.frame (h : Noticed s) (hst : s'.stoped_ = s.stoped_)
    (hw : s'.worker_ = s.worker_) (hq : s'.works_ = s.works_) : Noticed s' := by
  unfold Noticed
  rw [hst, hw, hq]
  exact h

/-- A push wakes nobody, so one that comes while the worker sleeps is missed, and this is what the
assumption excludes. The worker itself goes to sleep only with an empty queue. -/
theorem Noticed.step (h : Noticed s) (ht : Tested s) {a : Action}
    (hok : pushesAwake s a = true) (hs : s.step a = some s') : Noticed s' := by
  cases a with
  | start =>
    obtain ⟨hc, rfl⟩ := State.start_cases hs
    intro _ hw
    refine h (ht.idle hc ?_) hw
    rw [show s.worker_ = some .waiting from hw]
    exact nofun
  | create ok =>
    obtain ⟨-, ⟨-, rfl⟩ | rfl⟩ := State.create_cases hs
    · exact Noticed.of_ne nofun
    · exact h
  | stop =>
    obtain ⟨-, rfl⟩ := State.stop_cases hs
    exact nofun
  | notify =>
    obtain ⟨-, rfl⟩ := State.notify_cases hs
    exact Noticed.of_ne (map_notify_ne_waiting _)
  | join =>
    obtain ⟨-, -, rfl⟩ := State.join_cases hs
    exact Noticed.of_ne nofun
  | newWork | setWorkStatus | callPush | testStoped =>
    obtain ⟨hst, -, hw, hq⟩ := State.prepares_frame rfl hs
    exact h.frame hst hw hq
  | push i =>
    obtain ⟨ptr, -, -, rfl⟩ := State.push_cases hs
    intro hst hw
    have hst : s.stoped_ = false := hst
    have hw : s.worker_ = some .waiting := hw
    simp only [pushesAwake, hst, hw] at hok
    cases hok
  | work =>
    obtain ⟨pc, hw, hs⟩ := State.work_cases hs
    obtain ⟨pc', hm⟩ := State.workAt_moves hs
    intro _ hw'
    rw [hm.worker_] at hw'
    -- what it tested was an empty queue, and nobody pushed since
    obtain rfl := hm.waiting (Option.some.inj hw')
    rcases hm.works_ with hq | hpop
    · exact hq.trans (ht.sleep hw)
    · cases hpop
  | wake =>
    obtain ⟨-, rfl⟩ := State.wake_cases hs
    exact Noticed.of_ne nofun

/-- **Posted work is noticed exactly as long as no push finds the worker asleep.** The states a
run goes through all have a worker that is awake or nothing posted (or a flag that is up), if and
only if every push of the run came while the worker was awake or the flag up. -/
theorem posted_work_noticed (stoped_ : Bool) (as : List Action) (s : State)
    (hrun : (workThread stoped_).run as = some s) :
    (workThread stoped_).Meets (fun s a => pushesAwake s a = true) as ↔
      (workThread stoped_).Throughout Noticed (workThread stoped_).init as := by
  refine tested_inductive.meets_iff_throughout (fun _ hw => (by cases hw))
    (fun ht h hok hs => h.step ht hok hs) ?_ hrun
  intro s a s' _ h hs
  cases a with
  | push i =>
    obtain ⟨ptr, -, -, rfl⟩ := State.push_cases hs
    show (s.stoped_ || !decide (s.worker_ = some .waiting)) = true
    cases hst : s.stoped_ with
    | true => rfl
    | false =>
      rw [Bool.false_or, Bool.not_eq_true', decide_eq_false_iff_not]
      intro hw
      have hnil : s.works_ ++ [ptr] = [] := h hst hw
      exact absurd hnil (List.append_ne_nil_of_right_ne_nil _ (List.cons_ne_nil _ _))
  | start | create | stop | notify | join | newWork | setWorkStatus | callPush | testStoped | work
  | wake => rfl

/-- The worker has done the first work before it sleeps. -/
def pushAwake : List Action :=
  [.start, .newWork true, .callPush (some 0), .create true, .testStoped 0, .push 0, .work, .work,
   .work, .work, .work, .work, .work, .work, .work, .work, .work, .work]

theorem posted_work_noticed_pushAwake :
    (workThread true).Throughout Noticed (workThread true).init pushAwake := by
  obtain ⟨s, hs⟩ := Option.isSome_iff_exists.mp
    (show ((workThread true).run pushAwake).isSome = true by decide)
  exact (posted_work_noticed true pushAwake s hs).mp (by decide)

/-- **The push is not noticed**: the worker sleeps on the empty queue when it comes. -/
theorem push_asleep :
    ∃ s, (workThread true).run [.start, .create true, .work, .work, .work, .newWork true,
        .callPush (some 0), .testStoped 0, .push 0] = some s ∧
      s.stoped_ = false ∧ s.worker_ = some .waiting ∧ s.works_ = [some 0] ∧ ¬ Noticed s := by
  obtain ⟨s, hs⟩ := Option.isSome_iff_exists.mp
    (show ((workThread true).run [.start, .create true, .work, .work, .work, .newWork true,
      .callPush (some 0), .testStoped 0, .push 0]).isSome = true by decide)
  have hend : ((workThread true).run [.start, .create true, .work, .work, .work, .newWork true,
      .callPush (some 0), .testStoped 0, .push 0]).map (fun s => (s.stoped_, s.worker_, s.works_))
      = some (false, some .waiting, [some 0]) := by decide
  rw [hs, Option.map_some, Option.some.injEq, Prod.mk.injEq, Prod.mk.injEq] at hend
  obtain ⟨hst, hw, hq⟩ := hend
  refine ⟨s, hs, hst, hw, hq, fun hn => ?_⟩
  rw [hn hst hw] at hq
  cases hq

/-! ## Stopping

The notification of `StopWork` reaches a worker that sleeps. One that has tested and does not sleep
yet misses it, and nothing comes after it. -/

/-- `StopWork` does not join a worker that sleeps. -/
def Joinable (s : State) : Prop := ¬ (s.control = .joining ∧ s.worker_ = some .waiting)

/-- No notification comes between the test of the predicate and the blocking. -/
def notifiesSettled (s : State) : Action → Bool
  | .notify => !decide (s.worker_ = some .sleep)
  | _ => true

/-- While `StopWork` joins, the worker neither sleeps nor is about to. -/
def Settled (s : State) : Prop :=
  s.control = .joining → s.worker_ ≠ some .sleep ∧ s.worker_ ≠ some .waiting

theorem Settled.joinable (h : Settled s) : Joinable s := fun ⟨hc, hw⟩ => (h hc).2 hw

/-- `StopWork` comes to the join by its notification, and the assumption is that the worker was not
about to sleep then. -/
theorem Settled.step (h : Settled s) (ht : Tested s) {a : Action}
    (hok : notifiesSettled s a = true) (hs : s.step a = some s') : Settled s' := by
  cases a with
  | start =>
    obtain ⟨-, rfl⟩ := State.start_cases hs
    exact nofun
  | create ok =>
    obtain ⟨-, ⟨-, rfl⟩ | rfl⟩ := State.create_cases hs
    · exact nofun
    · exact nofun
  | stop =>
    obtain ⟨-, rfl⟩ := State.stop_cases hs
    exact nofun
  | notify =>
    obtain ⟨-, rfl⟩ := State.notify_cases hs
    intro _
    refine ⟨fun hw => ?_, map_notify_ne_waiting _⟩
    have hw : s.worker_ = some .sleep := map_notify_sleep hw
    simp only [notifiesSettled, hw] at hok
    cases hok
  | join =>
    obtain ⟨-, -, rfl⟩ := State.join_cases hs
    exact nofun
  | newWork | setWorkStatus | callPush | testStoped =>
    obtain ⟨-, hc, hw, -⟩ := State.prepares_frame rfl hs
    unfold Settled
    rw [hc, hw]
    exact h
  | push i =>
    obtain ⟨ptr, -, -, rfl⟩ := State.push_cases hs
    exact h
  | work =>
    obtain ⟨pc, hw, hs⟩ := State.work_cases hs
    obtain ⟨pc', hm⟩ := State.workAt_moves hs
    intro hc
    have hc : s.control = .joining := hm.control ▸ hc
    rw [hm.worker_]
    constructor
    · -- the flag is up, so the predicate is true
      intro hsleep
      have hdown := (hm.sleep (Option.some.inj hsleep)).1
      rw [ht.stopping (Or.inr hc)] at hdown
      cases hdown
    · intro hwait
      rw [hm.waiting (Option.some.inj hwait)] at hw
      exact (h hc).1 hw
  | wake =>
    obtain ⟨-, rfl⟩ := State.wake_cases hs
    exact fun _ => ⟨nofun, nofun⟩

/-- A worker that is about to sleep is the one that sleeps after its next step. -/
theorem settled_iff :
    Settled s ↔ Joinable s ∧ ∀ s', (workThread stoped_).step s .work = some s' → Joinable s' := by
  constructor
  · intro h
    refine ⟨h.joinable, fun s' hs ⟨hc, hw'⟩ => ?_⟩
    obtain ⟨pc, hw, hs⟩ := State.work_cases hs
    obtain ⟨pc', hm⟩ := State.workAt_moves hs
    rw [hm.worker_] at hw'
    rw [hm.waiting (Option.some.inj hw')] at hw
    exact (h (hm.control ▸ hc)).1 hw
  · rintro ⟨hnow, hnext⟩ hc
    refine ⟨fun hw => ?_, fun hw => hnow ⟨hc, hw⟩⟩
    have hs : (workThread stoped_).step s .work = some (s.goto .waiting) := by
      show s.work = _
      rw [State.work, hw]
      rfl
    exact hnext _ hs ⟨hc, rfl⟩

/-! ### The condition

The flag is set and the notification is sent without the lock. What is asked is that the worker is
not just then on its way to sleep. -/

/-- **`StopWork` joins a worker that leaves, unless its notification falls between the test and
the blocking.** In no state of a run has `StopWork` come to `join` with the worker asleep, and
in none does the next step of the worker bring that about, if and only if no notification of the
run came while the worker had tested its predicate and did not sleep yet. -/
theorem stopWork_joinable (stoped_ : Bool) (as : List Action) (s : State)
    (hrun : (workThread stoped_).run as = some s) :
    (workThread stoped_).Meets (fun s a => notifiesSettled s a = true) as ↔
      (workThread stoped_).Throughout
        (fun s => Joinable s ∧ ∀ s', (workThread stoped_).step s .work = some s' → Joinable s')
        (workThread stoped_).init as := by
  -- joinable all along is to be settled all along, and that depends on the notifications alone
  have hsettled : (workThread stoped_).Meets (fun s a => notifiesSettled s a = true) as ↔
      (workThread stoped_).Throughout Settled (workThread stoped_).init as := by
    refine tested_inductive.meets_iff_throughout nofun (fun ht h hok hs => h.step ht hok hs) ?_
      hrun
    intro s a s' _ h hs
    cases a with
    | notify =>
      obtain ⟨-, rfl⟩ := State.notify_cases hs
      -- a notification between test and sleep would leave the worker to sleep for good
      show (!decide (s.worker_ = some .sleep)) = true
      rw [Bool.not_eq_true', decide_eq_false_iff_not]
      intro hw
      refine (h rfl).1 ?_
      show s.worker_.map Worker.notify = _
      rw [hw]
      rfl
    | start | create | stop | join | newWork | setWorkStatus | callPush | testStoped | push | work
    | wake => rfl
  exact hsettled.trans
    ⟨fun h => h.imp fun _ => settled_iff.mp, fun h => h.imp fun _ => settled_iff.mpr⟩

/-- The worker sleeps before `StopWork` begins, and a notification wakes it. -/
def stopSleeping : List Action :=
  [.start, .create true, .work, .work, .work, .stop, .notify, .work, .work, .work, .join]

theorem stopWork_joinable_stopSleeping :
    (workThread true).Throughout
      (fun s => Joinable s ∧ ∀ s', (workThread true).step s .work = some s' → Joinable s')
      (workThread true).init stopSleeping := by
  obtain ⟨s, hs⟩ := Option.isSome_iff_exists.mp
    (show ((workThread true).run stopSleeping).isSome = true by decide)
  exact (stopWork_joinable true stopSleeping s hs).mp (by decide)

/-- The worker has tested, and does not sleep yet when the notification comes. -/
def stopTested : List Action :=
  [.start, .create true, .work, .work, .stop, .notify, .work]

/-- **`StopWork` hangs**: its notification found nobody asleep, and the worker slept after it. -/
theorem stopTested_hangs :
    ∃ s, (workThread true).run stopTested = some s ∧
      s.control = .joining ∧ s.worker_ = some .waiting ∧ ¬ Joinable s := by
  obtain ⟨s, hs⟩ := Option.isSome_iff_exists.mp
    (show ((workThread true).run stopTested).isSome = true by decide)
  have hend : ((workThread true).run stopTested).map (fun s => (s.control, s.worker_))
      = some (.joining, some .waiting) := by decide
  rw [hs, Option.map_some, Option.some.injEq, Prod.mk.injEq] at hend
  exact ⟨s, hs, hend.1, hend.2, fun hj => hj hend⟩

end CppDone.WorkThread
