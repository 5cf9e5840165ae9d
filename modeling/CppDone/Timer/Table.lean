import CppDone.Timer.Discard

/-!
# The table of delayed events as a list

What the code keeps in a map of lists, locks, iterates over and erases entry by entry is, seen
from outside, one list of events with their deadlines, in the order in which they fall due, and
at most one tick that takes events off its front. `State.pending` is that list, with the events
that the inner loop has posted but not yet erased left out, and `State.tick` the tick that has
`delay_event_lock_`.

`Effect` says everything a step can do to the two, to the history and to `stoped_`. It holds with
any number of calling threads, of workers, and of calls of `Start` and `Stop`; what comes later is
proved from it without looking at the threads again.

The lock is what makes this one list: between the posting of an event and the erasure of its entry
only the worker that has the lock can look at the table, so nobody sees the event twice.
-/

set_option autoImplicit false

namespace CppDone.Timer

/-! ## The view

What is left of a state when one asks for the events only: the list of what is pending, the tick
that looks at it, and the history. A step inserts, clears, begins or ends a tick, takes one event
off the front, or has nothing to do with events. -/

/-- The reading of the clock that a worker in its tick works with. -/
def Worker.reading : Worker → Option Nat
  | .check curr_time | .post curr_time _ => some curr_time
  | _ => none

/-- What of the table a worker in its tick has yet to go through. -/
def Worker.left (tab : DelayedEventTab) : Worker → List (Nat × Nat)
  | .post _ rest =>
    match tab.first with
    | some (timeout, _) => rest.map (fun e => (timeout, e)) ++ tab.dropFirst.items
    | none => []
  | _ => tab.items

namespace State

variable (s : State)

/-- The worker that has the lock. -/
def holder : Option Worker := s.delay_event_lock_.bind fun w => s.worker_threads_[w]?

/-- The deadlines and events that were accepted and neither posted nor cleared. -/
def pending : List (Nat × Nat) :=
  match s.holder with
  | some pc => pc.left s.delay_eventtab_
  | none => s.delay_eventtab_.items

/-- The tick that has the lock: the worker, and what it read from the clock. -/
def tick : Option (Nat × Nat) :=
  s.delay_event_lock_.bind fun w => (s.holder.bind Worker.reading).map fun t => (w, t)

/-- The step clears no table after a failed wait, and does not stop the queue. -/
def calm : Action → Bool
  | .next c => s.callers[c]? ≠ some .stop
  | .work w => s.worker_threads_[w]? ≠ some .clear
  | _ => true

end State

/-- Recorded of other things than events. -/
def Event.aside : Event → Bool
  | .started _ | .stopped => true
  | _ => false

/-- What a step does to the events, to the tick and to the history. Where a case moves the tick or
the pending events it says from where to where; `dropped` is a post that finds the queue stopped. -/
inductive Effect (s : State) (a : Action) (s' : State) : Prop where
  | aside (tick : s'.tick = s.tick) (pending : s'.pending = s.pending)
      (hist : s'.hist = s.hist ∨ ∃ ev : Event, ev.aside = true ∧ s'.hist = s.hist ++ [ev])
      (stoped_ : s.calm a = true → s.stoped_ = false → s'.stoped_ = false)
  | inserted (timeout : Nat) (idle : s.tick = none) (tick : s'.tick = none)
      (pending : ∃ before after, s.pending = before ++ after ∧
        s'.pending = before ++ (timeout, s.hist.length) :: after ∧
        (∀ x ∈ before, x.1 ≤ timeout) ∧ ∀ x ∈ after, timeout < x.1)
      (hist : s'.hist = s.hist ++ [.accepted timeout]) (stoped_ : s'.stoped_ = s.stoped_)
      (caller : ∃ c, a = .next c ∧ s.callers[c]? = some (.insert timeout))
  | cleared (idle : s.tick = none) (tick : s'.tick = none) (pending : s'.pending = [])
      (hist : s'.hist = s.hist ++ [.cleared]) (stoped_ : s'.stoped_ = s.stoped_)
  | failed (calm : s.calm a = false) (idle : s.tick = none) (tick : s'.tick = none)
      (pending : s'.pending = []) (hist : s'.hist = s.hist) (stoped_ : s'.stoped_ = s.stoped_)
  | locked (w t : Nat) (action : a = .work w) (worker : s.worker_threads_[w]? = some (.lock t))
      (idle : s.tick = none) (tick : s'.tick = some (w, t)) (pending : s'.pending = s.pending)
      (hist : s'.hist = s.hist) (stoped_ : s'.stoped_ = s.stoped_)
  | released (w t : Nat) (action : a = .work w) (busy : s.tick = some (w, t))
      (tick : s'.tick = none) (pending : s'.pending = s.pending) (late : ∀ x ∈ s.pending, t < x.1)
      (hist : s'.hist = s.hist) (stoped_ : s'.stoped_ = s.stoped_)
  | posted (w t : Nat) (x : Nat × Nat) (busy : s.tick = some (w, t)) (tick : s'.tick = some (w, t))
      (pending : s.pending = x :: s'.pending) (due : x.1 ≤ t) (running : s.stoped_ = false)
      (hist : s'.hist = s.hist ++ [.posted x.2 t]) (stoped_ : s'.stoped_ = s.stoped_)
  | dropped (w t : Nat) (x : Nat × Nat) (busy : s.tick = some (w, t)) (tick : s'.tick = some (w, t))
      (pending : s.pending = x :: s'.pending) (due : x.1 ≤ t) (stopped : s.stoped_ = true)
      (hist : s'.hist = s.hist) (stoped_ : s'.stoped_ = s.stoped_)

/-! ## What the view rests on

The view is well defined because the lock is: one worker has it, the one that is in its tick, and
the inner loop is at the first entry. -/

/-- The lock is locked by the worker that is in its tick, if there is one, and the inner loop runs
over the first entry, which is due. So there is one tick with the lock at most, and what it is at is
the front of the table. -/
structure Base (s : State) : Prop where
  owned : ∀ w, s.delay_event_lock_ = some w ↔
    ∃ pc, s.worker_threads_[w]? = some pc ∧ pc.holds = true
  looping : ∀ (w t : Nat) (rest : List Nat), s.worker_threads_[w]? = some (.post t rest) →
    ∃ timeout events, s.delay_eventtab_.first = some (timeout, events) ∧ timeout ≤ t

/-- There is no worker, and nobody has the lock. -/
theorem Base.init (n : Nat) : Base (queue n).init where
  owned w := by
    constructor
    · intro h
      cases h
    · rintro ⟨pc, h, -⟩
      cases h
  looping w t rest h := by cases h

section Views

variable {s s' : State} {w : Nat} {pc pc' : Worker}

theorem tick_idle (h : s.delay_event_lock_ = none) : s.tick = none := by
  unfold State.tick
  rw [h]
  rfl

theorem pending_idle (h : s.delay_event_lock_ = none) :
    s.pending = s.delay_eventtab_.items := by
  unfold State.pending State.holder
  rw [h]
  rfl

/-- The view of a state in which worker `w` has the lock. -/
theorem view_of_holder (hl : s.delay_event_lock_ = some w)
    (hw : s.worker_threads_[w]? = some pc) :
    s.tick = pc.reading.map (fun t => (w, t)) ∧ s.pending = pc.left s.delay_eventtab_ := by
  have hholder : s.holder = some pc := by
    unfold State.holder
    rw [hl]
    exact hw
  unfold State.tick State.pending
  rw [hholder, hl]
  exact ⟨rfl, rfl⟩

theorem left_post {tab : DelayedEventTab} {timeout t : Nat} {events rest : List Nat}
    (hfirst : tab.first = some (timeout, events)) :
    (Worker.post t rest).left tab =
      rest.map (fun e => (timeout, e)) ++ tab.dropFirst.items := by
  unfold Worker.left
  rw [hfirst]

/-- Workers that hold the lock are the same. -/
def SameHolders (ws ws' : List Worker) : Prop :=
  ∀ (w : Nat) (pc : Worker), pc.holds = true → (ws'[w]? = some pc ↔ ws[w]? = some pc)

theorem sameHolders_refl (ws : List Worker) : SameHolders ws ws := fun _ _ _ => Iff.rfl

/-- A worker that moves outside of the lock. -/
theorem sameHolders_set {ws : List Worker} (hw : ws[w]? = some pc) (hpc : pc.holds = false)
    (hpc' : pc'.holds = false) : SameHolders ws (ws.set w pc') := by
  intro v q hq
  by_cases hv : v = w
  · subst hv
    have hlt : v < ws.length := lt_length_of_getElem? hw
    rw [List.getElem?_set_self hlt, hw]
    constructor
    · intro h
      rw [← Option.some.inj h, hpc'] at hq
      cases hq
    · intro h
      rw [← Option.some.inj h, hpc] at hq
      cases hq
  · rw [List.getElem?_set_ne (Ne.symm hv)]

theorem sameHolders_append (ws : List Worker) : SameHolders ws (ws ++ [.looping]) := by
  intro v q hq
  rw [getElem?_snoc]
  constructor
  · rintro (h | ⟨-, rfl⟩)
    · exact h
    · cases hq
  · exact Or.inl

/-- Once all have left their loops there is nobody with the lock. -/
theorem sameHolders_nil {ws : List Worker} (h : ws.all (· = .exited) = true) :
    SameHolders ws [] := by
  intro v q hq
  constructor
  · intro hv
    cases hv
  · intro hv
    rw [List.all_eq_true] at h
    have hexited : q = .exited := by simpa using h q (List.mem_of_getElem? hv)
    rw [hexited] at hq
    cases hq

/-- Whoever has the lock is in a tick. -/
theorem Base.busy (hB : Base s) (hl : s.delay_event_lock_ = some w) : s.tick ≠ none := by
  obtain ⟨pc, hw, hpc⟩ := (hB.owned w).mp hl
  rw [(view_of_holder hl hw).1]
  cases pc with
  | check t => exact Option.some_ne_none _
  | post t rest => exact Option.some_ne_none _
  | _ => cases hpc

/-- A step that leaves table, lock and ticks alone. -/
theorem Base.same (hB : Base s) (hl : s'.delay_event_lock_ = s.delay_event_lock_)
    (htab : s'.delay_eventtab_ = s.delay_eventtab_)
    (hws : SameHolders s.worker_threads_ s'.worker_threads_) :
    Base s' ∧ s'.tick = s.tick ∧ s'.pending = s.pending := by
  refine ⟨⟨?_, ?_⟩, ?_⟩
  · intro w
    rw [hl, hB.owned w]
    constructor
    · rintro ⟨pc, hw, hpc⟩
      exact ⟨pc, (hws w pc hpc).mpr hw, hpc⟩
    · rintro ⟨pc, hw, hpc⟩
      exact ⟨pc, (hws w pc hpc).mp hw, hpc⟩
  · intro w t rest hw
    rw [htab]
    exact hB.looping w t rest ((hws w _ rfl).mp hw)
  · have hholder : s'.holder = s.holder := by
      unfold State.holder
      rw [hl]
      cases hlock : s.delay_event_lock_ with
      | none => rfl
      | some w =>
        obtain ⟨pc, hw, hpc⟩ := (hB.owned w).mp hlock
        exact ((hws w pc hpc).mpr hw).trans hw.symm
    unfold State.tick State.pending
    rw [hholder, hl, htab]
    exact ⟨rfl, rfl⟩

/-- The rest of a step that leaves table, lock and ticks alone. -/
theorem Base.aside (hB : Base s) {a : Action} (hl : s'.delay_event_lock_ = s.delay_event_lock_)
    (htab : s'.delay_eventtab_ = s.delay_eventtab_)
    (hws : SameHolders s.worker_threads_ s'.worker_threads_)
    (hhist : s'.hist = s.hist ∨ ∃ ev : Event, ev.aside = true ∧ s'.hist = s.hist ++ [ev])
    (hst : s.calm a = true → s.stoped_ = false → s'.stoped_ = false) :
    Base s' ∧ Effect s a s' := by
  obtain ⟨hB', htick, hpending⟩ := hB.same hl htab hws
  exact ⟨hB', .aside htick hpending hhist hst⟩

/-- Nobody is in a tick while the lock is free. -/
theorem Base.not_holds (hB : Base s) (hl : s.delay_event_lock_ = none)
    (hw : s.worker_threads_[w]? = some pc) : pc.holds = false := by
  cases hpc : pc.holds with
  | false => rfl
  | true =>
    have howner := (hB.owned w).mpr ⟨pc, hw, hpc⟩
    rw [hl] at howner
    cases howner

/-- With a free lock the table may be replaced. -/
theorem Base.free (hB : Base s) (hl : s.delay_event_lock_ = none)
    (hl' : s'.delay_event_lock_ = none)
    (hws : SameHolders s.worker_threads_ s'.worker_threads_) : Base s' where
  owned v := by
    rw [hl', ← hl, hB.owned v]
    constructor
    · rintro ⟨q, hv, hq⟩
      exact ⟨q, (hws v q hq).mpr hv, hq⟩
    · rintro ⟨q, hv, hq⟩
      exact ⟨q, (hws v q hq).mp hv, hq⟩
  looping v t rest hv := by
    have hno := hB.not_holds hl ((hws v _ rfl).mp hv)
    cases hno

/-- The worker that has the lock goes on in its tick. -/
theorem Base.own {u : State} (hB : Base s) (hw : s.worker_threads_[w]? = some pc)
    (hpc : pc.holds = true) (pc' : Worker) (hpc' : pc'.holds = true)
    (hl : u.delay_event_lock_ = s.delay_event_lock_)
    (hws : u.worker_threads_ = s.worker_threads_.set w pc')
    (hloop : ∀ (t : Nat) (rest : List Nat), pc' = .post t rest →
      ∃ timeout events, u.delay_eventtab_.first = some (timeout, events) ∧ timeout ≤ t) :
    Base u ∧ s.delay_event_lock_ = some w ∧ u.worker_threads_[w]? = some pc' := by
  have howner : s.delay_event_lock_ = some w := (hB.owned w).mpr ⟨pc, hw, hpc⟩
  have hlt : w < s.worker_threads_.length := lt_length_of_getElem? hw
  have hself : u.worker_threads_[w]? = some pc' := by
    rw [hws, List.getElem?_set_self hlt]
  -- a worker with the lock is the owner, and there is one owner
  have honly : ∀ {v : Nat} {q : Worker}, u.worker_threads_[v]? = some q → q.holds = true →
      v = w := by
    intro v q hv hq
    rw [hws] at hv
    rcases getElem?_set_cases hv with ⟨rfl, -⟩ | ⟨-, hv⟩
    · rfl
    · have hother := (hB.owned v).mpr ⟨q, hv, hq⟩
      exact Option.some.inj (hother.symm.trans howner)
  refine ⟨⟨?_, ?_⟩, howner, hself⟩
  · intro v
    rw [hl, howner]
    constructor
    · intro heq
      obtain rfl := Option.some.inj heq
      exact ⟨pc', hself, hpc'⟩
    · rintro ⟨q, hv, hq⟩
      rw [honly hv hq]
  · intro v t rest hv
    obtain rfl := honly hv rfl
    exact hloop t rest (Option.some.inj (hself.symm.trans hv))

end Views

/-! ## Every step has its effect

Step by step, which of the effects it is. Most have none, because they touch neither table nor lock.
-/

section Steps

variable {s s' : State} {c w : Nat}

/-- A caller moves on and leaves everything else alone. -/
theorem Base.callers (hB : Base s) {a : Action} (pc : Caller) :
    Base (s.goto c pc) ∧ Effect s a (s.goto c pc) :=
  hB.aside rfl rfl (sameHolders_refl _) (Or.inl rfl) fun _ h => h

theorem Base.stay (hB : Base s) {a : Action} : Base s ∧ Effect s a s :=
  hB.aside rfl rfl (sameHolders_refl _) (Or.inl rfl) fun _ h => h

/-! ### The callers

Most of their steps have nothing to do with the table. The insertion is the one that has, and
clearing it. -/

theorem Base.start (hB : Base s) {a : Action} {thread_num : Nat}
    (h : s.start c thread_num = some s') : Base s' ∧ Effect s a s' := by
  obtain ⟨-, rfl | ⟨-, rfl⟩⟩ := State.start_cases h
  · exact hB.stay
  · exact hB.callers _

theorem Base.stop (hB : Base s) {a : Action} (h : s.stop c = some s') :
    Base s' ∧ Effect s a s' := by
  obtain ⟨-, rfl | ⟨-, rfl⟩⟩ := State.stop_cases h
  · exact hB.stay
  · exact hB.callers _

theorem Base.postDelayedEvent (hB : Base s) {a : Action} {delayed_second : Nat}
    (h : s.postDelayedEvent c delayed_second = some s') : Base s' ∧ Effect s a s' := by
  obtain ⟨-, rfl | ⟨-, rfl⟩⟩ := State.postDelayedEvent_cases h
  · exact hB.stay
  · exact hB.callers _

theorem Base.clearDelayedEvent (hB : Base s) {a : Action} (h : s.clearDelayedEvent c = some s') :
    Base s' ∧ Effect s a s' := by
  obtain ⟨-, hl, heq⟩ := State.clearDelayedEvent_cases h
  have hl' : s'.delay_event_lock_ = none := heq ▸ hl
  have hpending : s'.pending = [] := by
    rw [pending_idle hl', heq]
    rfl
  rw [heq] at hl' hpending ⊢
  exact ⟨hB.free hl hl' (sameHolders_refl _),
    .cleared (tick_idle hl) (tick_idle hl') hpending rfl rfl⟩

/-- The table is free, so no tick is at it, and the event goes behind those that are due at the same
time or earlier. -/
theorem Base.insert (hB : Base s) {timeout : Nat} (hc : s.callers[c]? = some (.insert timeout))
    (h : s.nextAt c (.insert timeout) = some s') : Base s' ∧ Effect s (.next c) s' := by
  obtain ⟨hl, heq⟩ := State.insert_cases h
  have hl' : s'.delay_event_lock_ = none := heq ▸ hl
  have hpending : s'.pending = (s.delay_eventtab_.push timeout s.hist.length).items := by
    rw [pending_idle hl', heq]
    rfl
  obtain ⟨before, after, hitems, hpush, hbefore, hafter⟩ :=
    s.delay_eventtab_.items_push timeout s.hist.length
  have hsplit : ∃ before after, s.pending = before ++ after ∧
      s'.pending = before ++ (timeout, s.hist.length) :: after ∧
      (∀ x ∈ before, x.1 ≤ timeout) ∧ ∀ x ∈ after, timeout < x.1 :=
    ⟨before, after, (pending_idle hl).trans hitems, hpending.trans hpush, hbefore, hafter⟩
  rw [heq] at hl' hsplit ⊢
  exact ⟨hB.free hl hl' (sameHolders_refl _),
    .inserted timeout (tick_idle hl) (tick_idle hl') hsplit rfl rfl ⟨c, rfl, hc⟩⟩

/-- Only one step of a caller is about the table, and it is the insertion. -/
theorem Base.nextAt (hB : Base s) {pc : Caller} (hc : s.callers[c]? = some pc)
    (h : s.nextAt c pc = some s') : Base s' ∧ Effect s (.next c) s' := by
  cases pc with
  | idle => cases h
  -- what a caller does to threads, context and waits is beside the table
  | restart _ | await | cancel | halt | unlock =>
    obtain rfl := Option.some.inj h
    exact hB.aside rfl rfl (sameHolders_refl _) (Or.inl rfl) fun _ h => h
  | startLock thread_num =>
    unfold State.nextAt at h
    dsimp only at h
    split at h
    · cases h
    · obtain rfl := Option.some.inj h
      exact hB.aside rfl rfl (sameHolders_refl _) (Or.inr ⟨.started thread_num, rfl, rfl⟩)
        fun _ h => h
  | spawn left =>
    cases left with
    | zero =>
      obtain rfl := Option.some.inj h
      exact hB.aside rfl rfl (sameHolders_refl _) (Or.inl rfl) fun _ h => h
    | succ left =>
      obtain rfl := Option.some.inj h
      exact hB.aside rfl rfl (sameHolders_append _) (Or.inl rfl) fun _ h => h
  | start =>
    obtain rfl := Option.some.inj h
    exact hB.aside rfl rfl (sameHolders_refl _) (Or.inl rfl) fun _ _ => rfl
  | stopLock =>
    unfold State.nextAt at h
    dsimp only at h
    split at h
    · cases h
    · obtain rfl := Option.some.inj h
      exact hB.aside rfl rfl (sameHolders_refl _) (Or.inl rfl) fun _ h => h
  | stop =>
    obtain rfl := Option.some.inj h
    refine hB.aside rfl rfl (sameHolders_refl _) (Or.inr ⟨.stopped, rfl, rfl⟩) ?_
    -- a run in which the queue is not stopped has no such step
    intro hcalm
    simp [State.calm, hc] at hcalm
  | join =>
    unfold State.nextAt at h
    dsimp only at h
    split at h
    · next hexited =>
      obtain rfl := Option.some.inj h
      exact hB.aside rfl rfl (sameHolders_nil hexited) (Or.inl rfl) fun _ h => h
    · cases h
  | now delayed_second =>
    obtain rfl := Option.some.inj h
    exact hB.callers _
  | insert timeout => exact hB.insert hc h

/-! ### The workers

The tick takes the lock, takes the entries that are due off the front, and gives the lock back. In
between the table is its own. -/

/-- A worker outside its tick, which it does not enter. -/
theorem Base.worker (hB : Base s) {a : Action} {pc pc' : Worker}
    (hw : s.worker_threads_[w]? = some pc) (hpc : pc.holds = false) (hpc' : pc'.holds = false)
    (io : IoContext) :
    Base (({ s with io_context_ := io } : State).workerGoto w pc') ∧
      Effect s a (({ s with io_context_ := io } : State).workerGoto w pc') :=
  hB.aside rfl rfl (sameHolders_set hw hpc hpc') (Or.inl rfl) fun _ h => h

theorem Base.test (hB : Base s) {a : Action} (h : s.test w = some s') :
    Base s' ∧ Effect s a s' := by
  obtain ⟨hw, rfl | rfl⟩ := State.test_cases h
  · exact hB.worker hw rfl rfl s.io_context_
  · exact hB.worker hw rfl rfl s.io_context_

theorem Base.take (hB : Base s) {a : Action} {i : Nat} (h : s.take w i = some s') :
    Base s' ∧ Effect s a s' := by
  obtain ⟨handler, hw, -, -, rfl⟩ := State.take_cases h
  refine hB.worker hw rfl ?_ _
  cases handler with
  | check error => cases error <;> rfl
  | event e => rfl

theorem Base.leave (hB : Base s) {a : Action} (h : s.leave w = some s') :
    Base s' ∧ Effect s a s' := by
  obtain ⟨hw, rfl⟩ := State.leave_cases h
  exact hB.worker hw rfl rfl s.io_context_

/-- A wait that has failed takes all events with it, under the lock. -/
theorem Base.clear (hB : Base s) (hw : s.worker_threads_[w]? = some .clear)
    (h : s.workAt w .clear = some s') : Base s' ∧ Effect s (.work w) s' := by
  obtain ⟨hl, heq⟩ := State.clear_cases h
  have hl' : s'.delay_event_lock_ = none := heq ▸ hl
  have hpending : s'.pending = [] := by
    rw [pending_idle hl', heq]
    rfl
  have hcalm : s.calm (.work w) = false := by simp [State.calm, hw]
  rw [heq] at hl' hpending ⊢
  exact ⟨hB.free hl hl' (sameHolders_set hw rfl rfl),
    .failed hcalm (tick_idle hl) (tick_idle hl') hpending rfl rfl⟩

/-- A tick takes the lock and finds all that is pending. -/
theorem lock_view {t : Nat} (hw : s.worker_threads_[w]? = some (.lock t))
    (h : s.workAt w (.lock t) = some s') :
    s.tick = none ∧ s'.tick = some (w, t) ∧ s'.pending = s.pending ∧ s'.hist = s.hist ∧
      s'.stoped_ = s.stoped_ := by
  obtain ⟨hl, rfl⟩ := State.lock_cases h
  have hself : (s.worker_threads_.set w (.check t))[w]? = some (.check t) :=
    List.getElem?_set_self (lt_length_of_getElem? hw)
  obtain ⟨htick, hpending⟩ := view_of_holder
    (s := ({ s with delay_event_lock_ := some w } : State).workerGoto w (.check t)) rfl hself
  exact ⟨tick_idle hl, htick, hpending.trans (pending_idle hl).symm, rfl, rfl⟩

/-- The tick begins, with the reading of the clock that was made before the lock was waited for. -/
theorem Base.lock (hB : Base s) {t : Nat} (hw : s.worker_threads_[w]? = some (.lock t))
    (h : s.workAt w (.lock t) = some s') : Base s' ∧ Effect s (.work w) s' := by
  obtain ⟨hidle, htick, hpending, hhist, hst⟩ := lock_view hw h
  refine ⟨?_, .locked w t rfl hw hidle htick hpending hhist hst⟩
  obtain ⟨hl, rfl⟩ := State.lock_cases h
  have hself : (s.worker_threads_.set w (.check t))[w]? = some (.check t) :=
    List.getElem?_set_self (lt_length_of_getElem? hw)
  have honly : ∀ {v : Nat} {q : Worker}, (s.worker_threads_.set w (.check t))[v]? = some q →
      q.holds = true → v = w ∧ q = .check t := by
    intro v q hv hq
    rcases getElem?_set_cases hv with ⟨rfl, rfl⟩ | ⟨-, hv⟩
    · exact ⟨rfl, rfl⟩
    · rw [hB.not_holds hl hv] at hq
      cases hq
  refine ⟨?_, ?_⟩
  · intro v
    constructor
    · intro heq
      obtain rfl := Option.some.inj heq
      exact ⟨_, hself, rfl⟩
    · rintro ⟨q, hv, hq⟩
      exact congrArg some (honly hv hq).1.symm
  · intro v t' rest hv
    obtain ⟨-, heq⟩ := honly hv rfl
    cases heq

/-- At the head of the outer loop the tick goes into the first entry, if that is due. -/
theorem Base.enter (hB : Base s) {t timeout : Nat} {events : List Nat}
    (hw : s.worker_threads_[w]? = some (.check t))
    (hfirst : s.delay_eventtab_.first = some (timeout, events)) (hdue : timeout ≤ t) {a : Action} :
    Base (s.workerGoto w (.post t events)) ∧ Effect s a (s.workerGoto w (.post t events)) := by
  have hloop : ∀ (t' : Nat) (rest : List Nat), Worker.post t events = .post t' rest →
      ∃ timeout events, s.delay_eventtab_.first = some (timeout, events) ∧ timeout ≤ t' := by
    intro t' rest hpost
    obtain ⟨rfl, rfl⟩ := Worker.post.inj hpost
    exact ⟨timeout, events, hfirst, hdue⟩
  obtain ⟨hB', howner, hself⟩ := hB.own (u := s.workerGoto w (.post t events)) hw rfl _ rfl rfl
    rfl hloop
  obtain ⟨htick, hpending⟩ := view_of_holder howner hw
  obtain ⟨htick', hpending'⟩ := view_of_holder (s := s.workerGoto w (.post t events)) howner hself
  refine ⟨hB', .aside (htick'.trans htick.symm) ?_ (Or.inl rfl) fun _ hst => hst⟩
  -- the whole entry is still to be gone through
  rw [hpending', hpending]
  exact (left_post hfirst).trans (Agenda.items_first hfirst).symm

/-- Otherwise it ends, and nothing that is left is due. -/
theorem Base.release (hB : Base s) {t : Nat} (hw : s.worker_threads_[w]? = some (.check t))
    (hlate : ∀ timeout events, s.delay_eventtab_.first = some (timeout, events) → t < timeout) :
    Base (({ s with delay_event_lock_ := none } : State).workerGoto w .expires) ∧
      Effect s (.work w)
        (({ s with delay_event_lock_ := none } : State).workerGoto w .expires) := by
  have howner : s.delay_event_lock_ = some w := (hB.owned w).mpr ⟨_, hw, rfl⟩
  obtain ⟨htick, hpending⟩ := view_of_holder howner hw
  -- the worker lets the lock go, and nobody else had it
  have hnobody : ∀ {v : Nat} {q : Worker}, (s.worker_threads_.set w .expires)[v]? = some q →
      q.holds = false := by
    intro v q hv
    rcases getElem?_set_cases hv with ⟨-, rfl⟩ | ⟨hne, hv⟩
    · rfl
    · cases hq : q.holds with
      | false => rfl
      | true =>
        have hother := (hB.owned v).mpr ⟨q, hv, hq⟩
        exact absurd (Option.some.inj (hother.symm.trans howner)) hne
  refine ⟨⟨?_, ?_⟩, .released w t rfl htick (tick_idle rfl) ?_ ?_ rfl rfl⟩
  · intro v
    constructor
    · intro h
      cases h
    · rintro ⟨q, hv, hq⟩
      rw [hnobody hv] at hq
      cases hq
  · intro v t' rest hv
    cases hnobody hv
  · exact (pending_idle rfl).trans hpending.symm
  · intro x hx
    rw [hpending] at hx
    -- the first entry is the earliest
    obtain ⟨timeout, events, hfirst, hle⟩ := Agenda.first_le hx
    exact Nat.lt_of_lt_of_le (hlate timeout events hfirst) hle

theorem Base.check (hB : Base s) {t : Nat} (hw : s.worker_threads_[w]? = some (.check t))
    (h : s.workAt w (.check t) = some s') : Base s' ∧ Effect s (.work w) s' := by
  rcases State.check_cases h with ⟨timeout, events, hfirst, hdue, rfl⟩ | ⟨hlate, rfl⟩
  · exact hB.enter hw hfirst hdue
  · exact hB.release hw hlate

/-- The entry is erased when nothing of it is left. -/
theorem Base.erase (hB : Base s) {t : Nat} (hw : s.worker_threads_[w]? = some (.post t []))
    (h : s.workAt w (.post t []) = some s') : Base s' ∧ Effect s (.work w) s' := by
  obtain ⟨timeout, events, hfirst, -⟩ := hB.looping w t [] hw
  obtain rfl := Option.some.inj h
  obtain ⟨hB', howner, hself⟩ := hB.own
    (u := ({ s with delay_eventtab_ := s.delay_eventtab_.dropFirst } : State).workerGoto w
      (.check t)) hw rfl (.check t) rfl rfl rfl nofun
  obtain ⟨htick, hpending⟩ := view_of_holder howner hw
  obtain ⟨htick', hpending'⟩ := view_of_holder (s := ({ s with
    delay_eventtab_ := s.delay_eventtab_.dropFirst } : State).workerGoto w (.check t)) howner hself
  refine ⟨hB', .aside (htick'.trans htick.symm) ?_ (Or.inl rfl) fun _ hst => hst⟩
  rw [hpending', hpending, left_post hfirst]
  rfl

/-- `PostEvent` takes the first of what is pending, or drops it once the queue is stopped. -/
theorem Base.post (hB : Base s) {t e : Nat} {rest : List Nat}
    (hw : s.worker_threads_[w]? = some (.post t (e :: rest)))
    (h : s.workAt w (.post t (e :: rest)) = some s') : Base s' ∧ Effect s (.work w) s' := by
  obtain ⟨timeout, events, hfirst, hdue⟩ := hB.looping w t (e :: rest) hw
  have heq := (Option.some.inj h).symm
  obtain ⟨hl, htab, hws⟩ : s'.delay_event_lock_ = s.delay_event_lock_ ∧
      s'.delay_eventtab_ = s.delay_eventtab_ ∧
      s'.worker_threads_ = s.worker_threads_.set w (.post t rest) := by
    rw [heq]
    rcases State.postEvent_cases s e t with ⟨-, hpost⟩ | ⟨-, hpost⟩
    · rw [hpost]
      exact ⟨rfl, rfl, rfl⟩
    · rw [hpost]
      exact ⟨rfl, rfl, rfl⟩
  have hloop : ∀ (t' : Nat) (rest' : List Nat), Worker.post t rest = .post t' rest' →
      ∃ timeout events, s'.delay_eventtab_.first = some (timeout, events) ∧ timeout ≤ t' := by
    intro t' rest' hpost
    obtain ⟨rfl, rfl⟩ := Worker.post.inj hpost
    exact ⟨timeout, events, htab ▸ hfirst, hdue⟩
  obtain ⟨hB', howner, hself⟩ := hB.own hw rfl _ rfl hl hws hloop
  obtain ⟨htick, hpending⟩ := view_of_holder howner hw
  obtain ⟨htick', hpending'⟩ := view_of_holder (hl.trans howner) hself
  -- what is pending has the event at its head, which the worker takes off by going on
  have hhead : s.pending = (timeout, e) :: s'.pending := by
    rw [hpending', hpending, htab, left_post hfirst, left_post hfirst]
    rfl
  refine ⟨hB', ?_⟩
  -- posted or dropped is a matter of `stoped_`; it is off the list in both cases
  rcases State.postEvent_cases s e t with ⟨hst, hpost⟩ | ⟨hst, hpost⟩
  · rw [hpost] at heq
    exact .dropped w t (timeout, e) htick htick' hhead hdue hst (by rw [heq]; rfl)
      (by rw [heq]; rfl)
  · rw [hpost] at heq
    exact .posted w t (timeout, e) htick htick' hhead hdue hst (by rw [heq]; rfl)
      (by rw [heq]; rfl)

/-- A worker at any place of its handler, by that place. -/
theorem Base.workAt (hB : Base s) {pc : Worker} (hw : s.worker_threads_[w]? = some pc)
    (h : s.workAt w pc = some s') : Base s' ∧ Effect s (.work w) s' := by
  cases pc with
  | looping => cases h
  | running => cases h
  | exited => cases h
  | event e =>
    obtain rfl := Option.some.inj h
    exact hB.worker hw rfl rfl s.io_context_
  | clear => exact hB.clear hw h
  | now =>
    obtain rfl := Option.some.inj h
    exact hB.worker hw rfl rfl s.io_context_
  | lock t => exact hB.lock hw h
  | check t => exact hB.check hw h
  | post t rest =>
    cases rest with
    | nil => exact hB.erase hw h
    | cons e rest => exact hB.post hw h
  | expires =>
    obtain rfl := Option.some.inj h
    exact hB.worker hw rfl rfl _
  | wait =>
    obtain rfl := Option.some.inj h
    exact hB.worker hw rfl rfl _

end Steps

/-- What any step does to the table, the tick and the history is one of the cases of `Effect`. All
that is shown of runs is shown from these. -/
theorem Base.step {s s' : State} {a : Action} (hB : Base s) (h : s.step a = some s') :
    Base s' ∧ Effect s a s' := by
  cases a with
  | start c thread_num => exact hB.start h
  | stop c => exact hB.stop h
  | postDelayedEvent c delayed_second => exact hB.postDelayedEvent h
  | clearDelayedEvent c => exact hB.clearDelayedEvent h
  | next c =>
    obtain ⟨pc, hc, h⟩ := State.next_cases h
    exact hB.nextAt hc h
  | test w => exact hB.test h
  | take w i => exact hB.take h
  | leave w => exact hB.leave h
  | work w =>
    obtain ⟨pc, hw, h⟩ := State.work_cases h
    exact hB.workAt hw h
  | expire =>
    obtain ⟨-, rfl⟩ := State.expire_cases h
    exact hB.aside rfl rfl (sameHolders_refl _) (Or.inl rfl) fun _ h => h
  | advance d =>
    obtain rfl := Option.some.inj h
    exact hB.aside rfl rfl (sameHolders_refl _) (Or.inl rfl) fun _ h => h

end CppDone.Timer
