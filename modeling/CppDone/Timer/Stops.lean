import CppDone.Timer.Alive
import CppDone.Timer.Calls

/-!
# `Start` and `Stop` come back

`Stop` joins the workers while it holds `startlock`, and a worker may be in a check that goes
through the whole table with `delay_event_lock_` locked, or wait for that lock behind another one.
Still the joins return: no handler begins once the context is stopped, a check goes through the
table once, and from other threads only those `PostDelayedEvent`s can come that had found the queue
started. All that is left to do is in `load`, and only the caller that joins does not lower it.

Nothing else holds anybody up who has `startlock`. So whoever got into `Start` or `Stop` comes out
again.

The measure counts four for a caller in `PostDelayedEvent`, one for each entry and each event in the
table, and for a worker what is left of its handler; a tick that holds the lock is charged for the
table, so that no other worker is charged for it as well.
-/

set_option autoImplicit false

namespace CppDone.Timer

variable {n : Nat} {s s' t : State} {c w : Nat}

/-! ## Who holds `startlock`

What a caller has done so far in `Stop` is not undone by another one, since no other is inside. This
is what the bound rests on. -/

/-- What a caller in `Stop` has done by then. -/
def Caller.Stopped (s : State) : Caller → Prop
  | .cancel | .halt => s.stoped_ = true
  | .join => s.stoped_ = true ∧ s.io_context_.stopped = true
  | _ => True

/-- One caller at most is inside, and nobody undoes what it did. What is behind a caller in `Stop`
(the flag, the cancelled wait, the stopped context) is so until it comes out. -/
structure Sole (s : State) : Prop where
  lock : s.callers.countP Caller.inside = if s.startlock then 1 else 0
  stopped : ∀ (c : Nat) (pc : Caller), s.callers[c]? = some pc → pc.Stopped s

theorem sole_init (n : Nat) : Sole (queue n).init where
  lock := (alive_init n).lock
  stopped c pc hc := by
    obtain rfl : pc = .idle := List.eq_of_mem_replicate (List.mem_of_getElem? hc)
    trivial

theorem Caller.Stopped.outside {pc : Caller} (hout : pc.inside = false) : pc.Stopped s := by
  cases pc with
  | idle | startLock _ | stopLock | now _ | insert _ => trivial
  | restart _ | spawn _ | await | start | stop | cancel | halt | join | unlock => cases hout

theorem Caller.Stopped.same {pc : Caller} (h : pc.Stopped s) (hst : s'.stoped_ = s.stoped_)
    (hio : s'.io_context_.stopped = s.io_context_.stopped) : pc.Stopped s' := by
  cases pc with
  | cancel | halt => exact hst.trans h
  | join => exact ⟨hst.trans h.1, hio.trans h.2⟩
  | _ => trivial

/-- A step of a worker, of the timer or of the clock. -/
theorem Sole.same (h : Sole s) (hcallers : s'.callers = s.callers)
    (hl : s'.startlock = s.startlock) (hst : s'.stoped_ = s.stoped_)
    (hio : s'.io_context_.stopped = s.io_context_.stopped) : Sole s' where
  lock := by
    rw [hcallers, hl]
    exact h.lock
  stopped d pd hd := (h.stopped d pd (hcallers ▸ hd)).same hst hio

/-- A caller that stays outside. -/
theorem Sole.outer (h : Sole s) {pc pc' : Caller} (hc : s.callers[c]? = some pc)
    (hout : pc.inside = false) (hcallers : s'.callers = s.callers.set c pc')
    (hout' : pc'.inside = false) (hl : s'.startlock = s.startlock) (hst : s'.stoped_ = s.stoped_)
    (hio : s'.io_context_.stopped = s.io_context_.stopped) : Sole s' where
  lock := inside_outer h.lock hc hout hcallers hout' hl
  stopped d pd hd := by
    rw [hcallers] at hd
    rcases getElem?_set_cases hd with ⟨-, rfl⟩ | ⟨-, hd⟩
    · exact Caller.Stopped.outside hout'
    · exact (h.stopped d pd hd).same hst hio

/-- The caller that holds the lock, takes it or gives it back. -/
theorem Sole.move (h : Sole s) {pc pc' : Caller} (hc : s.callers[c]? = some pc)
    (hin : pc.inside = s.startlock) (hcallers : s'.callers = s.callers.set c pc')
    (hin' : pc'.inside = s'.startlock) (hstopped : pc'.Stopped s') : Sole s' where
  lock := inside_move h.lock hc hin hcallers hin'
  stopped d pd hd := by
    rw [hcallers] at hd
    rcases getElem?_set_cases hd with ⟨-, rfl⟩ | ⟨hne, hd⟩
    · exact hstopped
    · exact Caller.Stopped.outside (others_outside hc (by rw [h.lock, hin]) hd hne)

theorem Sole.others (h : Sole s) {pc pd : Caller} {d : Nat} (hc : s.callers[c]? = some pc)
    (hin : pc.inside = true) (hd : s.callers[d]? = some pd) (hne : d ≠ c) : pd.inside = false :=
  others_outside hc (by rw [h.lock, inside_locked h.lock hc hin, hin]) hd hne

/-- The caller that holds the lock goes on. -/
theorem Sole.inner (h : Sole s) {pc pc' : Caller} (hc : s.callers[c]? = some pc)
    (hin : pc.inside = true) (hcallers : s'.callers = s.callers.set c pc')
    (hin' : pc'.inside = true) (hl : s'.startlock = s.startlock) (hstopped : pc'.Stopped s') :
    Sole s' := by
  have hheld := inside_locked h.lock hc hin
  exact h.move hc (hin.trans hheld.symm) hcallers (hin'.trans (hl.trans hheld).symm) hstopped

/-- A caller that takes the lock finds nobody inside, so what the others have left undone is not
touched. -/
theorem Sole.next (h : Sole s) (hs : s.next c = some s') : Sole s' := by
  obtain ⟨pc, hc, hs⟩ := State.next_cases hs
  have hstopped := h.stopped c pc hc
  unfold State.nextAt at hs
  cases pc with
  | idle => cases hs
  | startLock k =>
    dsimp only at hs
    split at hs
    · cases hs
    -- `startlock` is free, so nobody else is inside
    · next hl =>
      obtain rfl := (Option.some.inj hs).symm
      exact h.move hc (eq_false_of_ne_true hl).symm rfl rfl trivial
  | stopLock =>
    dsimp only at hs
    split at hs
    · cases hs
    · next hl =>
      obtain rfl := (Option.some.inj hs).symm
      exact h.move hc (eq_false_of_ne_true hl).symm rfl rfl trivial
  | restart k =>
    obtain rfl := (Option.some.inj hs).symm
    exact h.inner hc rfl rfl rfl rfl trivial
  | spawn left =>
    cases left with
    | zero =>
      obtain rfl := (Option.some.inj hs).symm
      exact h.inner hc rfl rfl rfl rfl trivial
    | succ left =>
      obtain rfl := (Option.some.inj hs).symm
      exact h.inner hc rfl rfl rfl rfl trivial
  | await | start =>
    obtain rfl := (Option.some.inj hs).symm
    exact h.inner hc rfl rfl rfl rfl trivial
  | stop =>
    obtain rfl := (Option.some.inj hs).symm
    exact h.inner hc rfl rfl rfl rfl (show true = true from rfl)
  | cancel =>
    obtain rfl := (Option.some.inj hs).symm
    exact h.inner hc rfl rfl rfl rfl hstopped
  -- the order of `Stop`: the flag, the waits, the context. What it has done so far is known at each
  | halt =>
    obtain rfl := (Option.some.inj hs).symm
    exact h.inner hc rfl rfl rfl rfl ⟨hstopped, rfl⟩
  | join =>
    dsimp only at hs
    split at hs
    · obtain rfl := (Option.some.inj hs).symm
      exact h.inner hc rfl rfl rfl rfl trivial
    · cases hs
  | unlock =>
    obtain rfl := (Option.some.inj hs).symm
    exact h.move hc (inside_locked h.lock hc rfl).symm rfl rfl trivial
  -- callers outside of `Start` and `Stop` may be any number
  | now delayed_second =>
    obtain rfl := (Option.some.inj hs).symm
    exact h.outer hc rfl rfl rfl rfl rfl rfl
  | insert timeout =>
    obtain ⟨-, rfl⟩ := State.insert_cases hs
    exact h.outer hc rfl rfl rfl rfl rfl rfl

/-- A worker in a handler, which neither stops the context nor the queue. -/
theorem Sole.workAt (h : Sole s) {pc : Worker} (hs : s.workAt w pc = some s') : Sole s' := by
  cases pc with
  | looping | running | exited => cases hs
  | event _ | now =>
    obtain rfl := (Option.some.inj hs).symm
    exact h.same rfl rfl rfl rfl
  | clear =>
    obtain ⟨-, rfl⟩ := State.clear_cases hs
    exact h.same rfl rfl rfl rfl
  | lock curr_time =>
    obtain ⟨-, rfl⟩ := State.lock_cases hs
    exact h.same rfl rfl rfl rfl
  | check curr_time =>
    obtain ⟨timeout, events, -, -, rfl⟩ | ⟨-, rfl⟩ := State.check_cases hs
    · exact h.same rfl rfl rfl rfl
    · exact h.same rfl rfl rfl rfl
  | post curr_time rest =>
    cases rest with
    | nil =>
      obtain rfl := (Option.some.inj hs).symm
      exact h.same rfl rfl rfl rfl
    | cons e rest =>
      obtain rfl := (Option.some.inj hs).symm
      rcases State.postEvent_cases s e curr_time with ⟨-, hpost⟩ | ⟨-, hpost⟩
      · rw [hpost]
        exact h.same rfl rfl rfl rfl
      · rw [hpost]
        exact h.same rfl rfl rfl rfl
  | expires | wait =>
    obtain rfl := (Option.some.inj hs).symm
    exact h.same rfl rfl rfl rfl

/-- Only the callers write what a `Stop` relies on. -/
theorem Sole.step (h : Sole s) {a : Action} (hs : s.step a = some s') : Sole s' := by
  cases a with
  | start d k =>
    obtain ⟨hd, rfl | ⟨-, rfl⟩⟩ := State.start_cases hs
    · exact h
    · exact h.outer hd rfl rfl rfl rfl rfl rfl
  | stop d =>
    obtain ⟨hd, rfl | ⟨-, rfl⟩⟩ := State.stop_cases hs
    · exact h
    · exact h.outer hd rfl rfl rfl rfl rfl rfl
  | postDelayedEvent d k =>
    obtain ⟨hd, rfl | ⟨-, rfl⟩⟩ := State.postDelayedEvent_cases hs
    · exact h
    · exact h.outer hd rfl rfl rfl rfl rfl rfl
  | clearDelayedEvent d =>
    obtain ⟨-, -, rfl⟩ := State.clearDelayedEvent_cases hs
    exact h.same rfl rfl rfl rfl
  | next d => exact h.next hs
  | test w =>
    obtain ⟨-, rfl | rfl⟩ := State.test_cases hs
    · exact h.same rfl rfl rfl rfl
    · exact h.same rfl rfl rfl rfl
  | take w i =>
    obtain ⟨handler, -, -, -, rfl⟩ := State.take_cases hs
    exact h.same rfl rfl rfl rfl
  | leave w =>
    obtain ⟨-, rfl⟩ := State.leave_cases hs
    exact h.same rfl rfl rfl rfl
  | work w =>
    obtain ⟨pc, -, hs⟩ := State.work_cases hs
    exact h.workAt hs
  | expire =>
    obtain ⟨-, rfl⟩ := State.expire_cases hs
    exact h.same rfl rfl rfl rfl
  | advance d =>
    obtain rfl := (Option.some.inj hs).symm
    exact h.same rfl rfl rfl rfl

/-! ## How much there is to do

A stopped context takes up no new handler, so a worker has at most the rest of the one it is in. A
tick may have the whole table before it, and each entry of that counts as well. -/

/-- The steps of a worker to its exit, but for the entries of the table. -/
def Worker.load : Worker → Nat
  | .exited => 0
  | .looping => 1
  | .running => 2
  | .event _ | .clear | .wait => 3
  | .expires => 4
  | .check _ | .post _ _ => 5
  | .lock _ => 6
  | .now => 7

/-- With the entry that the caller brings. -/
def Caller.load : Caller → Nat
  | .now _ => 5
  | .insert _ => 4
  | _ => 0

/-- What a check that goes through all of the table finds in it, `holder` being in one. -/
def sweepLoad (holder : Option Worker) (tab : DelayedEventTab) : Nat :=
  match holder with
  | some (.post _ rest) => rest.length + 1 + weight tab.entries.tail
  | _ => weight tab.entries

def State.load (s : State) : Nat :=
  total Worker.load s.worker_threads_ + total Caller.load s.callers +
    sweepLoad s.holder s.delay_eventtab_

/-- A step of a worker. -/
def Action.ofWorker : Action → Bool
  | .test _ | .leave _ | .work _ | .take _ _ => true
  | _ => false

/-- A step of a worker, or of a caller in its call. -/
def Action.inner : Action → Bool
  | .next _ => true
  | a => a.ofWorker

/-- An event that is inserted brings three steps at most to the sweep of the table: it may make an
entry of its own. -/
theorem weight_insert (k v : Nat) (l : List (Nat × List Nat)) :
    weight (Agenda.insert k v l) ≤ weight l + 3 := by
  induction l with
  | nil => exact Nat.le_refl 3
  | cons e rest ih =>
    obtain ⟨k', vs⟩ := e
    unfold Agenda.insert
    unfold weight at ih ⊢
    split
    · simp only [total_cons, List.length_singleton]
      omega
    · split
      · simp only [total_cons, List.length_append, List.length_singleton]
        omega
      · simp only [total_cons]
        omega

/-! ### The lock of the table

A worker has it from the beginning of its sweep to the end, so its load counts the whole table, and
that of the others does not. -/

theorem holder_free (h : s.delay_event_lock_ = none) : s.holder = none := by
  unfold State.holder
  rw [h]
  rfl

theorem holder_eq {pc : Worker} (hl : s.delay_event_lock_ = some w)
    (hw : s.worker_threads_[w]? = some pc) : s.holder = some pc := by
  unfold State.holder
  rw [hl]
  exact hw

/-- Whoever is in a check has the lock. -/
theorem Base.holder (hB : Base s) {pc : Worker} (hw : s.worker_threads_[w]? = some pc)
    (hpc : pc.holds = true) : s.delay_event_lock_ = some w ∧ s.holder = some pc := by
  have hl := (hB.owned w).mpr ⟨pc, hw, hpc⟩
  exact ⟨hl, holder_eq hl hw⟩

/-- A worker outside of its check goes on without the lock. -/
theorem Base.holder_set (hB : Base s) {pc pc' : Worker} (hw : s.worker_threads_[w]? = some pc)
    (hpc : pc.holds = false) (hl : s'.delay_event_lock_ = s.delay_event_lock_)
    (hws : s'.worker_threads_ = s.worker_threads_.set w pc') : s'.holder = s.holder := by
  unfold State.holder
  rw [hl, hws]
  cases hlock : s.delay_event_lock_ with
  | none => rfl
  | some v =>
    obtain ⟨pv, hv, hholds⟩ := (hB.owned v).mp hlock
    have hne : w ≠ v := by
      rintro rfl
      obtain rfl := Option.some.inj (hw.symm.trans hv)
      rw [hpc] at hholds
      cases hholds
    exact List.getElem?_set_ne hne

/-! ### What a step costs

The workers and the callers outside of `Start` pay for each of their steps. Only a caller that
brings something adds to the load. -/

/-- A worker goes on, and has used up what `hle` says. -/
theorem load_worker {pc pc' : Worker} {holder holder' : Option Worker}
    (hw : s.worker_threads_[w]? = some pc) (hws : s'.worker_threads_ = s.worker_threads_.set w pc')
    (hcallers : s'.callers = s.callers) (hholder : s.holder = holder)
    (hholder' : s'.holder = holder')
    (hle : pc'.load + sweepLoad holder' s'.delay_eventtab_ + 1 ≤
      pc.load + sweepLoad holder s.delay_eventtab_) : s'.load + 1 ≤ s.load := by
  have hsum := total_set_add Worker.load hw pc'
  unfold State.load
  rw [hws, hcallers, hholder, hholder']
  omega

/-- Outside of its check it leaves the table alone. -/
theorem load_outside (hB : Base s) {pc pc' : Worker} (hw : s.worker_threads_[w]? = some pc)
    (hpc : pc.holds = false) (hl : s'.delay_event_lock_ = s.delay_event_lock_)
    (hws : s'.worker_threads_ = s.worker_threads_.set w pc') (hcallers : s'.callers = s.callers)
    (htab : s'.delay_eventtab_ = s.delay_eventtab_) (hlt : pc'.load < pc.load) :
    s'.load + 1 ≤ s.load := by
  refine load_worker hw hws hcallers rfl (hB.holder_set hw hpc hl hws) ?_
  rw [htab]
  omega

theorem postEvent_same (s : State) (e curr_time : Nat) :
    (s.postEvent e curr_time).worker_threads_ = s.worker_threads_ ∧
      (s.postEvent e curr_time).callers = s.callers ∧
      (s.postEvent e curr_time).delay_event_lock_ = s.delay_event_lock_ ∧
      (s.postEvent e curr_time).delay_eventtab_ = s.delay_eventtab_ := by
  rcases State.postEvent_cases s e curr_time with ⟨-, hpost⟩ | ⟨-, hpost⟩
  · rw [hpost]
    exact ⟨rfl, rfl, rfl, rfl⟩
  · rw [hpost]
    exact ⟨rfl, rfl, rfl, rfl⟩

/-- **A worker in a handler lowers the load.** -/
theorem load_workAt (hB : Base s) {pc : Worker} (hw : s.worker_threads_[w]? = some pc)
    (hs : s.workAt w pc = some s') : s'.load + 1 ≤ s.load := by
  have hself : ∀ pc' : Worker, (s.worker_threads_.set w pc')[w]? = some pc' :=
    fun pc' => getElem?_worker_set hw
  cases pc with
  | looping | running | exited => cases hs
  | event _ | now =>
    obtain rfl := (Option.some.inj hs).symm
    exact load_outside hB hw rfl rfl rfl rfl rfl (Nat.lt_succ_self _)
  | expires | wait =>
    obtain rfl := (Option.some.inj hs).symm
    exact load_outside hB hw rfl rfl rfl rfl rfl (Nat.lt_succ_self _)
  -- the table is emptied by a worker that has the lock for itself
  | clear =>
    obtain ⟨hl, rfl⟩ := State.clear_cases hs
    refine load_worker hw rfl rfl (holder_free hl) (holder_free hl) ?_
    show 2 + 0 + 1 ≤ 3 + weight _
    exact Nat.le_add_right 3 _
  -- with the lock it is charged for the table, as any tick that waits for it
  | lock curr_time =>
    obtain ⟨hl, rfl⟩ := State.lock_cases hs
    refine load_worker hw rfl rfl (holder_free hl) (holder_eq rfl (hself _)) ?_
    exact (Nat.add_right_comm 5 _ 1).le
  | check curr_time =>
    obtain ⟨hl, hholder⟩ := hB.holder hw rfl
    obtain ⟨timeout, events, hfirst, -, rfl⟩ | ⟨-, rfl⟩ := State.check_cases hs
    · refine load_worker hw rfl rfl hholder (holder_eq hl (hself _)) ?_
      show 5 + (events.length + 1 + weight s.delay_eventtab_.entries.tail) + 1 ≤
        5 + weight s.delay_eventtab_.entries
      rw [weight_first hfirst]
      omega
    · refine load_worker hw rfl rfl hholder (holder_free rfl) ?_
      exact (Nat.add_right_comm 4 _ 1).le
  | post curr_time rest =>
    obtain ⟨hl, hholder⟩ := hB.holder hw rfl
    cases rest with
    | nil =>
      obtain rfl := (Option.some.inj hs).symm
      refine load_worker hw rfl rfl hholder (holder_eq hl (hself _)) ?_
      show 5 + weight s.delay_eventtab_.entries.tail + 1 ≤
        5 + (0 + 1 + weight s.delay_eventtab_.entries.tail)
      omega
    | cons e rest =>
      obtain rfl := (Option.some.inj hs).symm
      obtain ⟨hws, hcallers, hlock, htab⟩ := postEvent_same s e curr_time
      -- `PostEvent` may leave a handler, which nobody takes up behind `io_context_.stop()`
      have hws' : ((s.postEvent e curr_time).workerGoto w (.post curr_time rest)).worker_threads_ =
          s.worker_threads_.set w (.post curr_time rest) := by
        rw [← hws]
        rfl
      have hholder' : ((s.postEvent e curr_time).workerGoto w (.post curr_time rest)).holder =
          some (.post curr_time rest) :=
        holder_eq (hlock.trans hl) (hws' ▸ hself _)
      refine load_worker hw hws' hcallers hholder hholder' ?_
      show 5 + (rest.length + 1 + weight (s.postEvent e curr_time).delay_eventtab_.entries.tail) +
        1 ≤ 5 + (rest.length + 1 + 1 + weight s.delay_eventtab_.entries.tail)
      rw [htab]
      omega

/-- A caller goes on, and what it did to the table is in `hle`. -/
theorem load_caller {pc pc' : Caller} {n k : Nat} (hc : s.callers[c]? = some pc)
    (hcallers : s'.callers = s.callers.set c pc') (hws : s'.worker_threads_ = s.worker_threads_)
    (hle : pc'.load + sweepLoad s'.holder s'.delay_eventtab_ + n ≤
      pc.load + sweepLoad s.holder s.delay_eventtab_ + k) : s'.load + n ≤ s.load + k := by
  have hsum := total_set_add Caller.load hc pc'
  unfold State.load
  rw [hws, hcallers]
  omega

/-- A caller outside goes on in its call. -/
theorem load_next {pc : Caller} (hc : s.callers[c]? = some pc) (hout : pc.inside = false)
    (hl : s.startlock = true) (hs : s.nextAt c pc = some s') : s'.load + 1 ≤ s.load := by
  unfold State.nextAt at hs
  cases pc with
  | idle => cases hs
  | startLock k =>
    dsimp only at hs
    rw [if_pos hl] at hs
    cases hs
  | stopLock =>
    dsimp only at hs
    rw [if_pos hl] at hs
    cases hs
  | now delayed_second =>
    obtain rfl := (Option.some.inj hs).symm
    exact load_caller (n := 1) (k := 0) hc rfl rfl (Nat.add_right_comm 4 _ 1).le
  -- the entry and its event cost two, of the four that the caller had
  | insert timeout =>
    obtain ⟨hfree, hs'⟩ := State.insert_cases hs
    have hfree' : s'.delay_event_lock_ = none := by
      rw [hs']
      exact hfree
    have hcallers : s'.callers = s.callers.set c .idle := by
      rw [hs']
      rfl
    have hws : s'.worker_threads_ = s.worker_threads_ := by
      rw [hs']
      rfl
    refine load_caller (n := 1) (k := 0) hc hcallers hws ?_
    rw [holder_free hfree, holder_free hfree', hs']
    have hle := weight_insert timeout s.hist.length s.delay_eventtab_.entries
    show 0 + weight (Agenda.insert timeout s.hist.length s.delay_eventtab_.entries) + 1 ≤
      4 + weight s.delay_eventtab_.entries + 0
    omega
  | restart _ | spawn _ | await | start | stop | cancel | halt | join | unlock => cases hout

/-- A worker leaves its loop once the context is stopped. -/
theorem test_stopped (hw : s.worker_threads_[w]? = some .looping)
    (hio : s.io_context_.stopped = true) : s.test w = some (s.workerGoto w .exited) := by
  unfold State.test
  rw [hw]
  dsimp only
  rw [if_pos hio]

/-- **While `Stop` is in its joins, whatever happens is a step less**, or costs nothing. -/
theorem load_step (hB : Base s) (hS : Sole s) (hc : s.callers[c]? = some .join) {a : Action}
    (ha : a ≠ .next c) (hs : s.step a = some s') :
    s'.load + (if a.inner then 1 else 0) ≤ s.load := by
  -- `Stop` has set the flag and stopped the context before it joins
  obtain ⟨hst, hio⟩ : s.stoped_ = true ∧ s.io_context_.stopped = true := hS.stopped c _ hc
  cases a with
  | start d k =>
    obtain ⟨hd, rfl | ⟨-, rfl⟩⟩ := State.start_cases hs
    · exact Nat.le_refl _
    · exact load_caller (n := 0) (k := 0) hd rfl rfl (Nat.le_refl _)
  | stop d =>
    obtain ⟨hd, rfl | ⟨hrun, -⟩⟩ := State.stop_cases hs
    · exact Nat.le_refl _
    -- no new call gets past the test of `stoped_`
    · cases hst.symm.trans hrun
  | postDelayedEvent d k =>
    obtain ⟨hd, rfl | ⟨hrun, -⟩⟩ := State.postDelayedEvent_cases hs
    · exact Nat.le_refl _
    · cases hst.symm.trans hrun
  | clearDelayedEvent d =>
    obtain ⟨-, hfree, hs'⟩ := State.clearDelayedEvent_cases hs
    have hfree' : s'.delay_event_lock_ = none := by
      rw [hs']
      exact hfree
    unfold State.load
    rw [holder_free hfree, holder_free hfree', hs']
    exact Nat.add_le_add_left (Nat.zero_le _) _
  | next d =>
    obtain ⟨pd, hd, hs⟩ := State.next_cases hs
    have hne : d ≠ c := by
      rintro rfl
      exact ha rfl
    exact load_next hd (hS.others hc rfl hd hne) (inside_locked hS.lock hc rfl) hs
  | test w =>
    obtain ⟨hw, -⟩ := State.test_cases hs
    obtain rfl := Option.some.inj ((test_stopped hw hio).symm.trans hs)
    exact load_outside hB hw rfl rfl rfl rfl rfl Nat.one_pos
  -- no handler begins
  | take w i =>
    obtain ⟨handler, -, -, hgoes, -⟩ := State.take_cases hs
    cases hio.symm.trans hgoes
  | leave w =>
    obtain ⟨hw, rfl⟩ := State.leave_cases hs
    exact load_outside hB hw rfl rfl rfl rfl rfl (Nat.lt_succ_self 1)
  | work w =>
    obtain ⟨pc, hw, hs⟩ := State.work_cases hs
    exact load_workAt hB hw hs
  | expire =>
    obtain ⟨-, rfl⟩ := State.expire_cases hs
    exact Nat.le_refl _
  | advance d =>
    obtain rfl := (Option.some.inj hs).symm
    exact Nat.le_refl _

/-! ## Going on

The joins wait for workers, and a worker may wait for the lock of the table. Whoever has that lock
is a worker too, and goes on. -/

/-- The joins are over. -/
def Joined (s : State) : Prop := s.worker_threads_.all (· = .exited) = true

/-- Behind `io_context_.stop()`, a worker can go on that is not held up by a lock. -/
theorem worker_goes {pc : Worker} (hw : s.worker_threads_[w]? = some pc)
    (hio : s.io_context_.stopped = true) (hexit : pc ≠ .exited)
    (hlock : s.delay_event_lock_ = none ∨ pc.holds = true) :
    ∃ a t, a.ofWorker = true ∧ (queue n).step s a = some t := by
  have hwork : ∀ {t : State}, s.workAt w pc = some t →
      ∃ a t, a.ofWorker = true ∧ (queue n).step s a = some t :=
    fun ht => ⟨.work w, _, rfl, (step_work hw).trans ht⟩
  cases pc with
  | exited => exact absurd rfl hexit
  | looping => exact ⟨.test w, _, rfl, test_stopped hw hio⟩
  | running =>
    refine ⟨.leave w, s.workerGoto w .looping, rfl, ?_⟩
    show s.leave w = _
    unfold State.leave
    rw [hw]
  | event _ | now | expires | wait => exact hwork rfl
  | clear =>
    have hfree : s.delay_event_lock_ = none := hlock.resolve_right nofun
    exact hwork (if_pos hfree)
  | lock curr_time =>
    have hfree : s.delay_event_lock_ = none := hlock.resolve_right nofun
    exact hwork (if_pos hfree)
  | check curr_time =>
    obtain ⟨t, ht⟩ : ∃ t, s.workAt w (.check curr_time) = some t := by
      unfold State.workAt
      dsimp only
      split
      · split
        · exact ⟨_, rfl⟩
        · exact ⟨_, rfl⟩
      · exact ⟨_, rfl⟩
    exact hwork ht
  | post curr_time rest =>
    cases rest with
    | nil => exact hwork rfl
    | cons e rest => exact hwork rfl

/-- **The joins are over, or a worker can go on**: the lock of the table is with one that can. -/
theorem joined_or_goes (hB : Base s) (hio : s.io_context_.stopped = true) :
    Joined s ∨ ∃ a t, a.ofWorker = true ∧ (queue n).step s a = some t := by
  by_cases hall : Joined s
  · exact .inl hall
  · right
    cases hl : s.delay_event_lock_ with
    | some v =>
      obtain ⟨pv, hv, hholds⟩ := (hB.owned v).mp hl
      refine worker_goes hv hio ?_ (.inr hholds)
      rintro rfl
      cases hholds
    | none =>
      have hnot : ¬ ∀ pc ∈ s.worker_threads_, pc = .exited := by
        intro hexit
        exact hall (List.all_eq_true.mpr fun pc hpc => decide_eq_true (hexit pc hpc))
      obtain ⟨pc, hnot⟩ := not_forall.mp hnot
      obtain ⟨hmem, hexit⟩ := Classical.not_imp.mp hnot
      obtain ⟨w, hw⟩ := List.mem_iff_getElem?.mp hmem
      exact worker_goes hw hio hexit (.inl hl)

/-! ## Coming out

Before and behind the joins the caller waits for nobody. In the joins it waits for the workers,
which come to their end by themselves. -/

/-- What a caller goes by in its joins. Nobody else is inside meanwhile, so the context stays
stopped. -/
structure Joining (c : Nat) (s : State) : Prop where
  base : Base s
  sole : Sole s
  join : s.callers[c]? = some .join

theorem sound_inductive (n : Nat) : (queue n).Inductive fun s => Base s ∧ Sole s where
  init := ⟨Base.init n, sole_init n⟩
  step h hs := ⟨(h.1.step hs).1, h.2.step hs⟩

theorem Joining.step (h : Joining c s) {a : Action} (ha : a ≠ .next c) (hs : s.step a = some s') :
    Joining c s' ∧ s'.load + (if a.inner then 1 else 0) ≤ s.load :=
  ⟨⟨(h.base.step hs).1, h.sole.step hs, caller_stays h.join nofun ha hs⟩,
    load_step h.base h.sole h.join ha hs⟩

theorem Joining.stopped (h : Joining c s) : s.io_context_.stopped = true :=
  (h.sole.stopped c _ h.join).2

/-- The workers by themselves bring the joins to their end. -/
theorem Joining.ends (h : Joining c s) :
    ∃ t, (queue n).Leads (fun a => a.ofWorker = true) s t ∧ Joining c t ∧ Joined t := by
  refine Machine.leads_of_still State.load (fun {s a s'} h ha hs => ?_) (fun {s} h hstill => ?_) h
  · have hne : a ≠ .next c := by
      rintro rfl
      cases ha
    have hinner : a.inner = true := by
      cases a with
      | next _ => rfl
      | _ => exact ha
    obtain ⟨h', hle⟩ := h.step hne hs
    rw [if_pos hinner] at hle
    exact ⟨h', hle⟩
  · rcases joined_or_goes (n := n) h.base h.stopped with hall | ⟨a, t, ha, hs⟩
    · exact hall
    · cases (hstill a ha).symm.trans hs

/-- How far a caller has to go to the end of `Start` or `Stop`. -/
def Caller.rank : Caller → Nat
  | .restart k => k + 5
  | .spawn left => left + 4
  | .stop => 5
  | .cancel => 4
  | .await | .halt => 3
  | .start | .join => 2
  | .unlock => 1
  | .idle | .startLock _ | .stopLock | .now _ | .insert _ => 0

/-- Out of its joins, nothing holds up who has `startlock`. -/
theorem inside_next {pc : Caller} (hc : s.callers[c]? = some pc) (hin : pc.inside = true)
    (hjoin : pc = .join → Joined s) :
    ∃ t pc', (queue n).step s (.next c) = some t ∧ t.callers[c]? = some pc' ∧
      ((pc'.inside = true ∧ pc'.rank < pc.rank) ∨ (pc' = .idle ∧ t.startlock = false)) := by
  have hself : ∀ pc' : Caller, (s.callers.set c pc')[c]? = some pc' :=
    fun _ => List.getElem?_set_self (lt_length_of_getElem? hc)
  have hnext : (queue n).step s (.next c) = s.nextAt c pc := by
    show s.next c = _
    unfold State.next
    rw [hc]
  rw [hnext]
  cases pc with
  | idle | startLock _ | stopLock | now _ | insert _ => cases hin
  | restart k | await | start | stop | cancel | halt =>
    exact ⟨_, _, rfl, hself _, .inl ⟨rfl, Nat.lt_succ_self _⟩⟩
  | spawn left =>
    cases left with
    | zero => exact ⟨_, _, rfl, hself _, .inl ⟨rfl, Nat.lt_succ_self _⟩⟩
    | succ left => exact ⟨_, _, rfl, hself _, .inl ⟨rfl, Nat.lt_succ_self _⟩⟩
  | join => exact ⟨_, _, if_pos (hjoin rfl), hself _, .inl ⟨rfl, Nat.lt_succ_self _⟩⟩
  | unlock => exact ⟨_, _, rfl, hself _, .inr ⟨rfl, rfl⟩⟩

/-- A step of a worker, or of caller `c`. -/
def Action.ofCall (c : Nat) (a : Action) : Prop := a.ofWorker = true ∨ a = .next c

/-- Caller `c` and the workers by themselves get it out. -/
theorem comes_out {pc : Caller} (hB : Base s) (hS : Sole s) (hc : s.callers[c]? = some pc)
    (hin : pc.inside = true) :
    ∃ t, (queue n).Leads (Action.ofCall c) s t ∧ t.callers[c]? = some .idle ∧
      t.startlock = false := by
  generalize hk : pc.rank = k
  induction k using Nat.strongRecOn generalizing s pc with
  | ind k ih =>
    -- whoever is in its joins waits for the workers first
    obtain ⟨u, hu, ⟨hBu, hSu⟩, hcu, hjoin⟩ : ∃ u, (queue n).Leads (Action.ofCall c) s u ∧
        (Base u ∧ Sole u) ∧ u.callers[c]? = some pc ∧ (pc = .join → Joined u) := by
      by_cases hpc : pc = .join
      · subst hpc
        obtain ⟨u, hu, hjoining, hall⟩ := Joining.ends (n := n) ⟨hB, hS, hc⟩
        exact ⟨u, hu.mono fun _ => .inl, ⟨hjoining.base, hjoining.sole⟩, hjoining.join,
          fun _ => hall⟩
      · exact ⟨s, Machine.Leads.refl s, ⟨hB, hS⟩, hc, fun h => absurd h hpc⟩
    obtain ⟨t, pc', ht, hct, ⟨hin', hlt⟩ | ⟨rfl, hfree⟩⟩ := inside_next (n := n) hcu hin hjoin
    · obtain ⟨v, hv, hout⟩ :=
        ih pc'.rank (hk ▸ hlt) (hBu.step (a := .next c) ht).1 (hSu.step (a := .next c) ht) hct
          hin' rfl
      exact ⟨v, (hu.step (.inr rfl) ht).trans hv, hout⟩
    · exact ⟨t, hu.step (.inr rfl) ht, hct, hfree⟩

/-- **Whoever got into `Start` or `Stop` comes out again.** However the threads run meanwhile,
either the caller can go on, or it is in its joins and a worker can go on, and that for no more
steps of the workers and the other callers than `load` says when it got there. So the caller and
the workers by themselves bring the call to its end, and `startlock` is free again. -/
theorem inside_comes_out {pc : Caller} (hs : (queue n).Reachable s)
    (hc : s.callers[c]? = some pc) (hin : pc.inside = true) :
    (∀ as t, (queue n).runFrom s as = some t → Action.next c ∉ as →
      (∃ u, (queue n).step t (.next c) = some u) ∨
        pc = .join ∧ as.countP Action.inner ≤ s.load ∧
          ∃ a u, a.ofWorker = true ∧ (queue n).step t a = some u) ∧
      ∃ t, (queue n).Leads (Action.ofCall c) s t ∧ t.callers[c]? = some .idle ∧
        t.startlock = false := by
  obtain ⟨hB, hS⟩ := Machine.Reachable.inv (sound_inductive n) hs
  refine ⟨fun as t hrun hnot => ?_, comes_out hB hS hc hin⟩
  have hne : ∀ a ∈ as, a ≠ Action.next c := by
    rintro a ha rfl
    exact hnot ha
  by_cases hpc : pc = .join
  · subst hpc
    have hpaid : ∀ {s : State} {a : Action} {s' : State}, Joining c s → a ≠ .next c →
        (queue n).step s a = some s' →
        Joining c s' ∧ s'.load + (if a.inner then 1 else 0) ≤ s.load :=
      fun h ha hs => h.step ha hs
    have hI : Joining c s := ⟨hB, hS, hc⟩
    have hle := Machine.countP_le_of_measure Action.inner State.load hpaid hne hI hrun
    have hjoining : Joining c t :=
      Machine.runFrom_inv_of (fun h ha hs => (hpaid h ha hs).1) hne hI hrun
    rcases joined_or_goes (n := n) hjoining.base hjoining.stopped with hall | hgoes
    · obtain ⟨u, -, hu, -⟩ := inside_next (n := n) hjoining.join rfl fun _ => hall
      exact .inl ⟨u, hu⟩
    · exact .inr ⟨rfl, Nat.le_of_add_right_le hle, hgoes⟩
  · -- outside its joins nobody holds it up, and it stays where it is until it goes on itself
    have hidle : pc ≠ .idle := by
      rintro rfl
      cases hin
    have hct : t.callers[c]? = some pc :=
      Machine.runFrom_inv_of (I := fun s => s.callers[c]? = some pc)
        (fun h ha hs => caller_stays h hidle ha hs) hne hc hrun
    obtain ⟨u, -, hu, -⟩ := inside_next (n := n) hct hin fun h => absurd h hpc
    exact .inl ⟨u, hu⟩

/-- `Start(1)` and an event that is due, whose tick waits for the lock when `Stop` comes. -/
def stoppedInTick : List Action :=
  [.start 0 1, .next 0, .next 0, .next 0, .next 0, .next 0, .next 0, .next 0,
   .postDelayedEvent 1 0, .next 1, .next 1, .advance (seconds 1), .expire, .test 0, .take 0 0,
   .work 0, .stop 0, .next 0, .next 0, .next 0, .next 0]

theorem inside_comes_out_inTick :
    ∃ s, (queue 2).run stoppedInTick = some s ∧ s.callers[0]? = some .join ∧ s.load = 9 ∧
      ∃ t, (queue 2).Leads (Action.ofCall 0) s t ∧ t.callers[0]? = some .idle ∧
        t.startlock = false := by
  obtain ⟨s, hs⟩ := Option.isSome_iff_exists.mp
    (show ((queue 2).run stoppedInTick).isSome = true by decide)
  have hend : ((queue 2).run stoppedInTick).map (fun s => (s.callers[0]?, s.load)) =
      some (some .join, 9) := by decide
  rw [hs, Option.map_some, Option.some.injEq, Prod.mk.injEq] at hend
  obtain ⟨hc, hload⟩ := hend
  exact ⟨s, hs, hc, hload, (inside_comes_out ⟨_, hs⟩ hc rfl).2⟩

end CppDone.Timer
