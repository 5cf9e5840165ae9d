import CppDone.HttpClient.PoolStops

/-!
# A pool that runs gets everything done

The other side of `PoolStops`: a pool that is not stopped. Every task is worth a number of steps,
and so is every call of `run`, a call that waits a little less than one that goes on; a wake-up that
nobody asked for costs one step more. So there are only so many steps to take (`effort`), unless
more is brought.

When none of them can be taken, everything is done: were there a task in the queue, then, as no
wake-up is lost, a worker would have been notified of it; and were there a caller waiting for a
place, he would have been notified too, since all places are free.

What is counted must not grow when somebody is notified: a notified worker or caller has more before
it than one that waits, so the notification has to be paid for by the place or the task that it
announces.
-/

set_option autoImplicit false

namespace CppDone.Net.ThreadPool

open CondVar

variable {T : Type} {m : Nat} {s s' : State T}

/-! ## How much there is to do

For every place in the code the steps from there to the next sleep. A task in the queue is worth the
turn that a worker will spend on it, and a call of `run` its own way and that turn. -/

/-- The steps a worker has before it, up to its next sleep on an empty queue. -/
def Worker.effort : Worker T → Nat
  | .exited | .waiting => 0
  | .lock | .woken _ => 1
  | .test => 2
  | .running _ | .took none => 3
  | .took (some _) => 4

/-- With those of the worker that it wakes, and of its task. A call that waits has been counted for
the push that it still has to do. -/
def CallPc.effort : CallPc → Nat
  | .returned | .threw => 0
  | .running => 1
  | .waiting => 6
  | .lock | .woken _ => 7
  | .entered => 8

def Call.effort (c : Call T) : Nat := c.pc.effort

/-- The threads that `start` has yet to create. -/
def Control.effort : Control → Nat
  | .starting turns => 4 * turns + 1
  | .pushing _ turns => 4 * turns + 2
  | _ => 0

def State.effort (s : State T) : Nat :=
  total Worker.effort s.workers + total Call.effort s.calls + 5 * s.queue_.length +
    s.control.effort

/-- What goes on by itself: all but the calls of the pool and the wake-ups out of nothing. -/
def Action.own : Action T → Bool
  | .start _ | .stop | .join | .run _ | .wake _ | .wakeCall _ => false
  | _ => true

/-- What a step brings that is not of this kind. -/
def Action.brings : Action T → Nat
  | .run _ => 8
  | .wake _ | .wakeCall _ => 1
  | _ => 0

theorem effort_took (task : Option T) : (Worker.took task).effort ≤ 4 := by
  cases task with
  | none => exact Nat.le_succ 3
  | some t => exact Nat.le_refl 4

theorem effort_worker_of_locks {p : Worker T} (h : p.locks = true) : p.effort = 1 := by
  cases p with
  | lock | woken _ => rfl
  | _ => cases h

theorem effort_call_of_locks {pc : CallPc} (h : pc.locks = true) : pc.effort = 7 := by
  cases pc with
  | lock | woken _ => rfl
  | _ => cases h

/-- Whoever is notified has one step more before him. -/
theorem total_notifyOne {P : Type} {cv : CondVar P} {f : P → Nat} {ps ps' : List P}
    {choice : Option Nat} (hf : ∀ p, cv.waiting p = true → f (cv.notify p) ≤ f p + 1)
    (h : cv.notifyOne choice ps = some ps') : total f ps' ≤ total f ps + 1 := by
  rcases notifyOne_cases h with ⟨rfl, -⟩ | ⟨i, p, hp, hw, rfl⟩
  · exact Nat.le_succ _
  · have hsum := total_set_add f hp (cv.notify p)
    have hle := hf p hw
    omega

theorem effort_notify_worker (p : Worker T) (h : notEmpty_.waiting p = true) :
    (notEmpty_.notify p).effort ≤ p.effort + 1 := by
  cases p with
  | waiting => exact Nat.le_refl 1
  | _ => cases h

theorem effort_notify_call (c : Call T) (h : notFull_.waiting c = true) :
    (notFull_.notify c).effort ≤ c.effort + 1 := by
  obtain ⟨task, pc⟩ := c
  cases pc with
  | waiting => exact Nat.le_refl 7
  | _ => cases h

/-! ## Every step is paid

One lemma for each kind of step, by whom it moves and whom it notifies. A step of the pool's own
uses something up; a call from outside and a wake-up out of nothing bring something. -/

/-- A worker goes on. -/
theorem effort_worker {w : Nat} {p : Worker T} (hw : s.workers[w]? = some p) (p' : Worker T)
    {n k : Nat} (hle : p'.effort + n ≤ p.effort + k) :
    State.effort { s with workers := s.workers.set w p' } + n ≤ s.effort + k := by
  have hsum := total_set_add Worker.effort hw p'
  unfold State.effort
  dsimp only
  omega

/-- A call goes on. -/
theorem effort_call {c : Nat} {call : Call T} (hc : s.calls[c]? = some call) (call' : Call T)
    {n k : Nat} (hle : call'.effort + n ≤ call.effort + k) :
    State.effort { s with calls := s.calls.set c call' } + n ≤ s.effort + k := by
  have hsum := total_set_add Call.effort hc call'
  unfold State.effort
  dsimp only
  omega

theorem effort_push {c : Nat} {notified : Option Nat} (hs : s.push m c notified = some s') :
    s'.effort + 1 ≤ s.effort := by
  obtain ⟨task, pc, hc, hl, ⟨-, rfl⟩ | ⟨-, workers, hn, rfl⟩⟩ := State.push_cases hs
  · have hpc := effort_call_of_locks hl
    exact effort_call hc { task, pc := .waiting } (show 6 + 1 ≤ pc.effort + 0 by omega)
  · -- the call pays for the task, and for the worker it wakes
    have hworkers := total_notifyOne effort_notify_worker hn
    have hcalls := total_set_add Call.effort hc { task, pc := .returned }
    have hpc : Call.effort { task, pc } = 7 := effort_call_of_locks hl
    have hreturned : Call.effort { task, pc := .returned } = 0 := rfl
    unfold State.effort
    dsimp only
    rw [List.length_append, List.length_singleton]
    omega

theorem effort_take (hr : s.running_ = true) {w : Nat} {notified : Option Nat}
    (hs : s.take m w notified = some s') : s'.effort + 1 ≤ s.effort := by
  obtain ⟨p, hw, hl, ⟨-, -, rfl⟩ | ⟨-, hdown, -⟩ | ⟨task, queue_, calls, hq, hcalls, rfl⟩⟩ :=
    State.take_cases hs
  · have hp := effort_worker_of_locks hl
    exact effort_worker hw .waiting (show 0 + 1 ≤ p.effort + 0 by omega)
  · rw [hr] at hdown
    cases hdown
  · -- the task pays for the rest of the turn, and for the caller it lets in
    have hsum := total_set_add Worker.effort hw (.took task)
    have hp := effort_worker_of_locks hl
    have htook := effort_took task
    have hlen : s.queue_.length = queue_.length + 1 := by rw [hq, List.length_cons]
    have hcalls : total Call.effort calls ≤ total Call.effort s.calls + 1 := by
      rcases hcalls with ⟨-, hn⟩ | ⟨-, rfl⟩
      · exact total_notifyOne effort_notify_call hn
      · exact Nat.le_succ _
    unfold State.effort
    dsimp only
    omega

theorem effort_enter {c : Nat} (hs : s.enter c = some s') : s'.effort + 1 ≤ s.effort := by
  obtain ⟨task, pc, hc, rfl, hpc⟩ := State.enter_cases hs
  have hle : pc.effort + 1 ≤ 8 + 0 := by
    rcases hpc with ⟨-, rfl⟩ | ⟨-, ⟨-, rfl⟩ | ⟨-, rfl⟩⟩
    · exact Nat.le_refl 8
    · exact Nat.le_add_left 2 6
    · exact Nat.le_add_left 1 7
  exact effort_call hc { task, pc } hle

theorem effort_spawn (hs : s.spawn = some s') : s'.effort + 1 ≤ s.effort := by
  rcases State.spawn_cases hs with ⟨hc, rfl⟩ | ⟨turns, hc, rfl⟩
  · simp only [State.effort, hc, Control.effort]
    omega
  · simp only [State.effort, hc, Control.effort, total_append, total_cons, total_nil, Worker.effort]
    omega

theorem effort_pushBack (hs : s.pushBack = some s') : s'.effort + 1 ≤ s.effort := by
  obtain ⟨worker, turns, hc, rfl⟩ := State.pushBack_cases hs
  simp only [State.effort, hc, Control.effort]
  omega

theorem effort_run {task : Option T} (hs : s.run task = some s') : s'.effort ≤ s.effort + 8 := by
  obtain rfl := State.run_cases hs
  have hcall : Call.effort { task, pc := .entered } = 8 := rfl
  simp only [State.effort, total_append, total_cons, total_nil, hcall]
  omega

/-- A step of a pool that runs. -/
theorem effort_step (hr : s.running_ = true) (hst : Staffed s) {a : Action T}
    (ha : a.life = false) (hs : s.step m a = some s') :
    s'.effort + (if a.own then 1 else 0) ≤ s.effort + a.brings := by
  -- `take` and `push` notify somebody, and pay for it; all other steps move one thread
  cases a with
  | start | stop => cases ha
  | spawn => exact effort_spawn hs
  | pushBack => exact effort_pushBack hs
  -- nobody joins the threads of a pool that runs
  | join =>
    obtain ⟨i, hi, -⟩ := State.join_cases hs
    rw [hst.joining i hi] at hr
    cases hr
  | run task => exact effort_run hs
  | enter c => exact effort_enter hs
  | push c notified => exact effort_push hs
  -- waking up for nothing is brought from outside
  | wakeCall c =>
    obtain ⟨task, hc, rfl⟩ := State.wakeCall_cases hs
    exact effort_call hc { task, pc := .woken false } (Nat.le_refl 7)
  | endCall c =>
    obtain ⟨t, hc, rfl⟩ := State.endCall_cases hs
    exact effort_call hc { task := some t, pc := .returned } (Nat.le_refl 1)
  | test w =>
    obtain ⟨hw, rfl⟩ := State.test_cases hs
    rw [hr]
    exact effort_worker hw .lock (Nat.le_refl 2)
  | take w notified => exact effort_take hr hs
  | wake w =>
    obtain ⟨hw, rfl⟩ := State.wake_cases hs
    exact effort_worker hw (.woken false) (Nat.le_refl 1)
  | exec w =>
    rcases State.exec_cases hs with ⟨hw, rfl⟩ | ⟨t, hw, rfl⟩
    · exact effort_worker hw .test (Nat.le_refl 3)
    · exact effort_worker hw (.running t) (Nat.le_refl 4)
  -- the end of a task is its worker's way back to the test of `running_`
  | finish w =>
    obtain ⟨t, hw, rfl⟩ := State.finish_cases hs
    exact effort_worker hw .test (Nat.le_refl 3)

/-! ## What holds meanwhile

While nobody calls `stop` the pool runs and the worker that is there stays, so the measure goes down
under the same conditions all along. -/

/-- Only a bounded pool makes its callers wait, and a caller runs a task that there is. -/
def Call.sane (m : Nat) (c : Call T) : Bool :=
  match c.pc with
  | .waiting => decide (0 < m)
  | .running => c.task.isSome
  | _ => true

def Sane (m : Nat) (s : State T) : Prop := ∀ c ∈ s.calls, c.sane m = true

theorem sane_set {calls : List (Call T)} (h : ∀ c ∈ calls, c.sane m = true) {i : Nat}
    {call : Call T} (hcall : call.sane m = true) : ∀ c ∈ calls.set i call, c.sane m = true := by
  intro c hc
  rcases List.mem_or_eq_of_mem_set hc with hc | rfl
  · exact h c hc
  · exact hcall

theorem Sane.step (h : Sane m s) {a : Action T} (hs : s.step m a = some s') : Sane m s' := by
  -- only a call that goes through `enter` or `push` can get into the body of a task or to sleep
  cases a with
  | start n =>
    obtain ⟨-, rfl⟩ := State.start_cases hs
    exact h
  | spawn =>
    rcases State.spawn_cases hs with ⟨-, rfl⟩ | ⟨turns, -, rfl⟩
    · exact h
    · exact h
  | pushBack =>
    obtain ⟨worker, turns, -, rfl⟩ := State.pushBack_cases hs
    exact h
  | stop =>
    obtain ⟨-, rfl⟩ := State.stop_cases hs
    exact h
  | join =>
    obtain ⟨i, -, ⟨-, rfl⟩ | ⟨thread, -, ⟨-, rfl⟩ | ⟨-, -, rfl⟩⟩⟩ := State.join_cases hs
    · exact h
    · exact h
    · exact h
  | run task =>
    obtain rfl := State.run_cases hs
    intro c hc
    rcases List.mem_append.mp hc with hc | hc
    · exact h c hc
    · rw [List.mem_singleton.mp hc]
      rfl
  -- without threads the task is run in place, and only if there is one
  | enter c =>
    obtain ⟨task, pc, -, rfl, hpc⟩ := State.enter_cases hs
    refine sane_set h ?_
    rcases hpc with ⟨-, rfl⟩ | ⟨-, ⟨hsome, rfl⟩ | ⟨-, rfl⟩⟩
    · rfl
    · exact hsome
    · rfl
  | push c notified =>
    -- it sleeps only if the queue is full, which takes a bound
    obtain ⟨task, pc, -, -, ⟨hf, rfl⟩ | ⟨-, workers, -, rfl⟩⟩ := State.push_cases hs
    · simp only [isFull, Bool.and_eq_true, decide_eq_true_eq] at hf
      exact sane_set h (decide_eq_true hf.1)
    · exact sane_set h rfl
  | wakeCall c =>
    obtain ⟨task, -, rfl⟩ := State.wakeCall_cases hs
    exact sane_set h rfl
  | endCall c =>
    obtain ⟨t, -, rfl⟩ := State.endCall_cases hs
    exact sane_set h rfl
  | test w =>
    obtain ⟨-, rfl⟩ := State.test_cases hs
    exact h
  | take w notified =>
    obtain ⟨p, -, -, ⟨-, -, rfl⟩ | ⟨-, -, rfl⟩ | ⟨task, queue_, calls, -, hcalls, rfl⟩⟩ :=
      State.take_cases hs
    · exact h
    · exact h
    · rcases hcalls with ⟨-, hn⟩ | ⟨-, rfl⟩
      · rcases notifyOne_cases hn with ⟨rfl, -⟩ | ⟨i, p, -, -, rfl⟩
        · exact h
        · exact sane_set h rfl
      · exact h
  | wake w =>
    obtain ⟨-, rfl⟩ := State.wake_cases hs
    exact h
  | exec w =>
    rcases State.exec_cases hs with ⟨-, rfl⟩ | ⟨t, -, rfl⟩
    · exact h
    · exact h
  | finish w =>
    obtain ⟨t, -, rfl⟩ := State.finish_cases hs
    exact h

/-! ### A pool that is up

It was started with a worker at least, and not stopped. This is kept by every step but `stop`, and
it comes with the invariants of every pool. -/

/-- A pool that runs, with a worker. The other fields are invariants of every pool, carried along
for what follows from them when nothing goes on. -/
structure Up (m : Nat) (s : State T) : Prop where
  running_ : s.running_ = true
  worker : ∃ (w : Nat) (p : Worker T), s.workers[w]? = some p ∧ p ≠ .exited
  staffed : Staffed s
  tracked : Tracked s
  woken : Woken m s
  sane : Sane m s

theorem Up.of_reachable (h : (pool T m).Reachable s) (hr : s.running_ = true)
    (hp : ∃ p ∈ s.workers, p ≠ .exited) : Up m s := by
  have hI : (pool T m).Inductive fun s => Tracked s ∧ Staffed s ∧ Woken m s ∧ Sane m s :=
    ⟨⟨tracked_init, staffed_init, woken_init, nofun⟩, fun hI hs =>
      ⟨hI.1.step hs, hI.2.1.step hI.1 hs, hI.2.2.1.step hs, hI.2.2.2.step hs⟩⟩
  obtain ⟨htracked, hstaffed, hwoken, hsane⟩ := h.inv hI
  obtain ⟨p, hmem, hexit⟩ := hp
  obtain ⟨w, hw⟩ := List.mem_iff_getElem?.mp hmem
  exact ⟨hr, ⟨w, p, hw, hexit⟩, hstaffed, htracked, hwoken, hsane⟩

theorem Up.step (h : Up m s) {a : Action T} (ha : a.life = false) (hs : s.step m a = some s') :
    Up m s' := by
  obtain ⟨w, p, hw, hexit⟩ := h.worker
  -- the pool still runs, and the worker that is there is still in it
  have hkeep : s'.running_ = true ∧
      ∃ (w : Nat) (p : Worker T), s'.workers[w]? = some p ∧ p ≠ .exited := by
    -- a worker leaves when it finds `running_` false, which nobody but `stop` makes it
    cases hctl : a.isControl with
    | false =>
      obtain ⟨hrunning, -, -, hlen⟩ := State.step_frame hctl hs
      refine ⟨hrunning.trans h.running_, ?_⟩
      have hlt : w < s'.workers.length := hlen ▸ lt_length_of_getElem? hw
      refine ⟨w, _, List.getElem?_eq_getElem hlt, fun hgone => hexit ?_⟩
      have hw' := List.getElem?_eq_getElem hlt
      rw [hgone] at hw'
      have hold := State.exited_of_step hctl h.running_ hs hw'
      exact Option.some.inj (hw.symm.trans hold)
    | true =>
      cases a with
      | start | stop => cases ha
      | spawn =>
        rcases State.spawn_cases hs with ⟨-, rfl⟩ | ⟨turns, -, rfl⟩
        · exact ⟨h.running_, w, p, hw, hexit⟩
        · have hlt := lt_length_of_getElem? hw
          exact ⟨h.running_, w, p, (List.getElem?_append_left hlt).trans hw, hexit⟩
      | pushBack =>
        obtain ⟨worker, turns, -, rfl⟩ := State.pushBack_cases hs
        exact ⟨h.running_, w, p, hw, hexit⟩
      | join =>
        obtain ⟨i, hi, -⟩ := State.join_cases hs
        have hdown := h.staffed.joining i hi
        rw [h.running_] at hdown
        cases hdown
      | _ => cases hctl
  exact ⟨hkeep.1, hkeep.2, h.staffed.step h.tracked hs, h.tracked.step hs, h.woken.step hs,
    h.sane.step hs⟩

/-! ## When nothing goes on

Nobody can go on: then each worker and each caller is at a wait. By the count of the wake-ups a
worker sleeps only over an empty queue and a caller only over a full one, so nobody sleeps but the
workers, and the queue is empty. -/

/-- Nobody can go on by himself. -/
def Still (m : Nat) (s : State T) : Prop := ∀ a, a.own = true → (pool T m).step s a = none

theorem own_of_turn {a : Action T} (h : a.turn = true) : a.own = true := by
  cases a with
  | test | take | exec | finish => rfl
  | _ => cases h

theorem Still.worker (h : Still m s) {p : Worker T} (hp : p ∈ s.workers) :
    p = .waiting ∨ p = .exited := by
  by_cases hexit : p = .exited
  · exact .inr hexit
  · cases hwait : notEmpty_.waiting p with
    | true =>
      cases p with
      | waiting => exact .inl rfl
      | _ => cases hwait
    | false =>
      obtain ⟨w, hw⟩ := List.mem_iff_getElem?.mp hp
      obtain ⟨a, s', ha, hs⟩ := worker_goes (m := m) hw hwait hexit
      rw [h a (own_of_turn ha)] at hs
      cases hs

/-- A caller goes on, unless he waits for a place. -/
theorem Still.call (h : Still m s) (hsane : Sane m s) {c : Call T} (hc : c ∈ s.calls) :
    c.pc = .waiting ∨ c.pc.open = false := by
  obtain ⟨i, hi⟩ := List.mem_iff_getElem?.mp hc
  have hstuck : ∀ a, a.own = true → (s.step m a).isSome = true → False := by
    intro a ha hsome
    rw [show s.step m a = none from h a ha] at hsome
    cases hsome
  -- whoever is about to take the mutex could take it
  have hpush : c.pc.locks = true → False := by
    intro hl
    obtain ⟨notified, workers, hn⟩ := notifyOne_possible notEmpty_ s.workers
    exact hstuck (.push i notified) rfl (by
      cases hf : isFull m s.queue_ <;> simp [State.step, State.push, hi, hl, hf, hn])
  obtain ⟨task, pc⟩ := c
  -- what is left is to wait and to be through
  cases pc with
  | waiting => exact .inl rfl
  | returned | threw => exact .inr rfl
  | lock | woken notified => exact (hpush rfl).elim
  | entered => exact (hstuck (.enter i) rfl (by simp [State.step, State.enter, hi])).elim
  | running =>
    cases task with
    | none => cases hsane _ hc
    | some t => exact (hstuck (.endCall i) rfl (by simp [State.step, State.endCall, hi])).elim

/-- A worker that was notified would go on. -/
theorem Still.not_notified (h : Still m s) : s.workers.countP notEmpty_.notified = 0 := by
  refine List.countP_eq_zero.mpr fun p hp hn => ?_
  rcases h.worker hp with rfl | rfl
  · cases hn
  · cases hn

theorem Still.not_notified_call (h : Still m s) (hsane : Sane m s) :
    s.calls.countP notFull_.notified = 0 := by
  refine List.countP_eq_zero.mpr fun c hc hn => ?_
  rcases h.call hsane hc with hpc | hpc
  · simp [notFull_, hpc] at hn
  · obtain ⟨task, pc⟩ := c
    cases pc with
    | returned | threw => cases hn
    | _ => cases hpc

theorem Still.queue (h : Still m s) (hup : Up m s) : s.queue_ = [] := by
  obtain ⟨w, p, hw, hexit⟩ := hup.worker
  have hp := List.mem_of_getElem? hw
  have hwaiting : notEmpty_.waiting p = true := by
    rcases h.worker hp with rfl | rfl
    · rfl
    · exact absurd rfl hexit
  have hserved := hup.woken.workers hup.running_ ⟨p, hp, hwaiting⟩
  rw [h.not_notified] at hserved
  exact List.length_eq_zero_iff.mp (Nat.le_zero.mp hserved)

theorem Still.calls (h : Still m s) (hup : Up m s) : ∀ c ∈ s.calls, c.pc.open = false := by
  intro c hc
  rcases h.call hup.sane hc with hpc | hpc
  · -- all places are free, and there is one at least
    have hpos : 0 < m := by simpa [Call.sane, hpc] using hup.sane c hc
    have hwaiting : notFull_.waiting c = true := by simp [notFull_, hpc]
    have hserved := hup.woken.producers hpos ⟨c, hc, hwaiting⟩
    rw [h.not_notified_call hup.sane, h.queue hup] at hserved
    exact absurd hserved (Nat.not_le_of_lt hpos)
  · exact hpc

section Done

variable [DecidableEq T]

theorem accounted_init : Accounted (State.init : State T) := fun _ => rfl

/-! ### Everything is done

If nothing goes on, the queue is empty and no call waits. What was brought in has been run to its
end. -/

/-- Everything that was brought has been done. The workers sleep or have left, and each task has
been run to its end as often as calls have brought it. -/
structure Done (s : State T) : Prop where
  queue_ : s.queue_ = []
  workers : ∀ p ∈ s.workers, p = .waiting ∨ p = .exited
  calls : ∀ c ∈ s.calls, c.pc.open = false
  finished : ∀ t, s.finished.count t = s.calls.countP (Call.brings t)

theorem Still.done (h : Still m s) (hup : Up m s) (hacc : Accounted s) : Done s := by
  have hqueue := h.queue hup
  have hcalls := h.calls hup
  refine ⟨hqueue, fun p hp => h.worker hp, hcalls, fun t => ?_⟩
  have hcarries : s.workers.countP (Worker.carries t) = 0 := by
    refine List.countP_eq_zero.mpr fun p hp hcarries => ?_
    rcases h.worker hp with rfl | rfl
    · cases hcarries
    · cases hcarries
  have hpending : s.calls.countP (Call.pending t) = 0 := by
    refine List.countP_eq_zero.mpr fun c hc hpending => ?_
    simp [Call.pending, hcalls c hc] at hpending
  have hall := hacc t
  rw [hcarries, hpending, hqueue] at hall
  simpa using hall

/-- **A pool that runs gets everything done.** From every reachable state in which the pool runs
and has a worker, on every schedule without another `start` or `stop`: the steps that go on by
themselves are no more than `effort` and what the calls and wake-ups of the schedule bring; and
when nobody can go on by himself, the queue is empty, no call is under way and every task brought
has been run to its end, as often as it was brought. It comes to that without anybody's help. -/
theorem pool_gets_done (m : Nat) (s : State T) (h : (pool T m).Reachable s)
    (hr : s.running_ = true) (hp : ∃ p ∈ s.workers, p ≠ .exited) :
    (∀ as t, (pool T m).runFrom s as = some t → (∀ a ∈ as, a.life = false) →
      as.countP Action.own ≤ s.effort + total Action.brings as ∧ (Still m t → Done t)) ∧
    ∃ t, (pool T m).Leads (fun a => a.own = true) s t ∧ Done t := by
  have hup := Up.of_reachable h hr hp
  have hacc : ∀ {t : State T}, (pool T m).Reachable t → Accounted t := fun ht =>
    ht.inv (M := pool T m) (I := Accounted) ⟨accounted_init, fun hI hs => hI.step hs⟩
  constructor
  -- whatever the schedule, the effort pays for the steps of the pool's own
  · intro as t hrun hlife
    have hup' : Up m t := Machine.runFrom_inv_of (fun hI ha hs => hI.step ha hs) hlife hup hrun
    refine ⟨?_, fun hstill => hstill.done hup' (hacc (h.runFrom hrun))⟩
    have hle := Machine.countP_le_of_potential Action.own Action.brings State.effort
      (fun hI ha hs => ⟨Up.step hI ha hs, effort_step hI.running_ hI.staffed ha hs⟩) hlife hup hrun
    exact Nat.le_of_add_right_le hle
  -- and a step of its own there is until everything is done
  · have hstep : ∀ {t : State T} {a : Action T} {u : State T}, ((pool T m).Reachable t ∧ Up m t) →
        a.own = true → (pool T m).step t a = some u →
          ((pool T m).Reachable u ∧ Up m u) ∧ u.effort < t.effort := by
      intro t a u hI hown hu
      obtain ⟨ht, hupt⟩ := hI
      have hlife : a.life = false := by
        cases a with
        | start | stop => cases hown
        | _ => rfl
      have hbrings : a.brings = 0 := by
        cases a with
        | run | wake | wakeCall => cases hown
        | _ => rfl
      have hle := effort_step hupt.running_ hupt.staffed hlife hu
      rw [if_pos hown, hbrings] at hle
      exact ⟨⟨ht.step hu, hupt.step hlife hu⟩, hle⟩
    obtain ⟨t, hleads, -, hdone⟩ := Machine.leads_of_still State.effort hstep
      (fun hI hstill => Still.done hstill hI.2 (hacc hI.1)) ⟨h, hup⟩
    exact ⟨t, hleads, hdone⟩

theorem pool_gets_done_onePlace :
    ∃ t, (pool Nat 1).Leads (fun a => a.own = true) onePlace t ∧ Done t := by
  have hrun : (pool Nat 1).run [.start 1, .spawn, .pushBack, .spawn, .test 0, .take 0 none,
      .run (some 7), .enter 0, .push 0 (some 0), .run (some 8), .enter 1, .push 1 none]
        = some onePlace := by decide
  exact (pool_gets_done 1 onePlace ⟨_, hrun⟩ rfl ⟨.woken true, by decide, nofun⟩).2

end Done

end CppDone.Net.ThreadPool
