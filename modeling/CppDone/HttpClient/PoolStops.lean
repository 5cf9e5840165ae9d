import CppDone.HttpClient.PoolTasks
import CppDone.HttpClient.PoolThreads
import CppDone.HttpClient.PoolWakeups
import CppDone.Lib.Progress

/-!
# `stop` returns

`stop` joins every thread, so it returns only if every worker leaves its loop, and a worker looks
at `running_` only between two tasks. Nobody sleeps in a pool that is stopped: `stop` has woken who
slept, and with `running_` false `take` does not wait. So a worker has at most the rest of its turn
before it, and no call of `run` can add to that: it lengthens the queue and notifies nobody.

The bound counts the steps of the workers and the joins. Tasks are taken to end.

In a stopped pool a notification finds nobody, which is why the steps of the callers do not count:
whatever they push is seen by a worker that is on its way anyway, or by none.
-/

set_option autoImplicit false

namespace CppDone.Net.ThreadPool

variable {T : Type} {m : Nat} {s s' : State T}

/-- How many steps a worker of a stopped pool has before it at most. `running_` is false, so behind
a task there is one test, and then the end. -/
def Worker.load : Worker T → Nat
  | .exited => 0
  | .test => 1
  | .running _ | .took none => 2
  | .took (some _) => 3
  | .lock | .woken _ | .waiting => 4

theorem load_took (task : Option T) : (Worker.took task).load ≤ 3 := by
  cases task with
  | none => exact Nat.le_succ 2
  | some t => exact Nat.le_refl 3

theorem load_of_locks {p : Worker T} (h : p.locks = true) : p.load = 4 := by
  cases p with
  | lock | woken _ => rfl
  | _ => cases h

/-- How many joins the controlling thread has before it, with the end of their loop. -/
def State.joins (s : State T) : Nat :=
  match s.control with
  | .joining i => s.threads_.length - i + 1
  | _ => 0

def State.load (s : State T) : Nat := total Worker.load s.workers + s.joins

/-- A step of a worker, or a join. -/
def Action.works : Action T → Bool
  | .test _ | .take _ _ | .wake _ | .exec _ | .finish _ | .join => true
  | _ => false

/-- A call of `start` or `stop`. -/
def Action.life : Action T → Bool
  | .start _ | .stop => true
  | _ => false

/-- A pool that is stopped, and nobody sleeps. It is in no `start`, so no worker is added; it may be
in the joins, behind them, or stuck at a thread that is joined already. -/
structure Stopped (s : State T) : Prop where
  running_ : s.running_ = false
  awake : ∀ p ∈ s.workers, notEmpty_.waiting p = false
  starting : ∀ turns, s.control ≠ .starting turns
  pushing : ∀ w turns, s.control ≠ .pushing w turns

theorem Stopped.of_reachable (h : (pool T m).Reachable s) (hr : s.running_ = false) :
    Stopped s := by
  have hst := (h.inv staffed_inductive).2
  refine ⟨hr, (h.inv woken_inductive).stopped hr, fun turns hc => ?_, fun w turns hc => ?_⟩
  · exact nomatch (hst.starting turns hc).symm.trans hr
  · exact nomatch (hst.pushing w turns hc).1.symm.trans hr

theorem Stopped.of_joining (h : (pool T m).Reachable s) {i : Nat} (hi : s.control = .joining i) :
    Stopped s :=
  Stopped.of_reachable h ((h.inv staffed_inductive).2.joining i hi)

/-! ## The steps

In a stopped pool every step of a worker is one of its last turn. What the callers do meanwhile
lengthens the queue and changes nothing for the workers. -/

/-- One worker goes on in its turn. -/
theorem Stopped.move (h : Stopped s) {w : Nat} {p p' : Worker T} (hw : s.workers[w]? = some p)
    (hworkers : s'.workers = s.workers.set w p') (hlt : p'.load < p.load)
    (hp' : notEmpty_.waiting p' = false) (hr : s'.running_ = s.running_)
    (ht : s'.threads_ = s.threads_) (hc : s'.control = s.control) :
    Stopped s' ∧ s'.load + 1 ≤ s.load := by
  refine ⟨⟨hr.trans h.running_, ?_, fun turns => ?_, fun w turns => ?_⟩, ?_⟩
  · rw [hworkers]
    exact not_waiting_set h.awake hp'
  · rw [hc]
    exact h.starting turns
  · rw [hc]
    exact h.pushing w turns
  · have hsum := total_set_add Worker.load hw p'
    have hjoins : s'.joins = s.joins := by simp [State.joins, hc, ht]
    unfold State.load
    rw [hworkers, hjoins]
    omega

/-- A caller of `run` changes nothing that matters here. -/
theorem Stopped.caller (h : Stopped s) (hworkers : s'.workers = s.workers)
    (hr : s'.running_ = s.running_) (ht : s'.threads_ = s.threads_)
    (hc : s'.control = s.control) : Stopped s' ∧ s'.load ≤ s.load := by
  refine ⟨⟨hr.trans h.running_, ?_, fun turns => ?_, fun w turns => ?_⟩, Nat.le_of_eq ?_⟩
  · rw [hworkers]
    exact h.awake
  · rw [hc]
    exact h.starting turns
  · rw [hc]
    exact h.pushing w turns
  · simp [State.load, State.joins, hworkers, hc, ht]

theorem Stopped.join (h : Stopped s) (hs : s.join = some s') :
    Stopped s' ∧ s'.load + 1 ≤ s.load := by
  obtain ⟨i, hi, hcases⟩ := State.join_cases hs
  have hjoins : s.joins = s.threads_.length - i + 1 := by simp [State.joins, hi]
  rcases hcases with ⟨-, rfl⟩ | ⟨thread, hthread, ⟨-, rfl⟩ | ⟨-, -, rfl⟩⟩
  · refine ⟨⟨h.running_, h.awake, nofun, nofun⟩, ?_⟩
    show total Worker.load s.workers + 0 + 1 ≤ total Worker.load s.workers + s.joins
    omega
  · refine ⟨⟨h.running_, h.awake, nofun, nofun⟩, ?_⟩
    show total Worker.load s.workers + 0 + 1 ≤ total Worker.load s.workers + s.joins
    omega
  · refine ⟨⟨h.running_, h.awake, nofun, nofun⟩, ?_⟩
    have hlt := lt_length_of_getElem? hthread
    show total Worker.load s.workers + ((s.threads_.set i _).length - (i + 1) + 1) + 1 ≤
      total Worker.load s.workers + s.joins
    rw [List.length_set]
    omega

theorem Stopped.step (h : Stopped s) {a : Action T} (ha : a.life = false)
    (hs : s.step m a = some s') :
    Stopped s' ∧ s'.load + (if a.works then 1 else 0) ≤ s.load := by
  -- the callers leave the workers alone; a step of a worker shortens the rest of its turn
  cases a with
  | start | stop => cases ha
  | spawn =>
    obtain ⟨hc, -⟩ | ⟨turns, hc, -⟩ := State.spawn_cases hs
    · exact absurd hc (h.starting _)
    · exact absurd hc (h.starting _)
  | pushBack =>
    obtain ⟨w, turns, hc, -⟩ := State.pushBack_cases hs
    exact absurd hc (h.pushing w turns)
  | join => exact h.join hs
  | run task =>
    obtain rfl := State.run_cases hs
    exact h.caller rfl rfl rfl rfl
  | enter c =>
    obtain ⟨task, pc, -, rfl, -⟩ := State.enter_cases hs
    exact h.caller rfl rfl rfl rfl
  | push c notified =>
    obtain ⟨task, pc, -, -, ⟨-, rfl⟩ | ⟨-, workers, hn, rfl⟩⟩ := State.push_cases hs
    · exact h.caller rfl rfl rfl rfl
    -- the notification of a push goes to a sleeping worker, and none sleeps
    · rcases CondVar.notifyOne_cases hn with ⟨rfl, -⟩ | ⟨w, p, hw, hwait, -⟩
      · exact h.caller rfl rfl rfl rfl
      · rw [h.awake p (List.mem_of_getElem? hw)] at hwait
        cases hwait
  | wakeCall c =>
    obtain ⟨task, -, rfl⟩ := State.wakeCall_cases hs
    exact h.caller rfl rfl rfl rfl
  | endCall c =>
    obtain ⟨t, -, rfl⟩ := State.endCall_cases hs
    exact h.caller rfl rfl rfl rfl
  -- `running_` is false: the worker leaves
  | test w =>
    obtain ⟨hw, rfl⟩ := State.test_cases hs
    rw [h.running_]
    exact h.move hw rfl (by simp [Worker.load]) rfl h.running_.symm rfl rfl
  | take w notified =>
    obtain ⟨p, hw, hl, ⟨-, hr, -⟩ | ⟨-, -, rfl⟩ | ⟨task, queue_, calls, -, -, rfl⟩⟩ :=
      State.take_cases hs
    -- to sleep takes `running_`
    · rw [h.running_] at hr
      cases hr
    · refine h.move hw rfl ?_ rfl rfl rfl rfl
      rw [load_of_locks hl]
      exact Nat.lt_succ_of_le (load_took none)
    · refine h.move hw rfl ?_ rfl rfl rfl rfl
      rw [load_of_locks hl]
      exact Nat.lt_succ_of_le (load_took task)
  | wake w =>
    obtain ⟨hw, -⟩ := State.wake_cases hs
    have hwait := h.awake _ (List.mem_of_getElem? hw)
    cases hwait
  | exec w =>
    rcases State.exec_cases hs with ⟨hw, rfl⟩ | ⟨t, hw, rfl⟩
    · exact h.move hw rfl (by simp [Worker.load]) rfl rfl rfl rfl
    · exact h.move hw rfl (by simp [Worker.load]) rfl rfl rfl rfl
  -- the one task more that a worker can be in: it is not begun again
  | finish w =>
    obtain ⟨t, hw, rfl⟩ := State.finish_cases hs
    exact h.move hw rfl (by simp [Worker.load]) rfl rfl rfl rfl

/-! ## Nobody is stuck

The controlling thread waits in `join` for one worker at a time. That worker is on its way out, or
the thread has ended already. -/

/-- A step of a worker in its turn, which it takes without being woken. -/
def Action.turn : Action T → Bool
  | .test _ | .take _ _ | .exec _ | .finish _ => true
  | _ => false

theorem Action.works_of_turn {a : Action T} (h : a.turn = true) : a.works = true := by
  cases a with
  | test | take | exec | finish => rfl
  | _ => cases h

/-- A worker that has not left and does not sleep can go on. -/
theorem worker_goes {w : Nat} {p : Worker T} (hw : s.workers[w]? = some p)
    (hwait : notEmpty_.waiting p = false) (hp : p ≠ .exited) :
    ∃ a s', a.turn = true ∧ (pool T m).step s a = some s' := by
  have htake : p.locks = true → ∃ a s', a.turn = true ∧ (pool T m).step s a = some s' := by
    intro hl
    obtain ⟨notified, calls, hn⟩ := CondVar.notifyOne_possible notFull_ s.calls
    obtain ⟨s', hs⟩ : ∃ s', s.take m w notified = some s' := by
      cases hq : s.queue_ with
      | nil => exact ⟨_, by simp only [State.take, hw, hl, hq, if_true]; rfl⟩
      | cons task queue_ =>
        by_cases hm : m > 0
        · exact ⟨_, by simp only [State.take, hw, hl, hq, hm, hn, if_true, Option.map_some]; rfl⟩
        · exact ⟨_, by simp only [State.take, hw, hl, hq, hm, if_true, if_false,
            Option.map_some]; rfl⟩
    exact ⟨.take w notified, s', rfl, hs⟩
  cases p with
  | test => exact ⟨.test w, _, rfl, by simp only [pool, State.step, State.test, hw]; rfl⟩
  | lock => exact htake rfl
  | woken notified => exact htake rfl
  | waiting => cases hwait
  | took task =>
    cases task with
    | none => exact ⟨.exec w, _, rfl, by simp only [pool, State.step, State.exec, hw]; rfl⟩
    | some t => exact ⟨.exec w, _, rfl, by simp only [pool, State.step, State.exec, hw]; rfl⟩
  | running t => exact ⟨.finish w, _, rfl, by simp only [pool, State.step, State.finish, hw]; rfl⟩
  | exited => exact absurd rfl hp

/-- The next join can be done, or the worker it waits for can go on. -/
theorem Stopped.goes (h : Stopped s) (hst : Staffed s) {i : Nat} (hi : s.control = .joining i) :
    ∃ a s', a.works = true ∧ (pool T m).step s a = some s' := by
  have hjoin : ∀ s', s.join = some s' → ∃ a s', a.works = true ∧ (pool T m).step s a = some s' :=
    fun s' hs => ⟨.join, s', rfl, hs⟩
  cases hthread : s.threads_[i]? with
  | none => exact hjoin _ (by simp only [State.join, hi, hthread]; rfl)
  | some thread =>
    cases hj : thread.joined_ with
    | true => exact hjoin _ (by simp only [State.join, hi, hthread, hj, if_true]; rfl)
    | false =>
      have hlt := hst.known thread (List.mem_of_getElem? hthread)
      have hw := List.getElem?_eq_getElem hlt
      by_cases hexit : s.workers[thread.worker] = .exited
      · rw [hexit] at hw
        exact hjoin _ (by simp only [State.join, hi, hthread, hj, hw]; rfl)
      · have hwait := h.awake _ (List.mem_of_getElem? hw)
        obtain ⟨a, s', ha, hs⟩ := worker_goes hw hwait hexit
        exact ⟨a, s', Action.works_of_turn ha, hs⟩

/-! ## What is still begun

A worker inside `take` begins one more task if it gets one, and looks at `running_` behind it. So
one task is the most that can be counted for each worker. -/

/-- A worker that will yet begin a task without another look at `running_`. -/
def Worker.begins : Worker T → Nat
  | .lock | .woken _ | .took (some _) => 1
  | _ => 0

/-- The tasks worker `w` has begun, and the one it may yet begin. A worker whose turn is not over
may begin one; what it has begun stays recorded. -/
def State.begun (w : Nat) (s : State T) : Nat :=
  (s.executedBy w).length + (s.workers[w]?.map Worker.begins).getD 0

theorem begins_le_one (p : Worker T) : p.begins ≤ 1 := by
  cases p with
  | took task => cases task <;> simp [Worker.begins]
  | _ => simp [Worker.begins]

theorem begins_of_locks {p : Worker T} (h : p.locks = true) : p.begins = 1 := by
  cases p with
  | lock | woken _ => rfl
  | _ => cases h

theorem begun_le (w : Nat) (s : State T) : s.begun w ≤ (s.executedBy w).length + 1 := by
  unfold State.begun
  cases s.workers[w]? with
  | none => simp
  | some p => exact Nat.add_le_add_left (begins_le_one p) _

theorem executedBy_le_begun (w : Nat) (s : State T) : (s.executedBy w).length ≤ s.begun w :=
  Nat.le_add_right _ _

/-- A worker goes on without beginning a task. -/
theorem begun_move {v w : Nat} {p p' : Worker T} (hv : s.workers[v]? = some p)
    (hworkers : s'.workers = s.workers.set v p') (hexec : s'.executed = s.executed)
    (hle : p'.begins ≤ p.begins) : s'.begun w ≤ s.begun w := by
  unfold State.begun State.executedBy
  rw [hworkers, hexec]
  refine Nat.add_le_add_left ?_ _
  by_cases hwv : v = w
  · subst hwv
    rw [List.getElem?_set_self (lt_length_of_getElem? hv), hv]
    exact hle
  · have hsame := List.getElem?_set_ne (l := s.workers) (a := p') hwv
    exact Nat.le_of_eq (by rw [hsame])

theorem begun_same {w : Nat} (hworkers : s'.workers = s.workers)
    (hexec : s'.executed = s.executed) : s'.begun w ≤ s.begun w := by
  simp [State.begun, State.executedBy, hworkers, hexec]

/-- The task in a worker's hand is begun. -/
theorem begun_exec {v w : Nat} {t : T} (hv : s.workers[v]? = some (.took (some t)))
    (hworkers : s'.workers = s.workers.set v (.running t))
    (hexec : s'.executed = s.executed ++ [(v, t)]) : s'.begun w ≤ s.begun w := by
  unfold State.begun State.executedBy
  rw [hworkers, hexec, List.filter_append, List.map_append, List.length_append]
  by_cases hwv : v = w
  · subst hwv
    rw [List.getElem?_set_self (lt_length_of_getElem? hv), hv]
    simp [Worker.begins]
  · rw [List.getElem?_set_ne hwv]
    simp [hwv]

theorem Stopped.begun_step (h : Stopped s) {a : Action T} (ha : a.life = false) (w : Nat)
    (hs : s.step m a = some s') : s'.begun w ≤ s.begun w := by
  cases a with
  | start | stop => cases ha
  | spawn =>
    obtain ⟨hc, -⟩ | ⟨turns, hc, -⟩ := State.spawn_cases hs
    · exact absurd hc (h.starting _)
    · exact absurd hc (h.starting _)
  | pushBack =>
    obtain ⟨v, turns, hc, -⟩ := State.pushBack_cases hs
    exact absurd hc (h.pushing v turns)
  | join =>
    obtain ⟨i, -, ⟨-, rfl⟩ | ⟨thread, -, ⟨-, rfl⟩ | ⟨-, -, rfl⟩⟩⟩ := State.join_cases hs
    · exact begun_same rfl rfl
    · exact begun_same rfl rfl
    · exact begun_same rfl rfl
  | run task =>
    obtain rfl := State.run_cases hs
    exact begun_same rfl rfl
  | enter c =>
    obtain ⟨task, pc, -, rfl, -⟩ := State.enter_cases hs
    exact begun_same rfl rfl
  | push c notified =>
    obtain ⟨task, pc, -, -, ⟨-, rfl⟩ | ⟨-, workers, hn, rfl⟩⟩ := State.push_cases hs
    · exact begun_same rfl rfl
    · rcases CondVar.notifyOne_cases hn with ⟨rfl, -⟩ | ⟨v, p, hv, hwait, -⟩
      · exact begun_same rfl rfl
      · rw [h.awake p (List.mem_of_getElem? hv)] at hwait
        cases hwait
  | wakeCall c =>
    obtain ⟨task, -, rfl⟩ := State.wakeCall_cases hs
    exact begun_same rfl rfl
  | endCall c =>
    obtain ⟨t, -, rfl⟩ := State.endCall_cases hs
    exact begun_same rfl rfl
  | test v =>
    obtain ⟨hv, rfl⟩ := State.test_cases hs
    rw [h.running_]
    exact begun_move hv rfl rfl (Nat.zero_le _)
  | take v notified =>
    obtain ⟨p, hv, hl, ⟨-, hr, -⟩ | ⟨-, -, rfl⟩ | ⟨task, queue_, calls, -, -, rfl⟩⟩ :=
      State.take_cases hs
    · rw [h.running_] at hr
      cases hr
    · exact begun_move hv rfl rfl (Nat.zero_le _)
    · refine begun_move hv rfl rfl ?_
      rw [begins_of_locks hl]
      exact begins_le_one _
  | wake v =>
    obtain ⟨hv, -⟩ := State.wake_cases hs
    exact nomatch h.awake _ (List.mem_of_getElem? hv)
  | exec v =>
    rcases State.exec_cases hs with ⟨hv, rfl⟩ | ⟨t, hv, rfl⟩
    · exact begun_move hv rfl rfl (Nat.zero_le _)
    · exact begun_exec hv rfl rfl
  | finish v =>
    obtain ⟨t, hv, rfl⟩ := State.finish_cases hs
    exact begun_move hv rfl rfl (Nat.zero_le _)

/-- **`stop` returns, and no worker begins more than one task meanwhile.** From where `stop` is in
its joins, until there is another `start` or `stop` and whatever the callers of `run` do: the
workers and the joins take `load` steps at most, as long as a thread is not joined one of them can
be taken, so that they lead to the end of the joins by themselves; and a worker begins one more
task at most. -/
theorem stop_returns (m : Nat) (s : State T) (h : (pool T m).Reachable s) (i : Nat)
    (hi : s.control = .joining i) :
    (∀ as t, (pool T m).runFrom s as = some t → (∀ a ∈ as, a.life = false) →
      as.countP Action.works ≤ s.load ∧
      (∀ j, t.control = .joining j → ∃ a u, a.works = true ∧ (pool T m).step t a = some u) ∧
      ∀ w, (t.executedBy w).length ≤ (s.executedBy w).length + 1) ∧
    ∃ t, (pool T m).Leads (fun a => a.works = true) s t ∧ ∀ j, t.control ≠ .joining j := by
  have hstaffed : ∀ {t : State T}, (pool T m).Reachable t → Tracked t ∧ Staffed t := fun ht =>
    ht.inv staffed_inductive
  have hstop := Stopped.of_joining h hi
  constructor
  · intro as t hr hlife
    have hstop' : Stopped t :=
      Machine.runFrom_inv_of (I := Stopped) (fun hI ha hs => (hI.step ha hs).1) hlife hstop hr
    refine ⟨?_, fun j hj => hstop'.goes (hstaffed (h.runFrom hr)).2 hj, fun w => ?_⟩
    · have hle := Machine.countP_le_of_measure Action.works State.load
        (fun hI ha hs => Stopped.step hI ha hs) hlife hstop hr
      exact Nat.le_of_add_right_le hle
    · have hbegun : Stopped t ∧ t.begun w ≤ s.begun w := by
        refine Machine.runFrom_inv_of (I := fun t => Stopped t ∧ t.begun w ≤ s.begun w) ?_ hlife
          ⟨hstop, Nat.le_refl _⟩ hr
        exact fun hI ha hs =>
          ⟨(hI.1.step ha hs).1, Nat.le_trans (hI.1.begun_step ha w hs) hI.2⟩
      exact Nat.le_trans (executedBy_le_begun w t) (Nat.le_trans hbegun.2 (begun_le w s))
  · have hstep : ∀ t, ((pool T m).Reachable t ∧ Stopped t) → ¬ (∀ j, t.control ≠ .joining j) →
        ∃ a u, a.works = true ∧ (pool T m).step t a = some u ∧
          ((pool T m).Reachable u ∧ Stopped u) ∧ u.load < t.load := by
      rintro t ⟨hr, ht⟩ hgoal
      obtain ⟨j, hj⟩ := not_forall_not.mp hgoal
      obtain ⟨a, u, ha, hu⟩ := ht.goes (m := m) (hstaffed hr).2 hj
      have hlife : a.life = false := by
        cases a with
        | start | stop => cases ha
        | _ => rfl
      obtain ⟨hstop', hle⟩ := ht.step hlife hu
      rw [if_pos ha] at hle
      exact ⟨a, u, ha, hu, ⟨hr.step hu, hstop'⟩, hle⟩
    obtain ⟨t, ht, -, hgoal⟩ := Machine.leads_of_measure State.load hstep ⟨h, hstop⟩
    exact ⟨t, ht, hgoal⟩

/-- One of two workers is about to take, and a task is queued, when the pool is stopped. -/
def stoppedTaking : State Nat where
  running_ := false
  threads_ := [⟨0, false⟩, ⟨1, false⟩]
  queue_ := [some 7]
  workers := [.woken true, .lock]
  calls := [⟨some 7, .returned⟩]
  control := .joining 0
  pushed := [some 7]
  popped := []
  executed := []
  finished := []

theorem stop_returns_stoppedTaking :
    stoppedTaking.load = 11 ∧
      ∃ t, (pool Nat 0).Leads (fun a => a.works = true) stoppedTaking t ∧
        ∀ j, t.control ≠ .joining j := by
  have hrun : (pool Nat 0).run [.start 2, .spawn, .pushBack, .spawn, .pushBack, .spawn, .test 0,
      .take 0 none, .test 1, .run (some 7), .enter 0, .push 0 (some 0), .stop] =
      some stoppedTaking := by decide
  exact ⟨rfl, (stop_returns 0 stoppedTaking ⟨_, hrun⟩ 0 rfl).2⟩

end CppDone.Net.ThreadPool
