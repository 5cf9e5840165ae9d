import CppDone.HttpClient.ThreadPool

/-!
# No lost wake-up in `net::ThreadPool`

Both condition variables are signalled with `notify_one` only, and a notified worker may find
its task gone. What holds nevertheless is a count: while the pool runs and some worker sleeps,
there is a pending notification for every queued task; while some producer sleeps, there is one
for every free place. `CondVar.Served` is that count, and every step either leaves it alone,
notifies for the unit it adds, or takes away a unit together with the notification it uses up.

Only `stop` needs an argument of its own: it wakes every worker, and no worker goes to sleep
while `running_` is false.
-/

set_option autoImplicit false

namespace CppDone.Net.ThreadPool

open CondVar

variable {T : Type} {m : Nat} {s s' : State T}

/-- The counting invariant, with the condition that carries it over a `stop` and a restart. For the
workers the units are the queued tasks, for the producers the free places. In a stopped pool nobody
sleeps on `notEmpty_`, so that a restart begins with nothing owed. -/
structure Woken (m : Nat) (s : State T) : Prop where
  workers : s.running_ = true → notEmpty_.Served s.workers s.queue_.length
  stopped : s.running_ = false → ∀ p ∈ s.workers, notEmpty_.waiting p = false
  producers : m > 0 → notFull_.Served s.calls (m - s.queue_.length)

theorem woken_init : Woken m (State.init : State T) where
  workers h := by cases h
  stopped _ p hp := by cases hp
  producers _ := Served.of_forall (fun p hp => by cases hp) _

theorem le_of_isFull {queue_ : List (Option T)} (h : isFull m queue_ = true) :
    m ≤ queue_.length := by
  simp only [isFull, Bool.and_eq_true, decide_eq_true_eq] at h
  exact h.2

/-- Workers that no change made sleep. -/
theorem not_waiting_set {ps : List (Worker T)} (h : ∀ p ∈ ps, notEmpty_.waiting p = false)
    {i : Nat} {p' : Worker T} (hp' : notEmpty_.waiting p' = false) :
    ∀ p ∈ ps.set i p', notEmpty_.waiting p = false := by
  intro p hp
  rcases List.mem_or_eq_of_mem_set hp with hp | rfl
  · exact h p hp
  · exact hp'

/-! ## Steps

Whoever goes to sleep has found nothing to take, or no place; whoever brings something notifies one
of them. The count says that the notifications on their way are enough. -/

/-- A worker that was not notified moves on, without going to sleep. -/
theorem Woken.moveWorker (h : Woken m s) {w : Nat} {p p' : Worker T} (hw : s.workers[w]? = some p)
    (hn : notEmpty_.notified p = false) (hp' : notEmpty_.waiting p' = false) :
    Woken m { s with workers := s.workers.set w p' } where
  workers hr := (h.workers hr).move hw hn hp'
  stopped hr := not_waiting_set (h.stopped hr) hp'
  producers := h.producers

/-- A call that was not notified moves on, without going to sleep. -/
theorem Woken.moveCall (h : Woken m s) {c : Nat} {p p' : Call T} (hc : s.calls[c]? = some p)
    (hn : notFull_.notified p = false) (hp' : notFull_.waiting p' = false) :
    Woken m { s with calls := s.calls.set c p' } where
  workers := h.workers
  stopped := h.stopped
  producers hm := (h.producers hm).move hc hn hp'

theorem Woken.push (h : Woken m s) {c : Nat} {notified : Option Nat}
    (hs : s.push m c notified = some s') : Woken m s' := by
  obtain ⟨task, pc, hc, -, ⟨hf, rfl⟩ | ⟨hf, workers, hw, rfl⟩⟩ := State.push_cases hs
  · -- the call sleeps: there is no free place
    refine ⟨h.workers, h.stopped, fun _ => ?_⟩
    have hfull : m - s.queue_.length = 0 := Nat.sub_eq_zero_of_le (le_of_isFull hf)
    show notFull_.Served _ (m - s.queue_.length)
    rw [hfull]
    exact served_zero
  · -- one more task, one worker notified; one place less, at most one notified call resumed
    have hlt := (List.getElem?_eq_some_iff.mp hc).1
    have hlen : (s.queue_ ++ [task]).length = s.queue_.length + 1 := List.length_append
    refine ⟨fun hr => ?_, fun hr => ?_, fun hm => ?_⟩
    · show notEmpty_.Served workers (s.queue_ ++ [task]).length
      rw [hlen]
      exact (h.workers hr).notifyOne hw
    · rcases notifyOne_cases hw with ⟨rfl, -⟩ | ⟨i, p, -, hwait, rfl⟩
      · exact h.stopped hr
      · exact not_waiting_set (h.stopped hr) (notEmpty_.waiting_notify p hwait)
    · show notFull_.Served _ (m - (s.queue_ ++ [task]).length)
      rw [hlen, Nat.sub_add_eq]
      exact (h.producers hm).resume hlt rfl

theorem Woken.take (h : Woken m s) {w : Nat} {notified : Option Nat}
    (hs : s.take m w notified = some s') : Woken m s' := by
  obtain ⟨worker, hw, -, ⟨hq, hr, rfl⟩ | ⟨hq, hr, rfl⟩ | ⟨task, queue_, calls, hq, hcalls, rfl⟩⟩ :=
    State.take_cases hs
  · -- the worker sleeps: there is no task
    refine ⟨fun _ => ?_, fun hr' => ?_, h.producers⟩
    · show notEmpty_.Served _ s.queue_.length
      rw [hq]
      exact served_zero
    · rw [show s.running_ = false from hr'] at hr
      cases hr
  · -- a stopped pool: the worker gives up
    refine ⟨fun hr' => ?_, fun _ => not_waiting_set (h.stopped hr) rfl, h.producers⟩
    rw [show s.running_ = true from hr'] at hr
    cases hr
  · -- one task less, at most one notified worker resumed; one more place, one call notified
    have hlt := (List.getElem?_eq_some_iff.mp hw).1
    have hlen : s.queue_.length = queue_.length + 1 := by rw [hq]; rfl
    refine ⟨fun hr => ?_, fun hr => not_waiting_set (h.stopped hr) rfl, fun hm => ?_⟩
    · show notEmpty_.Served _ queue_.length
      have hserved : notEmpty_.Served (s.workers.set w (.took task)) (s.queue_.length - 1) :=
        (h.workers hr).resume hlt rfl
      rwa [hlen, Nat.add_sub_cancel] at hserved
    · rcases hcalls with ⟨-, hcalls⟩ | ⟨hzero, -⟩
      · show notFull_.Served calls (m - queue_.length)
        exact ((h.producers hm).notifyOne hcalls).mono (by omega)
      · omega

theorem Woken.step (h : Woken m s) {a : Action T} (hs : s.step m a = some s') : Woken m s' := by
  cases a with
  | start n =>
    obtain ⟨-, rfl⟩ := State.start_cases hs
    -- nobody sleeps in a stopped pool, so its restart owes nobody anything
    cases hr : s.running_ with
    | true => exact ⟨fun _ => h.workers hr, fun hf => (by cases hf), h.producers⟩
    | false =>
      exact ⟨fun _ => Served.of_forall (h.stopped hr) _, fun hf => (by cases hf), h.producers⟩
  | spawn =>
    rcases State.spawn_cases hs with ⟨-, rfl⟩ | ⟨turns, -, rfl⟩
    · exact ⟨h.workers, h.stopped, h.producers⟩
    -- a new worker does not sleep
    · refine ⟨fun hr => (h.workers hr).append rfl, fun hr p hp => ?_, h.producers⟩
      rcases List.mem_append.mp hp with hp | hp
      · exact h.stopped hr p hp
      · rw [List.mem_singleton.mp hp]
        rfl
  | pushBack =>
    obtain ⟨worker, turns, -, rfl⟩ := State.pushBack_cases hs
    exact ⟨h.workers, h.stopped, h.producers⟩
  -- all are woken; from here on the queue may be full of tasks that nobody was notified of
  | stop =>
    obtain ⟨-, rfl⟩ := State.stop_cases hs
    exact ⟨fun hr => (by cases hr), fun _ => waiting_notifyAll, h.producers⟩
  | join =>
    obtain ⟨i, -, ⟨-, rfl⟩ | ⟨thread, -, ⟨-, rfl⟩ | ⟨-, -, rfl⟩⟩⟩ := State.join_cases hs
    · exact ⟨h.workers, h.stopped, h.producers⟩
    · exact ⟨h.workers, h.stopped, h.producers⟩
    · exact ⟨h.workers, h.stopped, h.producers⟩
  | run task =>
    obtain rfl := State.run_cases hs
    exact ⟨h.workers, h.stopped, fun hm => (h.producers hm).append rfl⟩
  | enter c =>
    obtain ⟨task, pc, hc, rfl, hpc⟩ := State.enter_cases hs
    refine h.moveCall hc rfl ?_
    rcases hpc with ⟨-, rfl⟩ | ⟨-, ⟨-, rfl⟩ | ⟨-, rfl⟩⟩ <;> rfl
  -- the unit comes with its notification
  | push c notified => exact h.push hs
  | wakeCall c =>
    obtain ⟨task, hc, rfl⟩ := State.wakeCall_cases hs
    exact h.moveCall hc rfl rfl
  | endCall c =>
    obtain ⟨t, hc, rfl⟩ := State.endCall_cases hs
    have hmove : Woken m
        { s with calls := s.calls.set c { task := some t, pc := .returned } } :=
      h.moveCall hc rfl rfl
    exact ⟨hmove.workers, hmove.stopped, hmove.producers⟩
  -- with `running_` true it goes for the mutex, and does not sleep yet
  | test w =>
    obtain ⟨hw, rfl⟩ := State.test_cases hs
    refine h.moveWorker hw rfl ?_
    split <;> rfl
  -- the unit goes with the notification it was announced by
  | take w notified => exact h.take hs
  -- a worker that wakes by itself does not use a notification up
  | wake w =>
    obtain ⟨hw, rfl⟩ := State.wake_cases hs
    exact h.moveWorker hw rfl rfl
  | exec w =>
    rcases State.exec_cases hs with ⟨hw, rfl⟩ | ⟨t, hw, rfl⟩
    · exact h.moveWorker hw rfl rfl
    · have hmove : Woken m { s with workers := s.workers.set w (.running t) } :=
        h.moveWorker hw rfl rfl
      exact ⟨hmove.workers, hmove.stopped, hmove.producers⟩
  | finish w =>
    obtain ⟨t, hw, rfl⟩ := State.finish_cases hs
    have hmove : Woken m { s with workers := s.workers.set w .test } := h.moveWorker hw rfl rfl
    exact ⟨hmove.workers, hmove.stopped, hmove.producers⟩

theorem woken_inductive : (pool T m).Inductive (Woken m) where
  init := woken_init
  step h hs := h.step hs

/-- **No lost wake-up.** In every reachable state: while the pool runs and a worker sleeps, the
queue is no longer than the notified workers that have not resumed; while a producer sleeps in a
bounded pool, the free places are no more than the notified producers that have not resumed; and
from the section of `stop` on, until the pool is started again, no worker sleeps. -/
theorem no_lost_wakeup (m : Nat) (s : State T) (h : (pool T m).Reachable s) :
    (s.running_ = true → (∃ w ∈ s.workers, notEmpty_.waiting w = true) →
      s.queue_.length ≤ s.workers.countP notEmpty_.notified) ∧
    (m > 0 → (∃ c ∈ s.calls, notFull_.waiting c = true) →
      m - s.queue_.length ≤ s.calls.countP notFull_.notified) ∧
    (s.running_ = false → ∀ w ∈ s.workers, notEmpty_.waiting w = false) :=
  have hwoken := h.inv woken_inductive
  ⟨hwoken.workers, hwoken.producers, hwoken.stopped⟩

/-- A pool of one place: the task that fills it has notified the worker, and a second producer
sleeps. -/
def onePlace : State Nat where
  running_ := true
  threads_ := [{ worker := 0, joined_ := false }]
  queue_ := [some 7]
  workers := [.woken true]
  calls := [{ task := some 7, pc := .returned }, { task := some 8, pc := .waiting }]
  control := .idle
  pushed := [some 7]
  popped := []
  executed := []
  finished := []

theorem no_lost_wakeup_onePlace :
    (pool Nat 1).run [.start 1, .spawn, .pushBack, .spawn, .test 0, .take 0 none, .run (some 7),
        .enter 0, .push 0 (some 0), .run (some 8), .enter 1, .push 1 none] = some onePlace ∧
      1 - onePlace.queue_.length ≤ onePlace.calls.countP notFull_.notified := by
  have hrun : (pool Nat 1).run [.start 1, .spawn, .pushBack, .spawn, .test 0, .take 0 none,
      .run (some 7), .enter 0, .push 0 (some 0), .run (some 8), .enter 1, .push 1 none]
        = some onePlace := by decide
  refine ⟨hrun, (no_lost_wakeup 1 onePlace ⟨_, hrun⟩).2.1 (by decide) ?_⟩
  exact ⟨{ task := some 8, pc := .waiting }, by decide, rfl⟩

end CppDone.Net.ThreadPool
