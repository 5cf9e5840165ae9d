import CppDone.HttpClient.Client
import CppDone.HttpClient.PoolTasks
import CppDone.HttpClient.PoolThreads
import Mathlib.Data.List.Count

/-!
# Destroying a client

What is queued when `stop` clears `running_` is popped by a worker that is inside `take` already,
past the test of `running_`, or by nobody: every such worker pops one more task and then leaves,
and no other worker goes in. So the requests are all answered exactly if at that moment the queue
is no longer than the workers inside `take`. The two counts then fall together
(`takes_step`), which is the whole argument; everything else here is bookkeeping that says where
a request is that is not answered.
-/

set_option autoImplicit false

namespace CppDone

/-! ## A stopped pool

Nobody sleeps in it, and a worker that leaves `take` with nothing does not come back. So there are
as many pops to come as there are workers inside `take`, if the queue has as many tasks. -/

namespace Net.ThreadPool

open CondVar HttpClient

variable {m : Nat} {s s' : State Nat}

/-- The controlling thread, between two calls of `start` and `stop`, at most adds a worker. -/
theorem control_frame {a : Action Nat} (ha : internal a = true) (hctl : a.isControl = true)
    (hs : s.step m a = some s') :
    s'.running_ = s.running_ ∧ s'.queue_ = s.queue_ ∧ s'.calls = s.calls ∧
      (s'.workers = s.workers ∨ s'.workers = s.workers ++ [.test]) := by
  cases a with
  | start | stop => cases ha
  | spawn =>
    rcases State.spawn_cases hs with ⟨-, rfl⟩ | ⟨turns, -, rfl⟩
    · exact ⟨rfl, rfl, rfl, Or.inl rfl⟩
    · exact ⟨rfl, rfl, rfl, Or.inr rfl⟩
  | pushBack =>
    obtain ⟨worker, turns, -, rfl⟩ := State.pushBack_cases hs
    exact ⟨rfl, rfl, rfl, Or.inl rfl⟩
  | join =>
    obtain ⟨i, -, ⟨-, rfl⟩ | ⟨thread, -, ⟨-, rfl⟩ | ⟨-, -, rfl⟩⟩⟩ := State.join_cases hs
    · exact ⟨rfl, rfl, rfl, Or.inl rfl⟩
    · exact ⟨rfl, rfl, rfl, Or.inl rfl⟩
    · exact ⟨rfl, rfl, rfl, Or.inl rfl⟩
  | run | enter | push | wakeCall | endCall | test | take | wake | exec | finish => cases hctl

/-- It does nothing by itself when it is in no call. -/
theorem control_of_idle (hidle : s.control = .idle) {a : Action Nat} (ha : internal a = true)
    (hs : s.step m a = some s') : a.isControl = false := by
  cases a with
  | start | stop => cases ha
  | spawn =>
    rcases State.spawn_cases hs with ⟨hc, -⟩ | ⟨turns, hc, -⟩
    · rw [hidle] at hc
      cases hc
    · rw [hidle] at hc
      cases hc
  | pushBack =>
    obtain ⟨worker, turns, hc, -⟩ := State.pushBack_cases hs
    rw [hidle] at hc
    cases hc
  | join =>
    obtain ⟨i, hc, -⟩ := State.join_cases hs
    rw [hidle] at hc
    cases hc
  | run | enter | push | wakeCall | endCall | test | take | wake | exec | finish => rfl

/-- A call that has returned takes no step. -/
theorem caller_of_returned (hret : ∀ c ∈ s.calls, c.pc = .returned) {a : Action Nat}
    (hs : s.step m a = some s') : a.caller = none := by
  have hno : ∀ {c : Nat} {task : Option Nat} {pc : CallPc},
      s.calls[c]? = some { task, pc } → pc = .returned :=
    fun hc => hret _ (List.mem_of_getElem? hc)
  cases a with
  | enter c =>
    obtain ⟨task, pc, hc, -, -⟩ := State.enter_cases hs
    cases hno hc
  | push c notified =>
    obtain ⟨task, pc, hc, hl, -⟩ := State.push_cases hs
    obtain rfl := hno hc
    cases hl
  | wakeCall c =>
    obtain ⟨task, hc, -⟩ := State.wakeCall_cases hs
    cases hno hc
  | endCall c =>
    obtain ⟨t, hc, -⟩ := State.endCall_cases hs
    cases hno hc
  | _ => rfl

/-- Calls that have returned are left alone. -/
theorem calls_of_returned (hret : ∀ c ∈ s.calls, c.pc = .returned) {a : Action Nat}
    (ha : internal a = true) (hs : s.step m a = some s') : s'.calls = s.calls := by
  have hcaller := caller_of_returned hret hs
  cases a with
  | start | stop | run => cases ha
  | spawn | pushBack | join => exact (control_frame rfl rfl hs).2.2.1
  | enter | push | wakeCall | endCall => cases hcaller
  | test w =>
    obtain ⟨-, rfl⟩ := State.test_cases hs
    rfl
  | take w notified =>
    obtain ⟨worker, -, -, ⟨-, -, rfl⟩ | ⟨-, -, rfl⟩ | ⟨task, queue_, calls, -, hcalls, rfl⟩⟩ :=
      State.take_cases hs
    · rfl
    · rfl
    · rcases hcalls with ⟨-, hcalls⟩ | ⟨-, rfl⟩
      · rcases notifyOne_cases hcalls with ⟨rfl, -⟩ | ⟨c, ⟨task', pc⟩, hc, hwait, -⟩
        · rfl
        · -- nobody waits for a free place
          obtain rfl : pc = .returned := hret _ (List.mem_of_getElem? hc)
          cases hwait
      · rfl
  | wake w =>
    obtain ⟨-, rfl⟩ := State.wake_cases hs
    rfl
  | exec w =>
    rcases State.exec_cases hs with ⟨-, rfl⟩ | ⟨t, -, rfl⟩
    · rfl
    · rfl
  | finish w =>
    obtain ⟨t, -, rfl⟩ := State.finish_cases hs
    rfl

/-- **A stopped pool**: the queue and the workers inside `take` fall together, until the queue is
empty. -/
theorem takes_step (hr : s.running_ = false) (hret : ∀ c ∈ s.calls, c.pc = .returned)
    {a : Action Nat} (ha : internal a = true) (hs : s.step m a = some s') :
    s'.queue_.length + s.workers.countP Worker.takes =
        s.queue_.length + s'.workers.countP Worker.takes ∨
      s.queue_ = [] ∧ s'.queue_ = [] := by
  have hcaller := caller_of_returned hret hs
  -- a worker that stays inside `take`, or outside
  have hmove : ∀ {w : Nat} {p p' : Worker Nat}, s.workers[w]? = some p → p'.takes = p.takes →
      s.queue_.length + s.workers.countP Worker.takes =
        s.queue_.length + (s.workers.set w p').countP Worker.takes := by
    intro w p p' hw hp
    have hcount := countP_set_add (p := Worker.takes) hw p'
    rw [hp] at hcount
    omega
  cases a with
  | start | stop | run => cases ha
  | spawn | pushBack | join =>
    obtain ⟨-, hqueue, -, hworkers⟩ := control_frame rfl rfl hs
    left
    rw [hqueue]
    rcases hworkers with hworkers | hworkers
    · rw [hworkers]
    · rw [hworkers, List.countP_append]
      rfl
  | enter | push | wakeCall | endCall => cases hcaller
  | test w =>
    obtain ⟨hw, rfl⟩ := State.test_cases hs
    refine Or.inl (hmove hw ?_)
    rw [hr]
    rfl
  | take w notified =>
    obtain ⟨worker, hw, hl, ⟨-, hr', -⟩ | ⟨hq, -, rfl⟩ | ⟨task, queue_, calls, hq, -, rfl⟩⟩ :=
      State.take_cases hs
    · rw [hr] at hr'
      cases hr'
    · exact Or.inr ⟨hq, hq⟩
    · refine Or.inl ?_
      have hcount := countP_set_add (p := Worker.takes) hw (.took task)
      rw [takes_of_locks hl] at hcount
      simp only [Worker.takes, if_true, Bool.false_eq_true, if_false] at hcount
      dsimp only
      rw [hq, List.length_cons]
      omega
  | wake w =>
    obtain ⟨hw, rfl⟩ := State.wake_cases hs
    exact Or.inl (hmove hw rfl)
  | exec w =>
    rcases State.exec_cases hs with ⟨hw, rfl⟩ | ⟨t, hw, rfl⟩
    · exact Or.inl (hmove hw rfl)
    · exact Or.inl (hmove hw rfl)
  | finish w =>
    obtain ⟨t, hw, rfl⟩ := State.finish_cases hs
    exact Or.inl (hmove hw rfl)

/-! ## A pool that was never started

Its requests are done by the threads that send them. There is nothing to stop and nothing left over.
-/

/-- A pool that has no threads. Whoever calls `run` runs his task himself, so nobody ever waits. -/
structure Unstarted (s : State Nat) : Prop where
  control : s.control = .idle
  threads : s.threads_ = []
  workers : s.workers = []
  queue : s.queue_ = []
  inline : ∀ c ∈ s.calls, c.pc.locks = false ∧ c.pc ≠ .waiting

/-- Without threads a call of `run` ends where it began: its task is run in place, and no step of a
worker is possible. -/
theorem Unstarted.step (h : Unstarted s) {a : Action Nat} (ha : internal a = true)
    (hs : s.step m a = some s') : Unstarted s' := by
  have hcall : ∀ {c : Nat} {call : Call Nat}, s.calls[c]? = some call →
      call.pc.locks = false ∧ call.pc ≠ .waiting :=
    fun hc => h.inline _ (List.mem_of_getElem? hc)
  have hset : ∀ {c : Nat} {call : Call Nat}, call.pc.locks = false → call.pc ≠ .waiting →
      ∀ c' ∈ s.calls.set c call, c'.pc.locks = false ∧ c'.pc ≠ .waiting := by
    intro c call hl hw c' hc'
    rcases List.mem_or_eq_of_mem_set hc' with hc' | rfl
    · exact h.inline c' hc'
    · exact ⟨hl, hw⟩
  have hnone : ∀ {w : Nat} {p : Worker Nat}, s.workers[w]? ≠ some p := by
    intro w p
    rw [h.workers]
    simp
  -- no worker and nobody in the queue's way: a call is run in place or does nothing
  cases a with
  | start | stop | run => cases ha
  | spawn | pushBack | join => cases control_of_idle h.control rfl hs
  | enter c =>
    obtain ⟨task, pc, -, rfl, ⟨hne, -⟩ | ⟨-, hpc⟩⟩ := State.enter_cases hs
    -- there are no threads, so no call goes for the mutex
    · exact absurd h.threads hne
    · refine ⟨h.control, h.threads, h.workers, h.queue, ?_⟩
      rcases hpc with ⟨-, rfl⟩ | ⟨-, rfl⟩
      · exact hset rfl (by simp)
      · exact hset rfl (by simp)
  | push c notified =>
    obtain ⟨task, pc, hc, hl, -⟩ := State.push_cases hs
    rw [(hcall hc).1] at hl
    cases hl
  | wakeCall c =>
    obtain ⟨task, hc, -⟩ := State.wakeCall_cases hs
    exact absurd rfl (hcall hc).2
  | endCall c =>
    obtain ⟨t, -, rfl⟩ := State.endCall_cases hs
    exact ⟨h.control, h.threads, h.workers, h.queue, hset rfl (by simp)⟩
  | test w => exact absurd (State.test_cases hs).1 hnone
  | take w notified =>
    obtain ⟨worker, hw, -⟩ := State.take_cases hs
    exact absurd hw hnone
  | wake w => exact absurd (State.wake_cases hs).1 hnone
  | exec w =>
    rcases State.exec_cases hs with ⟨hw, -⟩ | ⟨t, hw, -⟩
    · exact absurd hw hnone
    · exact absurd hw hnone
  | finish w =>
    obtain ⟨t, hw, -⟩ := State.finish_cases hs
    exact absurd hw hnone

/-! ## Tasks of calls

Where the tasks come from: each one is that of a call of `send`, and these are numbered. -/

/-- Every queued task was brought by a call. -/
def Brought (s : State Nat) : Prop := ∀ task ∈ s.queue_, task ∈ s.calls.map Call.task

/-- Wherever a call gets to, its task is the one that it came with. -/
theorem map_task_set {calls : List (Call Nat)} {c : Nat} {task : Option Nat} {pc : CallPc}
    (hc : calls[c]? = some { task, pc }) (pc' : CallPc) :
    (calls.set c { task, pc := pc' }).map Call.task = calls.map Call.task := by
  rw [List.map_set]
  apply List.ext_getElem?
  intro j
  rw [List.getElem?_set]
  split
  · next hij =>
    subst hij
    rw [List.getElem?_map, hc, if_pos (by simpa using (List.getElem?_eq_some_iff.mp hc).1)]
    rfl
  · rfl

/-- Calls keep their tasks, and only these get into the queue. -/
theorem tasks_step {a : Action Nat} (ha : internal a = true) (hs : s.step m a = some s') :
    s'.calls.map Call.task = s.calls.map Call.task ∧
      ∀ task ∈ s'.queue_, task ∈ s.queue_ ∨ task ∈ s.calls.map Call.task := by
  have hkeep : ∀ task ∈ s.queue_, task ∈ s.queue_ ∨ task ∈ s.calls.map Call.task :=
    fun _ h => Or.inl h
  -- a step changes where a call is, not what it brings
  cases a with
  | start | stop | run => cases ha
  | spawn | pushBack | join =>
    obtain ⟨-, hqueue, hcalls, -⟩ := control_frame rfl rfl hs
    exact ⟨congrArg _ hcalls, hqueue ▸ hkeep⟩
  | enter c =>
    obtain ⟨task, pc, hc, rfl, -⟩ := State.enter_cases hs
    exact ⟨map_task_set hc _, hkeep⟩
  | push c notified =>
    obtain ⟨task, pc, hc, -, ⟨-, rfl⟩ | ⟨-, workers, -, rfl⟩⟩ := State.push_cases hs
    · exact ⟨map_task_set hc _, hkeep⟩
    -- only here does the queue grow, by the task of this call
    · refine ⟨map_task_set hc _, fun x hx => ?_⟩
      rcases List.mem_append.mp hx with hx | hx
      · exact Or.inl hx
      · rw [List.mem_singleton.mp hx]
        exact Or.inr (List.mem_map.mpr ⟨_, List.mem_of_getElem? hc, rfl⟩)
  | wakeCall c =>
    obtain ⟨task, hc, rfl⟩ := State.wakeCall_cases hs
    exact ⟨map_task_set hc _, hkeep⟩
  | endCall c =>
    obtain ⟨t, hc, rfl⟩ := State.endCall_cases hs
    exact ⟨map_task_set hc _, hkeep⟩
  | test w =>
    obtain ⟨-, rfl⟩ := State.test_cases hs
    exact ⟨rfl, hkeep⟩
  | take w notified =>
    obtain ⟨worker, -, -, ⟨-, -, rfl⟩ | ⟨-, -, rfl⟩ | ⟨task, queue_, calls, hq, hcalls, rfl⟩⟩ :=
      State.take_cases hs
    · exact ⟨rfl, hkeep⟩
    · exact ⟨rfl, hkeep⟩
    · refine ⟨?_, fun x hx => Or.inl (hq ▸ List.mem_cons_of_mem _ hx)⟩
      -- a caller who is notified keeps his task
      rcases hcalls with ⟨-, hcalls⟩ | ⟨-, rfl⟩
      · exact map_notifyOne (fun _ _ => rfl) hcalls
      · rfl
  | wake w =>
    obtain ⟨-, rfl⟩ := State.wake_cases hs
    exact ⟨rfl, hkeep⟩
  | exec w =>
    rcases State.exec_cases hs with ⟨-, rfl⟩ | ⟨t, -, rfl⟩
    · exact ⟨rfl, hkeep⟩
    · exact ⟨rfl, hkeep⟩
  | finish w =>
    obtain ⟨t, -, rfl⟩ := State.finish_cases hs
    exact ⟨rfl, hkeep⟩

/-- Between `start` and `stop` nobody touches the flag. -/
theorem running_step {a : Action Nat} (ha : internal a = true) (hs : s.step m a = some s') :
    s'.running_ = s.running_ := by
  cases hctl : a.isControl with
  | false => exact (State.step_frame hctl hs).1
  | true => exact (control_frame ha hctl hs).1

/-- The controlling thread of a pool being stopped: at a join, through with all of them, or stuck at
a thread joined before. The pool is not started again, so it does not leave this. -/
def Stopping (s : State Nat) : Prop :=
  (∃ i, s.control = .joining i) ∨
    s.control = .idle ∧ (∀ thread ∈ s.threads_, thread.joined_ = true) ∨ s.control = .threw

/-- The controlling thread goes from join to join, then out of the loop, or does not come out at
all. -/
theorem Stopping.step (h : Stopping s) (ht : Tracked s) {a : Action Nat} (ha : internal a = true)
    (hs : s.step m a = some s') : Stopping s' := by
  cases hctl : a.isControl with
  | false =>
    obtain ⟨-, hthreads, hcontrol, -⟩ := State.step_frame hctl hs
    unfold Stopping
    rw [hthreads, hcontrol]
    exact h
  | true =>
    cases a with
    | start | stop => cases ha
    | spawn =>
      rcases State.spawn_cases hs with ⟨hc, -⟩ | ⟨turns, hc, -⟩ <;>
        simp [Stopping, hc] at h
    | pushBack =>
      obtain ⟨worker, turns, hc, -⟩ := State.pushBack_cases hs
      simp [Stopping, hc] at h
    | join =>
      obtain ⟨i, hi, ⟨hend, rfl⟩ | ⟨thread, -, ⟨-, rfl⟩ | ⟨-, -, rfl⟩⟩⟩ := State.join_cases hs
      · exact Or.inr (Or.inl ⟨rfl, ht.all_joined hi hend⟩)
      · exact Or.inr (Or.inr rfl)
      · exact Or.inl ⟨i + 1, rfl⟩
    | run | enter | push | wakeCall | endCall | test | take | wake | exec | finish => cases hctl

/-- When the controlling thread is through and every worker has exited, it stays so. -/
theorem exited_pool_step (hidle : s.control = .idle) (hall : ∀ p ∈ s.workers, p = .exited)
    {a : Action Nat} (ha : internal a = true) (hs : s.step m a = some s') :
    s'.control = .idle ∧ ∀ p ∈ s'.workers, p = .exited := by
  obtain ⟨-, -, hcontrol, hlen⟩ := State.step_frame (control_of_idle hidle ha hs) hs
  refine ⟨hcontrol.trans hidle, fun p hp => ?_⟩
  obtain ⟨w, hw⟩ := List.mem_iff_getElem?.mp hp
  have hlt : w < s.workers.length := hlen ▸ (List.getElem?_eq_some_iff.mp hw).1
  have hold : s.workers[w]? = some .exited := by
    rw [List.getElem?_eq_getElem hlt, hall _ (List.getElem_mem hlt)]
  rw [State.exited_step hold hs] at hw
  exact (Option.some.inj hw).symm

end Net.ThreadPool

/-! ## The client

The invariant of a run of the whole client, with the schedule beside it, since the condition is
about one step of the schedule. -/

namespace HttpClient

open Net.ThreadPool (Accounted Brought Call Stopping Tracked Unstarted Worker)

variable {s s' : State}

/-- When the destruction clears `running_`, no more is queued than the workers inside `take` will
pop. They pop what is queued, one task each, and no other worker comes to the queue any more. -/
def EnoughWorkers (s : State) (a : Action) : Prop :=
  a = .stop → s.threadPool_.queue_.length ≤ s.threadPool_.workers.countP Worker.takes

/-- Past the section of `stop`, or past the test that found no pool to stop. -/
def Dtor.stopped : Dtor → Bool
  | .joining | .finished => true
  | _ => false

/-- What a run has led to, with what its schedule decided. Which of the two cases it is, `enough` or
`lost`, is decided at the section of `stop`; until then the condition is met by all runs. -/
structure Ledger (as : List Action) (s : State) : Prop where
  tracked : Tracked s.threadPool_
  accounted : Accounted s.threadPool_
  brought : Brought s.threadPool_
  numbered : s.threadPool_.calls.map Call.task = (List.range s.sent).map some
  returned : s.dtor ≠ .alive → ∀ c ∈ s.threadPool_.calls, c.pc = .returned
  before : s.dtor.stopped = false → client.Meets EnoughWorkers as
  unstarted : s.dtor.stopped = false → s.threadPool_.running_ = false → Unstarted s.threadPool_
  stopped : s.dtor.stopped = true → s.threadPool_.running_ = false
  enough : s.dtor.stopped = true → client.Meets EnoughWorkers as →
    s.threadPool_.queue_.length ≤ s.threadPool_.workers.countP Worker.takes
  lost : s.dtor.stopped = true → ¬ client.Meets EnoughWorkers as →
    s.threadPool_.workers.countP Worker.takes < s.threadPool_.queue_.length
  stopping : s.dtor = .joining → Stopping s.threadPool_
  exited : s.dtor = .finished →
    s.threadPool_.control = .idle ∧ ∀ p ∈ s.threadPool_.workers, p = .exited

/-- In the beginning there is a client with a pool that was never started. -/
theorem ledger_init : Ledger [] client.init where
  tracked := Net.ThreadPool.tracked_init
  accounted _ := rfl
  brought _ h := by cases h
  numbered := rfl
  returned h := absurd rfl h
  before _ := Machine.meets_nil
  unstarted _ _ := ⟨rfl, rfl, rfl, rfl, fun _ h => by cases h⟩
  stopped h := by cases h
  enough h := by cases h
  lost h := by cases h
  stopping h := by cases h
  exited h := by cases h

/-- Only the section of `stop` is a step the condition is about. -/
theorem meets_iff {as : List Action} (hrun : client.run as = some s) {a : Action} (ha : a ≠ .stop) :
    client.Meets EnoughWorkers (as ++ [a]) ↔ client.Meets EnoughWorkers as := by
  rw [Machine.meets_snoc hrun]
  exact and_iff_left fun heq => absurd heq ha

/-! ### Steps of a client

While it is alive, a client starts its pool and brings it tasks. The destructor then waits for the
calls, and comes to the section in which the account is decided. -/

/-- While the client is alive, its pool is started and fed. -/
theorem Ledger.alive {as : List Action} (h : Ledger as s) (hrun : client.run as = some s)
    {a : Action} (ha : a ≠ .stop) (halive : s.dtor = .alive) {b : Net.ThreadPool.Action Nat}
    {threadPool_ : Net.ThreadPool.State Nat} (hs : s.threadPool_.step 0 b = some threadPool_)
    (hbrought : Brought threadPool_)
    (hnumbered : threadPool_.calls.map Call.task = (List.range threadPool_.calls.length).map some)
    (hunstarted : threadPool_.running_ = false → Unstarted threadPool_) :
    Ledger (as ++ [a]) { s with threadPool_ } where
  tracked := h.tracked.step hs
  accounted := h.accounted.step hs
  brought := hbrought
  numbered := hnumbered
  returned hne := absurd halive hne
  before hst := (meets_iff hrun ha).mpr (h.before hst)
  unstarted _ := hunstarted
  stopped hst := by rw [halive] at hst; cases hst
  enough hst := by rw [halive] at hst; cases hst
  lost hst := by rw [halive] at hst; cases hst
  stopping hj := by rw [halive] at hj; cases hj
  exited hf := by rw [halive] at hf; cases hf

/-- The pool is started, so what is said of one that was not does not apply any more. -/
theorem Ledger.initThreadpool {as : List Action} (h : Ledger as s) (hrun : client.run as = some s)
    {n : Nat} (hs : s.initThreadpool n = some s') : Ledger (as ++ [.initThreadpool n]) s' := by
  obtain ⟨halive, threadPool_, hp, rfl⟩ := State.initThreadpool_cases hs
  obtain ⟨-, heq⟩ := Net.ThreadPool.State.start_cases hp
  refine h.alive hrun (by simp) halive hp ?_ ?_ ?_
  · rw [heq]
    exact h.brought
  · rw [heq]
    exact h.numbered
  · rw [heq]
    intro hr
    cases hr

/-- One more call of `run`, and its task has the next number. Where no pool was started, the call is
added to those that run their tasks themselves. -/
theorem Ledger.send {as : List Action} (h : Ledger as s) (hrun : client.run as = some s)
    (hs : s.send = some s') : Ledger (as ++ [.send]) s' := by
  obtain ⟨halive, threadPool_, hp, rfl⟩ := State.send_cases hs
  have heq := Net.ThreadPool.State.run_cases hp
  refine h.alive hrun (by simp) halive hp ?_ ?_ ?_
  · rw [heq]
    intro task htask
    rw [List.map_append]
    exact List.mem_append_left _ (h.brought task htask)
  · rw [heq]
    dsimp only
    rw [List.map_append, h.numbered, List.length_append, List.length_singleton, List.range_succ,
      List.map_append]
    rfl
  · rw [heq]
    intro hr
    have hst : s.dtor.stopped = false := by rw [halive]; rfl
    obtain ⟨hc, ht, hw, hq, hinline⟩ := h.unstarted hst hr
    refine ⟨hc, ht, hw, hq, fun c hmem => ?_⟩
    rcases List.mem_append.mp hmem with hmem | hmem
    · exact hinline c hmem
    · rw [List.mem_singleton.mp hmem]
      exact ⟨rfl, by simp⟩

/-- The pool goes on by itself, before and after it is stopped. -/
theorem Ledger.pool {as : List Action} (h : Ledger as s) (hrun : client.run as = some s)
    {b : Net.ThreadPool.Action Nat} (hs : s.pool b = some s') : Ledger (as ++ [.pool b]) s' := by
  obtain ⟨hb, threadPool_, hp, rfl⟩ := State.pool_cases hs
  obtain ⟨htasks, hqueue⟩ := Net.ThreadPool.tasks_step hb hp
  have hrunning := Net.ThreadPool.running_step hb hp
  have hmeets := meets_iff hrun (a := .pool b) (by simp)
  have hlen : threadPool_.calls.length = s.threadPool_.calls.length := by
    simpa using congrArg List.length htasks
  -- after the stop every call has returned
  have hret : s.dtor.stopped = true → ∀ c ∈ s.threadPool_.calls, c.pc = .returned := by
    intro hst
    refine h.returned ?_
    intro halive
    rw [halive] at hst
    cases hst
  have hfall := fun hst => Net.ThreadPool.takes_step (h.stopped hst) (hret hst) hb hp
  refine ⟨h.tracked.step hp, h.accounted.step hp, ?_, ?_, ?_, fun hst => hmeets.mpr (h.before hst),
    ?_, ?_, ?_, ?_, fun hj => (h.stopping hj).step h.tracked hb hp, ?_⟩
  · intro task htask
    rw [htasks]
    rcases hqueue task htask with hin | hin
    · exact h.brought task hin
    · exact hin
  · show threadPool_.calls.map Call.task = (List.range threadPool_.calls.length).map some
    rw [htasks, hlen]
    exact h.numbered
  · intro hne
    have hcalls := Net.ThreadPool.calls_of_returned (h.returned hne) hb hp
    show ∀ c ∈ threadPool_.calls, c.pc = .returned
    rw [hcalls]
    exact h.returned hne
  · intro hst hr
    exact (h.unstarted hst (hrunning ▸ hr)).step hb hp
  · intro hst
    exact hrunning.trans (h.stopped hst)
  · intro hst hm
    have hle := h.enough hst (hmeets.mp hm)
    rcases hfall hst with hsame | ⟨-, hnil⟩
    · dsimp only
      omega
    · dsimp only
      rw [hnil]
      exact Nat.zero_le _
  · intro hst hm
    have hlt := h.lost hst (fun hm' => hm (hmeets.mpr hm'))
    rcases hfall hst with hsame | ⟨hnil, -⟩
    · dsimp only
      omega
    · rw [hnil] at hlt
      cases hlt
  · intro hf
    obtain ⟨hidle, hall⟩ := h.exited hf
    exact Net.ThreadPool.exited_pool_step hidle hall hb hp

/-- The destructor goes on with the pool untouched. -/
theorem Ledger.move {as : List Action} (h : Ledger as s) (hrun : client.run as = some s)
    {a : Action} (ha : a ≠ .stop) {dtor : Dtor}
    (hret : ∀ c ∈ s.threadPool_.calls, c.pc = .returned) (hold : s.dtor.stopped = false)
    (hnew : dtor.stopped = false) : Ledger (as ++ [a]) { s with dtor } where
  tracked := h.tracked
  accounted := h.accounted
  brought := h.brought
  numbered := h.numbered
  returned _ := hret
  before _ := (meets_iff hrun ha).mpr (h.before hold)
  unstarted _ := h.unstarted hold
  stopped hst := by rw [hnew] at hst; cases hst
  enough hst := by rw [hnew] at hst; cases hst
  lost hst := by rw [hnew] at hst; cases hst
  stopping hj := by rw [show dtor = .joining from hj] at hnew; cases hnew
  exited hf := by rw [show dtor = .finished from hf] at hnew; cases hnew

/-- A pool that runs is stopped next. One that was never started is left alone, and nothing is
queued in it, so the account is closed at once. -/
theorem Ledger.test {as : List Action} (h : Ledger as s) (hrun : client.run as = some s)
    (hs : s.test = some s') : Ledger (as ++ [.test]) s' := by
  obtain ⟨hd, hcases⟩ := State.test_cases hs
  have hold : s.dtor.stopped = false := by rw [hd]; rfl
  have hret := h.returned (by rw [hd]; simp)
  have hmeets := (meets_iff hrun (a := .test) (by simp)).mpr (h.before hold)
  rcases hcases with ⟨-, rfl⟩ | ⟨hr, rfl⟩
  · exact h.move hrun (by simp) hret hold rfl
  · -- a pool that was never started: nothing is queued
    have hun := h.unstarted hold hr
    refine ⟨h.tracked, h.accounted, h.brought, h.numbered, fun _ => hret, fun hst => (by cases hst),
      fun hst => (by cases hst), fun _ => hr, fun _ _ => ?_, fun _ hm => absurd hmeets hm,
      fun hj => (by cases hj), fun _ => ⟨hun.control, fun p hp => ?_⟩⟩
    · dsimp only
      rw [hun.queue]
      exact Nat.zero_le _
    · rw [show s.threadPool_.workers = [] from hun.workers] at hp
      cases hp

/-- The section in which it is decided. Whether enough workers are inside `take` is what the
condition asks of this step, and the two cases of the ledger are its two answers. -/
theorem Ledger.stop {as : List Action} (h : Ledger as s) (hrun : client.run as = some s)
    (hs : s.stop = some s') : Ledger (as ++ [.stop]) s' := by
  obtain ⟨hd, threadPool_, hp, rfl⟩ := State.stop_cases hs
  have hold : s.dtor.stopped = false := by rw [hd]; rfl
  have hret := h.returned (by rw [hd]; simp)
  have htracked := h.tracked.step hp
  have haccounted := h.accounted.step hp
  -- this is the step that the condition is about
  have hmeets : client.Meets EnoughWorkers (as ++ [.stop]) ↔
      s.threadPool_.queue_.length ≤ s.threadPool_.workers.countP Worker.takes := by
    rw [Machine.meets_snoc hrun, and_iff_right (h.before hold)]
    exact ⟨fun hok => hok rfl, fun hle _ => hle⟩
  obtain ⟨-, rfl⟩ := Net.ThreadPool.State.stop_cases hp
  -- who was asleep is woken, and inside `take` as before
  have htakes : (Net.ThreadPool.notEmpty_.notifyAll s.threadPool_.workers).countP Worker.takes =
      s.threadPool_.workers.countP Worker.takes :=
    CondVar.countP_notifyAll Net.ThreadPool.takes_notify
  refine ⟨htracked, haccounted, h.brought, h.numbered, fun _ => hret, fun hst => (by cases hst),
    fun hst => (by cases hst), fun _ => rfl, fun _ hm => ?_, fun _ hm => ?_,
    fun _ => Or.inl ⟨0, rfl⟩, fun hf => (by cases hf)⟩
  · dsimp only
    rw [htakes]
    exact hmeets.mp hm
  · dsimp only
    rw [htakes]
    exact Nat.lt_of_not_le fun hle => hm (hmeets.mpr hle)

/-- The loop of joins has come to its end, so every worker has left. -/
theorem Ledger.joined {as : List Action} (h : Ledger as s) (hrun : client.run as = some s)
    (hs : s.joined = some s') : Ledger (as ++ [.joined]) s' := by
  obtain ⟨hd, hidle, rfl⟩ := State.joined_cases hs
  have hold : s.dtor.stopped = true := by rw [hd]; rfl
  have hret := h.returned (by rw [hd]; simp)
  have hmeets := meets_iff hrun (a := .joined) (by simp)
  have hjoined : ∀ thread ∈ s.threadPool_.threads_, thread.joined_ = true := by
    rcases h.stopping hd with ⟨i, hi⟩ | ⟨-, hall⟩ | hthrew
    · rw [hidle] at hi
      cases hi
    · exact hall
    · rw [hidle] at hthrew
      cases hthrew
  refine ⟨h.tracked, h.accounted, h.brought, h.numbered, fun _ => hret, fun hst => (by cases hst),
    fun hst => (by cases hst), fun _ => h.stopped hold, fun _ hm => h.enough hold (hmeets.mp hm),
    fun _ hm => h.lost hold fun hm' => hm (hmeets.mpr hm'), fun hj => (by cases hj),
    fun _ => ⟨hidle, h.tracked.exited_of_joined (by simp [hidle]) hjoined⟩⟩

/-- A step of the client, by what it does. -/
theorem Ledger.step {as : List Action} (h : Ledger as s) (hrun : client.run as = some s)
    {a : Action} (hs : s.step a = some s') : Ledger (as ++ [a]) s' := by
  cases a with
  | initThreadpool n => exact h.initThreadpool hrun hs
  | send => exact h.send hrun hs
  | pool b => exact h.pool hrun hs
  | destroy =>
    obtain ⟨hd, -, hret, rfl⟩ := State.destroy_cases hs
    exact h.move hrun (by simp) hret (by rw [hd]; rfl) rfl
  | cleanup =>
    obtain ⟨hd, rfl⟩ := State.cleanup_cases hs
    exact h.move hrun (by simp) (h.returned (by rw [hd]; simp)) (by rw [hd]; rfl) rfl
  | test => exact h.test hrun hs
  | stop => exact h.stop hrun hs
  | joined => exact h.joined hrun hs

/-- What has been decided on the way is in the account, whatever the schedule. -/
theorem ledger_of_run {as : List Action} (h : client.run as = some s) : Ledger as s :=
  Machine.run_induction (P := Ledger) ledger_init
    (fun _ _ _ _ hrun hl hs => hl.step hrun hs) h

/-! ## After the destruction

All workers have left and no call is under way. So a request has been answered, or its task is in a
queue that nobody will look at again. -/

/-- Every request was answered exactly once. -/
def AllAnswered (s : State) : Prop := ∀ id < s.sent, s.answered.count id = 1

/-- Request `id` was brought by one call. -/
theorem Ledger.brings_one {as : List Action} (h : Ledger as s) {id : Nat} (hid : id < s.sent) :
    s.threadPool_.calls.countP (Call.brings id) = 1 := by
  have hcount : (s.threadPool_.calls.map Call.task).count (some id) = 1 := by
    rw [h.numbered, List.count_map_of_injective _ _ fun _ _ => Option.some.inj, List.count_range,
      if_pos hid]
  rw [List.count, List.countP_map] at hcount
  rw [← hcount]
  apply List.countP_congr
  intro c _
  simp [Call.brings]

/-- After the destruction a request is answered or still queued. -/
theorem Ledger.answered_or_queued {as : List Action} (h : Ledger as s) (hfin : s.dtor = .finished)
    {id : Nat} (hid : id < s.sent) :
    s.answered.count id + s.threadPool_.queue_.count (some id) = 1 := by
  have haccount := h.accounted id
  have hworkers : s.threadPool_.workers.countP (Worker.carries id) = 0 := by
    rw [List.countP_eq_zero]
    intro p hp
    rw [(h.exited hfin).2 p hp]
    simp [Worker.carries]
  have hcalls : s.threadPool_.calls.countP (Call.pending id) = 0 := by
    rw [List.countP_eq_zero]
    intro c hc
    have hret : c.pc = .returned := h.returned (by rw [hfin]; simp) c hc
    simp [Call.pending, hret, Net.ThreadPool.CallPc.open]
  rw [h.brings_one hid, hworkers, hcalls] at haccount
  unfold State.answered
  omega

/-- After the destruction nobody is inside `take`. -/
theorem Ledger.takes_zero {as : List Action} (h : Ledger as s) (hfin : s.dtor = .finished) :
    s.threadPool_.workers.countP Worker.takes = 0 := by
  rw [List.countP_eq_zero]
  intro p hp
  rw [(h.exited hfin).2 p hp]
  simp [Worker.takes]

/-- **Answered exactly if the workers inside `take` suffice.** When the destruction of a client
has finished, every request sent was answered exactly once if, and only if, no more requests were
queued when `stop` cleared `running_` than workers were inside `take`. -/
theorem all_answered_iff (as : List Action) (s : State) (hrun : client.run as = some s)
    (hfin : s.dtor = .finished) : AllAnswered s ↔ client.Meets EnoughWorkers as := by
  have h := ledger_of_run hrun
  have hst : s.dtor.stopped = true := by rw [hfin]; rfl
  constructor
  · intro hall
    by_contra hm
    have hlt := h.lost hst hm
    obtain ⟨task, htask⟩ := List.exists_mem_of_length_pos (Nat.zero_lt_of_lt hlt)
    have hbrought := h.brought task htask
    rw [h.numbered, List.mem_map] at hbrought
    obtain ⟨id, hid, rfl⟩ := hbrought
    have hid' : id < s.sent := List.mem_range.mp hid
    have hone := h.answered_or_queued hfin hid'
    have hqueued := List.count_pos_iff.mpr htask
    have hanswered := hall id hid'
    omega
  · intro hm id hid
    have hle := h.enough hst hm
    rw [h.takes_zero hfin, Nat.le_zero, List.length_eq_zero_iff] at hle
    have hone := h.answered_or_queued hfin hid
    rw [hle] at hone
    simpa using hone

/-- One worker, one request, and a destruction that overtakes the worker. -/
def overtaken : List Action :=
  [.initThreadpool 1, .pool .spawn, .pool .pushBack, .pool .spawn, .send, .pool (.enter 0),
    .pool (.push 0 none), .destroy, .cleanup, .test, .stop, .pool (.test 0), .pool .join,
    .pool .join, .joined]

theorem overtaken_lost :
    ∃ s, client.run overtaken = some s ∧ s.dtor = .finished ∧ s.sent = 1 ∧ s.answered = [] ∧
      ¬ AllAnswered s := by
  obtain ⟨s, hs⟩ := Option.isSome_iff_exists.mp
    (show (client.run overtaken).isSome = true by decide)
  have hend : (client.run overtaken).map (fun s => (s.dtor, s.sent, s.answered))
      = some (.finished, 1, []) := by decide
  rw [hs, Option.map_some, Option.some.injEq, Prod.mk.injEq, Prod.mk.injEq] at hend
  obtain ⟨hfin, hsent, hans⟩ := hend
  refine ⟨s, hs, hfin, hsent, hans, fun hall => ?_⟩
  have hone := hall 0 (by omega)
  rw [hans] at hone
  cases hone

/-- The same request, with the worker inside `take` in time. -/
def inTime : List Action :=
  [.initThreadpool 1, .pool .spawn, .pool .pushBack, .pool .spawn, .pool (.test 0), .send,
    .pool (.enter 0), .pool (.push 0 none), .destroy, .cleanup, .test, .stop,
    .pool (.take 0 none), .pool (.exec 0), .pool (.finish 0), .pool (.test 0), .pool .join,
    .pool .join, .joined]

theorem all_answered_iff_inTime :
    ∃ s, client.run inTime = some s ∧ s.dtor = .finished ∧ AllAnswered s ∧
      client.Meets EnoughWorkers inTime := by
  obtain ⟨s, hs⟩ := Option.isSome_iff_exists.mp (show (client.run inTime).isSome = true by decide)
  have hend : (client.run inTime).map (fun s => (s.dtor, s.sent, s.answered))
      = some (.finished, 1, [0]) := by decide
  rw [hs, Option.map_some, Option.some.injEq, Prod.mk.injEq, Prod.mk.injEq] at hend
  obtain ⟨hfin, hsent, hans⟩ := hend
  have hall : AllAnswered s := by
    intro id hid
    rw [hsent] at hid
    obtain rfl : id = 0 := by omega
    rw [hans]
    rfl
  exact ⟨s, hs, hfin, hall, (all_answered_iff inTime s hs hfin).mp hall⟩

end HttpClient

end CppDone
