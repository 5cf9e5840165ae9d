import CppDone.HttpClient.ThreadPool

/-!
# The tasks of `net::ThreadPool`

Where every task is. The queue is a FIFO between the sections of `run` and of `take`, and what a
worker popped it either has begun or is about to begin: between the two stands only the test of
the task itself, which `running_` has no part in.
-/

set_option autoImplicit false

namespace CppDone.Net.ThreadPool

open CondVar

variable {T : Type} {m : Nat} {s s' : State T}

/-- The non-empty tasks a worker popped, in pop order. -/
def State.poppedBy (s : State T) (w : Nat) : List T :=
  (s.popped.filter (·.1 = w)).filterMap Prod.snd

/-- The tasks a worker began, in order. -/
def State.executedBy (s : State T) (w : Nat) : List T :=
  (s.executed.filter (·.1 = w)).map Prod.snd

/-- The non-empty task a worker has popped and not begun. -/
def State.heldBy (s : State T) (w : Nat) : Option T := s.workers[w]?.bind Worker.held

/-- Where the tasks are. The order is that of the pushes, whoever made them; each worker begins what
it pops, in the order of its pops. -/
structure Kept (m : Nat) (s : State T) : Prop where
  order : s.popped.map Prod.snd ++ s.queue_ = s.pushed
  bound : m > 0 → s.queue_.length ≤ m
  begun : ∀ w, s.poppedBy w = s.executedBy w ++ (s.heldBy w).toList

theorem kept_init : Kept m (State.init : State T) where
  order := rfl
  bound _ := Nat.zero_le m
  begun _ := rfl

theorem held_of_locks {worker : Worker T} (h : worker.locks = true) : worker.held = none := by
  cases worker with
  | lock | woken => rfl
  | _ => cases h

theorem held_notify (p : Worker T) (h : notEmpty_.waiting p = true) :
    (notEmpty_.notify p).held = p.held := by
  cases p with
  | waiting => rfl
  | _ => cases h

/-- A worker moves on with what it held. -/
theorem heldBy_set {workers : List (Worker T)} {w : Nat} {p p' : Worker T}
    (hw : workers[w]? = some p) (hp : p'.held = p.held) (w' : Nat) :
    ((workers.set w p')[w']?).bind Worker.held = workers[w']?.bind Worker.held := by
  rw [List.getElem?_set]
  split
  · next heq =>
    subst heq
    have hlt := (List.getElem?_eq_some_iff.mp hw).1
    rw [if_pos hlt, hw]
    exact hp
  · rfl

/-- A reading of workers that agree on what they hold. -/
theorem heldBy_congr {workers workers' : List (Worker T)}
    (h : workers'.map Worker.held = workers.map Worker.held) (w : Nat) :
    workers'[w]?.bind Worker.held = workers[w]?.bind Worker.held := by
  have hget := congrArg (fun l => l[w]?) h
  simp only [List.getElem?_map] at hget
  cases hw : workers[w]? with
  | none =>
    rw [hw] at hget
    rw [Option.map_eq_none_iff.mp hget]
  | some p =>
    rw [hw] at hget
    obtain ⟨p', hp', hheld⟩ := Option.map_eq_some_iff.mp hget
    rw [hp']
    exact hheld

/-! ### Steps

The way of a task from the call to the worker that begins it. Each step of the way moves it from the
front of one list to the end of the next. -/

/-- A step that moves no task. -/
theorem Kept.frame (h : Kept m s) (hq : s'.queue_ = s.queue_) (hpush : s'.pushed = s.pushed)
    (hpop : s'.popped = s.popped) (hexec : s'.executed = s.executed)
    (hheld : ∀ w, s'.heldBy w = s.heldBy w) : Kept m s' where
  order := by rw [hpop, hq, hpush, h.order]
  bound hm := by rw [hq]; exact h.bound hm
  begun w := by
    rw [State.poppedBy, State.executedBy, hpop, hexec, hheld w]
    exact h.begun w

/-- A task goes to the end of the queue and to the end of the record of pushes. -/
theorem Kept.push (h : Kept m s) {c : Nat} {notified : Option Nat}
    (hs : s.push m c notified = some s') : Kept m s' := by
  obtain ⟨task, pc, -, -, ⟨-, rfl⟩ | ⟨hf, workers, hw, rfl⟩⟩ := State.push_cases hs
  · exact h.frame rfl rfl rfl rfl fun _ => rfl
  · refine ⟨?_, fun hm => ?_, fun w => ?_⟩
    · show s.popped.map Prod.snd ++ (s.queue_ ++ [task]) = s.pushed ++ [task]
      rw [← List.append_assoc, h.order]
    · show (s.queue_ ++ [task]).length ≤ m
      simp only [isFull, Bool.and_eq_false_iff, decide_eq_false_iff_not] at hf
      rw [List.length_append, List.length_singleton]
      omega
    · have hheld := heldBy_congr (map_notifyOne held_notify hw) w
      show s.poppedBy w = s.executedBy w ++ (workers[w]?.bind Worker.held).toList
      rw [hheld]
      exact h.begun w

/-- A task goes from the front of the queue into the hands of the worker, who had none. -/
theorem Kept.take (h : Kept m s) {w : Nat} {notified : Option Nat}
    (hs : s.take m w notified = some s') : Kept m s' := by
  obtain ⟨worker, hw, hl, ⟨-, -, rfl⟩ | ⟨-, -, rfl⟩ | ⟨task, queue_, calls, hq, -, rfl⟩⟩ :=
    State.take_cases hs
  · exact h.frame rfl rfl rfl rfl (heldBy_set hw (held_of_locks hl).symm)
  · exact h.frame rfl rfl rfl rfl (heldBy_set hw (held_of_locks hl).symm)
  · refine ⟨?_, fun hm => ?_, fun w' => ?_⟩
    · show (s.popped ++ [(w, task)]).map Prod.snd ++ queue_ = s.pushed
      rw [← h.order, hq]
      simp
    · have hb := h.bound hm
      rw [hq, List.length_cons] at hb
      exact Nat.le_of_succ_le hb
    · have hb := h.begun w'
      have hlt := (List.getElem?_eq_some_iff.mp hw).1
      unfold State.poppedBy State.executedBy State.heldBy at hb ⊢
      rw [List.filter_append, List.filterMap_append, hb, List.append_assoc]
      by_cases heq : w = w'
      · -- the popping worker had nothing in hand
        subst heq
        rw [hw, Option.bind_some, held_of_locks hl]
        cases task <;> simp [hlt, Worker.held]
      · simp [heq, List.getElem?_set_ne heq]

/-- What the worker held it has begun, unless it was the empty task. -/
theorem Kept.exec (h : Kept m s) {w : Nat} (hs : s.exec w = some s') : Kept m s' := by
  rcases State.exec_cases hs with ⟨hw, rfl⟩ | ⟨t, hw, rfl⟩
  · exact h.frame rfl rfl rfl rfl (heldBy_set hw rfl)
  · refine ⟨h.order, h.bound, fun w' => ?_⟩
    have hb := h.begun w'
    have hlt := (List.getElem?_eq_some_iff.mp hw).1
    unfold State.poppedBy State.executedBy State.heldBy at hb ⊢
    rw [List.filter_append, List.map_append, hb, List.append_assoc]
    by_cases heq : w = w'
    · subst heq
      rw [hw, Option.bind_some]
      simp [hlt, Worker.held]
    · simp [heq, List.getElem?_set_ne heq]

/-- The other steps move no task. -/
theorem Kept.step (h : Kept m s) {a : Action T} (hs : s.step m a = some s') : Kept m s' := by
  cases a with
  | start n =>
    obtain ⟨-, rfl⟩ := State.start_cases hs
    exact h.frame rfl rfl rfl rfl fun _ => rfl
  | spawn =>
    rcases State.spawn_cases hs with ⟨-, rfl⟩ | ⟨turns, -, rfl⟩
    · exact h.frame rfl rfl rfl rfl fun _ => rfl
    · refine h.frame rfl rfl rfl rfl fun w => ?_
      show ((s.workers ++ [.test])[w]?).bind Worker.held = s.workers[w]?.bind Worker.held
      rw [List.getElem?_append]
      split
      · rfl
      · next hlt =>
        rw [List.getElem?_eq_none (Nat.le_of_not_lt hlt), List.getElem?_singleton]
        split <;> rfl
  | pushBack =>
    obtain ⟨worker, turns, -, rfl⟩ := State.pushBack_cases hs
    exact h.frame rfl rfl rfl rfl fun _ => rfl
  | stop =>
    obtain ⟨-, rfl⟩ := State.stop_cases hs
    exact h.frame rfl rfl rfl rfl (heldBy_congr (map_notifyAll held_notify))
  | join =>
    obtain ⟨i, -, ⟨-, rfl⟩ | ⟨thread, -, ⟨-, rfl⟩ | ⟨-, -, rfl⟩⟩⟩ := State.join_cases hs
    · exact h.frame rfl rfl rfl rfl fun _ => rfl
    · exact h.frame rfl rfl rfl rfl fun _ => rfl
    · exact h.frame rfl rfl rfl rfl fun _ => rfl
  | run task =>
    obtain rfl := State.run_cases hs
    exact h.frame rfl rfl rfl rfl fun _ => rfl
  | enter c =>
    obtain ⟨task, pc, -, rfl, -⟩ := State.enter_cases hs
    exact h.frame rfl rfl rfl rfl fun _ => rfl
  | push c notified => exact h.push hs
  | wakeCall c =>
    obtain ⟨task, -, rfl⟩ := State.wakeCall_cases hs
    exact h.frame rfl rfl rfl rfl fun _ => rfl
  | endCall c =>
    obtain ⟨t, -, rfl⟩ := State.endCall_cases hs
    exact h.frame rfl rfl rfl rfl fun _ => rfl
  | test w =>
    obtain ⟨hw, rfl⟩ := State.test_cases hs
    refine h.frame rfl rfl rfl rfl (heldBy_set hw ?_)
    split <;> rfl
  | take w notified => exact h.take hs
  | wake w =>
    obtain ⟨hw, rfl⟩ := State.wake_cases hs
    exact h.frame rfl rfl rfl rfl (heldBy_set hw rfl)
  | exec w => exact h.exec hs
  | finish w =>
    obtain ⟨t, hw, rfl⟩ := State.finish_cases hs
    exact h.frame rfl rfl rfl rfl (heldBy_set hw rfl)

theorem kept_inductive : (pool T m).Inductive (Kept m) where
  init := kept_init
  step h hs := h.step hs

/-! ## A popped task is executed

Between the pop and the beginning of the task there is no test of `running_`, so a stop in between
comes too late for it. -/

/-- The worker can always begin the task it holds, whatever `running_` says. -/
theorem exec_took {w : Nat} {t : T} (hw : s.workers[w]? = some (.took (some t))) :
    ∃ s', s.step m (.exec w) = some s' ∧ s'.executed = s.executed ++ [(w, t)] := by
  refine ⟨{ s with workers := s.workers.set w (.running t),
                   executed := s.executed ++ [(w, t)] }, ?_, rfl⟩
  show s.exec w = _
  unfold State.exec
  rw [hw]

/-- And nothing else takes it out of the worker's hands. -/
theorem took_until_exec {w : Nat} {t : T} (hw : s.workers[w]? = some (.took (some t)))
    {a : Action T} (ha : a ≠ .exec w) (hs : s.step m a = some s') :
    s'.workers[w]? = some (.took (some t)) := by
  refine State.step_other hw rfl ?_ hs
  intro hworker
  exact ha ((State.step_worker hw hworker hs).2 _ rfl)

/-- **No task is lost, duplicated or reordered.** In every reachable state: the popped tasks in
pop order, then the queue, are the pushed tasks in push order; what a worker popped and is no
empty task it has begun, in that order and once each, except for one task it holds; that one it
can begin at once, and no other step of anybody takes it away; and a bounded queue keeps its
bound. -/
theorem tasks_kept (m : Nat) (s : State T) (h : (pool T m).Reachable s) :
    s.popped.map Prod.snd ++ s.queue_ = s.pushed ∧
    (∀ w, s.poppedBy w = s.executedBy w ++ (s.heldBy w).toList) ∧
    (∀ w t, s.workers[w]? = some (.took (some t)) →
      (∃ s', s.step m (.exec w) = some s' ∧ s'.executed = s.executed ++ [(w, t)]) ∧
      ∀ a s', a ≠ .exec w → s.step m a = some s' → s'.workers[w]? = some (.took (some t))) ∧
    (m > 0 → s.queue_.length ≤ m) := by
  have hkept := h.inv kept_inductive
  refine ⟨hkept.order, hkept.begun, fun w t hw => ⟨exec_took hw, ?_⟩, hkept.bound⟩
  intro a s' ha hs
  exact took_until_exec hw ha hs

/-- A worker that popped its task just before `stop`. -/
def stoppedHolding : State Nat where
  running_ := false
  threads_ := [{ worker := 0, joined_ := false }]
  queue_ := []
  workers := [.took (some 7)]
  calls := [{ task := some 7, pc := .returned }]
  control := .joining 0
  pushed := [some 7]
  popped := [(0, some 7)]
  executed := []
  finished := []

theorem tasks_kept_stoppedHolding :
    (pool Nat 1).run [.start 1, .spawn, .pushBack, .spawn, .run (some 7), .enter 0, .push 0 none,
        .test 0, .take 0 none, .stop] = some stoppedHolding ∧
      stoppedHolding.poppedBy 0 = stoppedHolding.executedBy 0 ++ (stoppedHolding.heldBy 0).toList ∧
      (∃ s', stoppedHolding.step 1 (.exec 0) = some s' ∧ s'.executed = [(0, 7)]) ∧
      stoppedHolding.queue_.length ≤ 1 := by
  have hrun : (pool Nat 1).run [.start 1, .spawn, .pushBack, .spawn, .run (some 7), .enter 0,
      .push 0 none, .test 0, .take 0 none, .stop] = some stoppedHolding := by decide
  obtain ⟨-, hbegun, hheld, hbound⟩ := tasks_kept 1 stoppedHolding ⟨_, hrun⟩
  exact ⟨hrun, hbegun 0, (hheld 0 7 rfl).1, hbound (by decide)⟩

/-! ## Every task has a place

Counted, because two calls of `run` may bring the same task: the tasks that ended, those a worker
has in hand, the queued ones and those of calls still under way are the tasks of all calls. -/

section Account

variable [DecidableEq T]

/-- The worker holds or runs `t`. -/
def Worker.carries (t : T) : Worker T → Bool
  | .took (some u) | .running u => u = t
  | _ => false

/-- The call has neither returned nor thrown. -/
def CallPc.open : CallPc → Bool
  | .returned | .threw => false
  | _ => true

def Call.brings (t : T) (c : Call T) : Bool := c.task = some t

def Call.pending (t : T) (c : Call T) : Bool := c.brings t && c.pc.open

@[simp] theorem Call.brings_mk (t : T) (task : Option T) (pc : CallPc) :
    Call.brings t { task, pc } = decide (task = some t) := rfl

@[simp] theorem Call.pending_mk (t : T) (task : Option T) (pc : CallPc) :
    Call.pending t { task, pc } = (decide (task = some t) && pc.open) := rfl

/-- Every task that was brought in is in one place for each time it was brought: at an end of its
way, in the hands of a worker, in the queue, or still with the call. -/
def Accounted (s : State T) : Prop :=
  ∀ t, s.finished.count t + s.workers.countP (Worker.carries t) + s.queue_.count (some t) +
    s.calls.countP (Call.pending t) = s.calls.countP (Call.brings t)

theorem carries_notify (t : T) (p : Worker T) (h : notEmpty_.waiting p = true) :
    (notEmpty_.notify p).carries t = p.carries t := by
  cases p with
  | waiting => rfl
  | _ => cases h

theorem carries_of_locks (t : T) {p : Worker T} (h : p.locks = true) : p.carries t = false := by
  cases p with
  | lock | woken => rfl
  | _ => cases h

theorem pending_notify (t : T) (c : Call T) (h : notFull_.waiting c = true) :
    (notFull_.notify c).pending t = c.pending t := by
  obtain ⟨task, pc⟩ := c
  cases pc with
  | waiting => rfl
  | _ => cases h

theorem CallPc.open_of_locks {pc : CallPc} (h : pc.locks = true) : pc.open = true := by
  cases pc with
  | lock | woken => rfl
  | _ => cases h

/-! ### Steps

A task that changes hands lowers one summand and raises another. The steps that only move a worker
or a call need to know that it carries the same before and after. -/

/-- A worker moves on with what it carried. -/
theorem Accounted.moveWorker (h : Accounted s) {w : Nat} {p p' : Worker T}
    (hw : s.workers[w]? = some p) (hp : ∀ t, p'.carries t = p.carries t) :
    Accounted { s with workers := s.workers.set w p' } := by
  intro t
  have hcount := countP_set_add (p := Worker.carries t) hw p'
  have ht := h t
  rw [hp t] at hcount
  dsimp only
  omega

/-- A call moves on without ending. -/
theorem Accounted.moveCall (h : Accounted s) {c : Nat} {task : Option T} {pc pc' : CallPc}
    (hc : s.calls[c]? = some { task, pc }) (hpc : ∀ t, task = some t → pc'.open = pc.open) :
    Accounted { s with calls := s.calls.set c { task, pc := pc' } } := by
  intro t
  have ht := h t
  have hbrings := countP_set_add (p := Call.brings t) hc { task, pc := pc' }
  have hpending := countP_set_add (p := Call.pending t) hc { task, pc := pc' }
  have hsame : Call.pending t { task, pc := pc' } = Call.pending t { task, pc } := by
    by_cases htask : task = some t
    · simp [hpc t htask]
    · simp [htask]
  rw [Call.brings_mk, Call.brings_mk] at hbrings
  rw [hsame] at hpending
  dsimp only
  omega

/-- The call's task is in the queue now, and was pending before. -/
theorem Accounted.push (h : Accounted s) {c : Nat} {notified : Option Nat}
    (hs : s.push m c notified = some s') : Accounted s' := by
  obtain ⟨task, pc, hc, hl, ⟨-, rfl⟩ | ⟨-, workers, hw, rfl⟩⟩ := State.push_cases hs
  · exact h.moveCall hc fun t _ => (CallPc.open_of_locks hl).symm
  · intro t
    have ht := h t
    have hcarries := countP_notifyOne (carries_notify t) hw
    have hbrings := countP_set_add (p := Call.brings t) hc { task, pc := .returned }
    have hpending := countP_set_add (p := Call.pending t) hc { task, pc := .returned }
    have hopen : CallPc.open .returned = false := rfl
    rw [Call.brings_mk, Call.brings_mk] at hbrings
    rw [Call.pending_mk, Call.pending_mk, CallPc.open_of_locks hl, hopen] at hpending
    dsimp only
    rw [hcarries, List.count_append, List.count_singleton]
    by_cases htask : task = some t
    · simp [htask] at hbrings hpending ⊢
      omega
    · simp [htask] at hbrings hpending ⊢
      omega

/-- From the queue into the worker's hands: the sum stays. -/
theorem Accounted.take (h : Accounted s) {w : Nat} {notified : Option Nat}
    (hs : s.take m w notified = some s') : Accounted s' := by
  obtain ⟨worker, hw, hl, ⟨-, -, rfl⟩ | ⟨-, -, rfl⟩ | ⟨task, queue_, calls, hq, hcalls, rfl⟩⟩ :=
    State.take_cases hs
  · exact h.moveWorker hw fun t => (carries_of_locks t hl).symm
  · exact h.moveWorker hw fun t => (carries_of_locks t hl).symm
  -- a pop takes the task out of the queue into the hands of the worker
  · intro t
    have ht := h t
    have hcarries := countP_set_add (p := Worker.carries t) hw (.took task)
    have hpending : calls.countP (Call.pending t) = s.calls.countP (Call.pending t) := by
      rcases hcalls with ⟨-, hcalls⟩ | ⟨-, rfl⟩
      · exact countP_notifyOne (pending_notify t) hcalls
      · rfl
    have hbrings : calls.countP (Call.brings t) = s.calls.countP (Call.brings t) := by
      rcases hcalls with ⟨-, hcalls⟩ | ⟨-, rfl⟩
      · exact countP_notifyOne (fun _ _ => rfl) hcalls
      · rfl
    -- a worker that takes the mutex has nothing in its hands yet
    rw [carries_of_locks t hl] at hcarries
    rw [hq, List.count_cons] at ht
    dsimp only
    rw [hpending, hbrings]
    cases task with
    -- an empty function is popped as well, and counts for no task
    | none =>
      simp [Worker.carries] at hcarries ht
      omega
    | some u =>
      simp [Worker.carries] at hcarries ht
      omega

/-- Each step moves one unit between two of the summands, or none; a new call brings one to both
sides. -/
theorem Accounted.step (h : Accounted s) {a : Action T} (hs : s.step m a = some s') :
    Accounted s' := by
  -- a task changes its place in `run`, `enter`, `push`, `take` and at its end, and nowhere else
  cases a with
  | start n =>
    obtain ⟨-, rfl⟩ := State.start_cases hs
    exact h
  -- a new worker has nothing in its hands
  | spawn =>
    rcases State.spawn_cases hs with ⟨-, rfl⟩ | ⟨turns, -, rfl⟩
    · exact h
    · intro t
      have ht := h t
      dsimp only
      rw [List.countP_append]
      exact ht
  | pushBack =>
    obtain ⟨worker, turns, -, rfl⟩ := State.pushBack_cases hs
    exact h
  | stop =>
    obtain ⟨-, rfl⟩ := State.stop_cases hs
    intro t
    dsimp only
    -- to be notified changes no hands
    rw [countP_notifyAll (carries_notify t)]
    exact h t
  | join =>
    obtain ⟨i, -, ⟨-, rfl⟩ | ⟨thread, -, ⟨-, rfl⟩ | ⟨-, -, rfl⟩⟩⟩ := State.join_cases hs
    · exact h
    · exact h
    · exact h
  | run task =>
    obtain rfl := State.run_cases hs
    intro t
    have ht := h t
    -- a call that comes in has its task before it
    have hsame : Call.pending t { task, pc := .entered } = Call.brings t { task, pc := .entered } :=
      Bool.and_true _
    dsimp only
    rw [List.countP_append, List.countP_append, List.countP_singleton, List.countP_singleton, hsame]
    omega
  | enter c =>
    obtain ⟨task, pc, hc, rfl, hpc⟩ := State.enter_cases hs
    refine h.moveCall hc fun t ht => ?_
    -- an empty function is not run in place: its call returns with nothing done
    rcases hpc with ⟨-, rfl⟩ | ⟨-, ⟨-, rfl⟩ | ⟨hnone, rfl⟩⟩
    · rfl
    · rfl
    · rw [hnone] at ht
      cases ht
  | push c notified => exact h.push hs
  | wakeCall c =>
    obtain ⟨task, hc, rfl⟩ := State.wakeCall_cases hs
    exact h.moveCall hc fun _ _ => rfl
  | endCall c =>
    obtain ⟨u, hc, rfl⟩ := State.endCall_cases hs
    intro t
    have ht := h t
    have hbrings := countP_set_add (p := Call.brings t) hc { task := some u, pc := .returned }
    have hpending := countP_set_add (p := Call.pending t) hc { task := some u, pc := .returned }
    have hopen : CallPc.open .running = true ∧ CallPc.open .returned = false := ⟨rfl, rfl⟩
    rw [Call.brings_mk, Call.brings_mk] at hbrings
    rw [Call.pending_mk, Call.pending_mk, hopen.1, hopen.2] at hpending
    dsimp only
    rw [List.count_append, List.count_singleton]
    -- run in place: out of the call, into what is finished
    by_cases hu : u = t
    · simp [hu] at hbrings hpending ⊢
      omega
    · simp [hu] at hbrings hpending ⊢
      omega
  | test w =>
    obtain ⟨hw, rfl⟩ := State.test_cases hs
    refine h.moveWorker hw fun t => ?_
    split <;> rfl
  | take w notified => exact h.take hs
  | wake w =>
    obtain ⟨hw, rfl⟩ := State.wake_cases hs
    exact h.moveWorker hw fun _ => rfl
  | exec w =>
    rcases State.exec_cases hs with ⟨hw, rfl⟩ | ⟨u, hw, rfl⟩
    · exact h.moveWorker hw fun _ => rfl
    · exact h.moveWorker hw fun _ => rfl
  | finish w =>
    obtain ⟨u, hw, rfl⟩ := State.finish_cases hs
    intro t
    have ht := h t
    -- run by a worker: out of its hands, into what is finished
    have hcarries := countP_set_add (p := Worker.carries t) hw .test
    simp only [Worker.carries] at hcarries
    dsimp only
    rw [List.count_append, List.count_singleton]
    by_cases hu : u = t
    · simp [hu] at hcarries ⊢
      omega
    · simp [hu] at hcarries ⊢
      omega

end Account

end CppDone.Net.ThreadPool
