import CppDone.HttpClient.PoolDrains

/-!
# Producers and `stop`

`stop` wakes the workers only, and a producer that sleeps on `notFull_` is woken by a pop. Once
`running_` is false few pops are still to come: a worker inside `take` pops once more if there is a
task for it, and no other worker goes in. So whether a producer is left asleep is a matter of
counting (`State.fits`): the calls of `run` on their way to the queue must all find a place among
those that are free and those that these pops set free. A call made behind `stop` counts as well.

Where the count is exceeded, a schedule strands a producer: the workers go first and leave, with
no pop beyond those counted; the callers then fill the queue, and one of them finds it full.

A second `stop` fails in its first `join`, since the threads of the first one stay in `threads_`;
what holds when a `stop` has returned is therefore a matter of the first one only.
-/

set_option autoImplicit false

namespace CppDone.Net.ThreadPool

open CondVar

variable {T : Type} {m : Nat} {s s' : State T}

/-- No worker is left. From then on nothing is popped, and nobody is notified of a place. -/
def State.deserted (s : State T) : Prop := ∀ p ∈ s.workers, p = .exited

/-- No call of `run` is asleep in `notFull_.wait`. A call that was notified and has not gone on yet
is not asleep. -/
def State.unblocked (s : State T) : Prop := ∀ c ∈ s.calls, notFull_.waiting c = false

/-- The loop of joins comes to a thread that is joined already, and throws. -/
def State.throws (s : State T) : Bool :=
  match s.control with
  | .threw => true
  | .joining i => (s.threads_.drop i).any Thread.joined_
  | _ => false

/-! ## The count

What comes and what there is room for. `coming` are the calls that will still want a place in the
queue; `pops` are the tasks that the workers will still take out of it. Both are read off the state,
without a look at what the schedule will be. -/

/-- The call is on its way to the queue. It has not looked whether there is a place, or has found
none and waits for one. -/
def Call.coming (c : Call T) : Bool :=
  match c.pc with
  | .entered | .lock | .waiting | .woken _ => true
  | _ => false

def State.coming (s : State T) : Nat := s.calls.countP Call.coming

/-- What the workers inside `take` pop of what is queued, when `running_` is false: a task each. -/
def State.pops (s : State T) : Nat := min s.queue_.length (s.workers.countP Worker.takes)

/-- So many more calls of `run` find a place, with those on their way. The places that are free, and
those that come free by the pops, against the calls that want one. -/
def State.fits (m : Nat) (s : State T) (more : Nat) : Bool :=
  s.coming + more + s.queue_.length ≤ m + s.pops

/-- `stop`, and a call of `run` behind it, leave a place for every call on its way. Nothing is
asked of a pool without threads, which has no use for its queue, nor of a `stop` that throws. -/
def leavesRoom (m : Nat) (s : State T) : Action T → Bool
  | .stop => s.threads_.isEmpty || s.threads_.any Thread.joined_ || s.fits m 0
  | .run _ => s.running_ || s.threads_.isEmpty || s.throws || s.fits m 1
  | _ => true

theorem Action.not_control_of_worker {a : Action T} (h : a.worker.isSome = true) :
    a.isControl = false := by
  cases a with
  | test | take | wake | exec | finish => rfl
  | _ => cases h

theorem Action.not_control_of_caller {a : Action T} (h : a.caller.isSome = true) :
    a.isControl = false := by
  cases a with
  | enter | push | wakeCall | endCall => rfl
  | _ => cases h

theorem coming_of_locks {task : Option T} {pc : CallPc} (h : pc.locks = true) :
    Call.coming { task, pc } = true := by
  cases pc with
  | lock | woken _ => rfl
  | _ => cases h

theorem coming_notify (c : Call T) (h : notFull_.waiting c = true) :
    (notFull_.notify c).coming = c.coming := by
  obtain ⟨task, pc⟩ := c
  cases pc with
  | waiting => rfl
  | _ => cases h

/-- A step of a call of `run`: what is queued was on its way before. -/
theorem caller_step (hne : s.threads_ ≠ []) {a : Action T} (ha : a.caller.isSome = true)
    (hs : s.step m a = some s') :
    s'.coming + s'.queue_.length = s.coming + s.queue_.length ∧
      s.queue_.length ≤ s'.queue_.length ∧
      s'.workers.countP Worker.takes = s.workers.countP Worker.takes := by
  -- a call that stays on its way, or was off it before
  have hmove : ∀ {c : Nat} {call call' : Call T}, s.calls[c]? = some call →
      call'.coming = call.coming → (s.calls.set c call').countP Call.coming = s.coming := by
    intro c call call' hc hsame
    have hcount := countP_set_add (p := Call.coming) hc call'
    rw [hsame] at hcount
    exact Nat.add_right_cancel hcount
  cases a with
  | enter c =>
    obtain ⟨task, pc, hc, rfl, ⟨-, rfl⟩ | ⟨hnone, -⟩⟩ := State.enter_cases hs
    · exact ⟨congrArg (· + s.queue_.length) (hmove hc rfl), Nat.le_refl _, rfl⟩
    · exact absurd hnone hne
  | push c notified =>
    obtain ⟨task, pc, hc, hl, ⟨-, rfl⟩ | ⟨-, workers, hn, rfl⟩⟩ := State.push_cases hs
    · have hsame : Call.coming { task, pc := .waiting } = Call.coming { task, pc } :=
        (coming_of_locks hl).symm
      exact ⟨congrArg (· + s.queue_.length) (hmove hc hsame), Nat.le_refl _, rfl⟩
    · have hcount := countP_set_add (p := Call.coming) hc { task, pc := .returned }
      have hgone : Call.coming { task, pc := .returned } = false := rfl
      rw [coming_of_locks hl, hgone, if_pos rfl, if_neg nofun] at hcount
      have hlen : (s.queue_ ++ [task]).length = s.queue_.length + 1 := List.length_append
      refine ⟨?_, by dsimp only; omega, countP_notifyOne takes_notify hn⟩
      unfold State.coming
      dsimp only
      omega
  | wakeCall c =>
    obtain ⟨task, hc, rfl⟩ := State.wakeCall_cases hs
    exact ⟨congrArg (· + s.queue_.length) (hmove hc rfl), Nat.le_refl _, rfl⟩
  | endCall c =>
    obtain ⟨t, hc, rfl⟩ := State.endCall_cases hs
    exact ⟨congrArg (· + s.queue_.length) (hmove hc rfl), Nat.le_refl _, rfl⟩
  | _ => cases ha

/-- A step of a worker of a stopped pool: a pop is one that was to come. -/
theorem worker_step (hr : s.running_ = false) {a : Action T} (ha : a.worker.isSome = true)
    (hs : s.step m a = some s') :
    s'.coming = s.coming ∧ s'.queue_.length + s.pops = s.queue_.length + s'.pops := by
  -- a worker that stays inside `take`, or outside
  have hmove : ∀ {w : Nat} {p p' : Worker T}, s.workers[w]? = some p → p'.takes = p.takes →
      s.pops = State.pops { s with workers := s.workers.set w p' } := by
    intro w p p' hw hsame
    have hcount := countP_set_add (p := Worker.takes) hw p'
    rw [hsame] at hcount
    unfold State.pops
    dsimp only
    omega
  cases a with
  | test w =>
    obtain ⟨hw, rfl⟩ := State.test_cases hs
    rw [hr]
    exact ⟨rfl, congrArg (s.queue_.length + ·) (hmove hw rfl)⟩
  | take w notified =>
    obtain ⟨worker, hw, hl, ⟨-, hr', -⟩ | ⟨hq, -, rfl⟩ | ⟨task, queue_, calls, hq, hcalls, rfl⟩⟩ :=
      State.take_cases hs
    · rw [hr] at hr'
      cases hr'
    · refine ⟨rfl, ?_⟩
      simp only [State.pops, hq, List.length_nil, Nat.zero_min]
    · have hcount := countP_set_add (p := Worker.takes) hw (.took task)
      rw [takes_of_locks hl] at hcount
      simp only [Worker.takes, if_true, Bool.false_eq_true, if_false] at hcount
      refine ⟨?_, ?_⟩
      · -- the caller that is notified is on its way as before
        rcases hcalls with ⟨-, hn⟩ | ⟨-, rfl⟩
        · exact countP_notifyOne coming_notify hn
        · rfl
      · unfold State.pops
        dsimp only
        rw [hq, List.length_cons]
        omega
  | wake w =>
    obtain ⟨hw, rfl⟩ := State.wake_cases hs
    exact ⟨rfl, congrArg (s.queue_.length + ·) (hmove hw rfl)⟩
  | exec w =>
    rcases State.exec_cases hs with ⟨hw, rfl⟩ | ⟨t, hw, rfl⟩
    · exact ⟨rfl, congrArg (s.queue_.length + ·) (hmove hw rfl)⟩
    · exact ⟨rfl, congrArg (s.queue_.length + ·) (hmove hw rfl)⟩
  | finish w =>
    obtain ⟨t, hw, rfl⟩ := State.finish_cases hs
    exact ⟨rfl, congrArg (s.queue_.length + ·) (hmove hw rfl)⟩
  | _ => cases ha

/-! ## Runs that leave room

If every call finds room when `stop` is called, and every later one when it is made, this stays so:
a push uses up a place and a caller together, and a pop sets free a place that was counted before.
-/

/-- A pool without threads runs tasks on their caller's thread. -/
def Early (s : State T) : Prop :=
  s.threads_ = [] → ∀ c ∈ s.calls, c.pc.locks = false ∧ notFull_.waiting c = false

theorem early_init : Early (State.init : State T) := fun _ _ h => (by cases h)

/-- One call goes on, to where it neither locks nor sleeps. -/
theorem Early.move (h : Early s) {c : Nat} {call : Call T}
    (hcall : s.threads_ = [] → call.pc.locks = false ∧ notFull_.waiting call = false) :
    Early { s with calls := s.calls.set c call } := by
  intro hnone q hq
  rcases List.mem_or_eq_of_mem_set hq with hq | rfl
  · exact h hnone q hq
  · exact hcall hnone

/-- A call looks at `threads_` when it begins, so whoever went for the lock found threads; and there
is no way back to none. -/
theorem Early.step (h : Early s) {a : Action T} (hs : s.step m a = some s') : Early s' := by
  cases a with
  | start n =>
    obtain ⟨-, rfl⟩ := State.start_cases hs
    exact h
  | spawn =>
    rcases State.spawn_cases hs with ⟨-, rfl⟩ | ⟨turns, -, rfl⟩
    · exact h
    · exact h
  | pushBack =>
    obtain ⟨worker, turns, -, rfl⟩ := State.pushBack_cases hs
    exact fun hnone => absurd hnone (List.append_ne_nil_of_right_ne_nil _ nofun)
  | stop =>
    obtain ⟨-, rfl⟩ := State.stop_cases hs
    exact h
  | join =>
    obtain ⟨i, -, ⟨-, rfl⟩ | ⟨thread, -, ⟨-, rfl⟩ | ⟨-, -, rfl⟩⟩⟩ := State.join_cases hs
    · exact h
    · exact h
    · exact fun hnone => h ((List.set_eq_nil_iff _ _).mp hnone)
  | run task =>
    obtain rfl := State.run_cases hs
    intro hnone c hc
    rcases List.mem_append.mp hc with hc | hc
    · exact h hnone c hc
    · rw [List.mem_singleton.mp hc]
      exact ⟨rfl, rfl⟩
  | enter c =>
    obtain ⟨task, pc, -, rfl, ⟨hne, -⟩ | ⟨-, ⟨-, rfl⟩ | ⟨-, rfl⟩⟩⟩ := State.enter_cases hs
    · exact fun hnone => absurd hnone hne
    · exact h.move fun _ => ⟨rfl, rfl⟩
    · exact h.move fun _ => ⟨rfl, rfl⟩
  | push c notified =>
    -- a call that has the mutex found a thread
    obtain ⟨task, pc, hc, hl, hcases⟩ := State.push_cases hs
    have hne : s.threads_ ≠ [] := fun hnone => by
      have hlocks := (h hnone _ (List.mem_of_getElem? hc)).1
      rw [hl] at hlocks
      cases hlocks
    rcases hcases with ⟨-, rfl⟩ | ⟨-, workers, -, rfl⟩
    · exact fun hnone => absurd hnone hne
    · exact fun hnone => absurd hnone hne
  | wakeCall c =>
    obtain ⟨task, hc, rfl⟩ := State.wakeCall_cases hs
    exact h.move fun hnone => nomatch (h hnone _ (List.mem_of_getElem? hc)).2
  | endCall c =>
    obtain ⟨t, -, rfl⟩ := State.endCall_cases hs
    exact h.move fun _ => ⟨rfl, rfl⟩
  | test w =>
    obtain ⟨-, rfl⟩ := State.test_cases hs
    exact h
  | take w notified =>
    obtain ⟨worker, -, -, ⟨-, -, rfl⟩ | ⟨-, -, rfl⟩ | ⟨task, queue_, calls, -, hcalls, rfl⟩⟩ :=
      State.take_cases hs
    · exact h
    · exact h
    · rcases hcalls with ⟨-, hn⟩ | ⟨-, rfl⟩
      · rcases notifyOne_cases hn with ⟨rfl, -⟩ | ⟨i, p, hp, hwait, rfl⟩
        · exact h
        · -- nobody sleeps who could be notified
          intro hnone
          rw [(h hnone p (List.mem_of_getElem? hp)).2] at hwait
          cases hwait
      · exact h
  | wake w =>
    obtain ⟨-, rfl⟩ := State.wake_cases hs
    exact h
  | exec w =>
    rcases State.exec_cases hs with ⟨-, rfl⟩ | ⟨t, -, rfl⟩
    · exact h
    · exact h
  | finish w =>
    obtain ⟨t, -, rfl⟩ := State.finish_cases hs
    exact h

theorem early_inductive : (pool T m).Inductive Early where
  init := early_init
  step h hs := h.step hs

/-! ### Everybody finds a place

The invariant of the first half. It counts who may still want a place against the places there are
and those that come by pops. In a stopped pool only a call that comes late adds to the first, and
the condition looks at each of those. -/

/-- In a stopped pool with threads, as long as the joins do not throw, all calls find a place. -/
def Provided (m : Nat) (s : State T) : Prop :=
  s.running_ = false → s.threads_ ≠ [] → s.throws = false →
    s.coming + s.queue_.length ≤ m + s.pops

theorem provided_init : Provided m (State.init : State T) := fun _ hne => absurd rfl hne

theorem throws_congr (hc : s'.control = s.control) (ht : s'.threads_ = s.threads_) :
    s'.throws = s.throws := by
  unfold State.throws
  rw [hc, ht]

/-- A step that leaves the controlling thread's data alone, and does not spoil the count. -/
theorem Provided.frame (h : Provided m s) {a : Action T} (ha : a.isControl = false)
    (hs : s.step m a = some s')
    (hcount : s.running_ = false → s.threads_ ≠ [] →
      s'.coming + s'.queue_.length + s.pops ≤ s.coming + s.queue_.length + s'.pops) :
    Provided m s' := by
  obtain ⟨hr, ht, hc, -⟩ := State.step_frame ha hs
  intro hstop hne hthrows
  rw [hr] at hstop
  rw [ht] at hne
  rw [throws_congr hc ht] at hthrows
  have hfits := h hstop hne hthrows
  have hle := hcount hstop hne
  omega

theorem Provided.caller (h : Provided m s) {a : Action T} (ha : a.caller.isSome = true)
    (hs : s.step m a = some s') : Provided m s' := by
  refine h.frame (Action.not_control_of_caller ha) hs fun _ hne => ?_
  obtain ⟨hsum, hlen, htakes⟩ := caller_step hne ha hs
  have hpops : s.pops ≤ s'.pops := by
    unfold State.pops
    rw [htakes]
    omega
  omega

theorem Provided.worker (h : Provided m s) {a : Action T} (ha : a.worker.isSome = true)
    (hs : s.step m a = some s') : Provided m s' := by
  refine h.frame (Action.not_control_of_worker ha) hs fun hstop _ => ?_
  obtain ⟨hcoming, hpops⟩ := worker_step hstop ha hs
  omega

/-- A join is of a worker that has left, so no pop to come is lost by it. -/
theorem Provided.join (h : Provided m s) (hs : s.join = some s') : Provided m s' := by
  obtain ⟨i, hi, ⟨hend, rfl⟩ | ⟨thread, hthread, ⟨-, rfl⟩ | ⟨hnot, -, rfl⟩⟩⟩ := State.join_cases hs
  · -- behind the last thread there is none that was joined before
    refine fun hstop hne _ => h hstop hne ?_
    have hnil := List.drop_eq_nil_of_le (List.getElem?_eq_none_iff.mp hend)
    simp only [State.throws, hi, hnil, List.any_nil]
  · exact fun _ _ hthrows => nomatch hthrows
  · refine fun hstop hne hthrows => h hstop (fun hnone => hne ?_) ?_
    · exact (List.set_eq_nil_iff _ _).mpr hnone
    · have hrest : ((s.threads_.set i { thread with joined_ := true }).drop (i + 1)).any
          Thread.joined_ = false := hthrows
      rw [List.drop_set_of_lt (Nat.lt_succ_self i)] at hrest
      obtain ⟨hlt, rfl⟩ := List.getElem?_eq_some_iff.mp hthread
      simp only [State.throws, hi]
      rw [List.drop_eq_getElem_cons hlt, List.any_cons, hnot, hrest]
      rfl

/-- A push takes a place and is one call less; a pop makes a place and is one pop less. The
condition is about the two steps at which more is asked for. -/
theorem Provided.step (h : Provided m s) (hst : Staffed s) {a : Action T}
    (hok : leavesRoom m s a = true) (hs : s.step m a = some s') : Provided m s' := by
  cases a with
  | start n =>
    obtain ⟨-, rfl⟩ := State.start_cases hs
    exact nofun
  | spawn =>
    -- `running_` is true until `start` has returned
    rcases State.spawn_cases hs with ⟨hc, rfl⟩ | ⟨turns, hc, rfl⟩
    · exact fun hstop => nomatch (hst.starting _ hc).symm.trans hstop
    · exact fun hstop => nomatch (hst.starting _ hc).symm.trans hstop
  | pushBack =>
    obtain ⟨worker, turns, hc, rfl⟩ := State.pushBack_cases hs
    exact fun hstop => nomatch (hst.pushing _ _ hc).1.symm.trans hstop
  | stop =>
    obtain ⟨-, rfl⟩ := State.stop_cases hs
    intro _ hne hthrows
    have hthrows : s.threads_.any Thread.joined_ = false := hthrows
    have hnil : s.threads_.isEmpty = false := List.isEmpty_eq_false_iff.mpr hne
    simp only [leavesRoom, hnil, hthrows, Bool.false_or, State.fits, decide_eq_true_eq] at hok
    have htakes : (notEmpty_.notifyAll s.workers).countP Worker.takes =
        s.workers.countP Worker.takes := countP_notifyAll takes_notify
    unfold State.pops State.coming at *
    dsimp only
    rw [htakes]
    exact hok
  | join => exact h.join hs
  | run task =>
    obtain rfl := State.run_cases hs
    intro hstop hne hthrows
    have hstop : s.running_ = false := hstop
    have hthrows : s.throws = false := hthrows
    have hnil : s.threads_.isEmpty = false := List.isEmpty_eq_false_iff.mpr hne
    simp only [leavesRoom, hstop, hnil, hthrows, Bool.false_or, State.fits,
      decide_eq_true_eq] at hok
    have hcoming : (s.calls ++ [({ task, pc := .entered } : Call T)]).countP Call.coming =
        s.coming + 1 := List.countP_append
    unfold State.coming State.pops at *
    dsimp only
    omega
  | enter | push | wakeCall | endCall => exact h.caller rfl hs
  | test | take | wake | exec | finish => exact h.worker rfl hs

/-- Who sleeps and who is notified is on his way. -/
theorem asleep_add_notified_le (cs : List (Call T)) :
    cs.countP notFull_.waiting + cs.countP notFull_.notified ≤ cs.countP Call.coming := by
  induction cs with
  | nil => exact Nat.le_refl 0
  | cons c cs ih =>
    have hone : (if notFull_.waiting c then 1 else 0) + (if notFull_.notified c then 1 else 0) ≤
        if c.coming then 1 else 0 := by
      obtain ⟨task, pc⟩ := c
      cases pc with
      | woken notified => cases notified <;> simp [notFull_, Call.coming]
      | _ => simp [notFull_, Call.coming]
    simp only [List.countP_cons]
    omega

/-- When all calls find a place among the free ones, nobody sleeps: for each of these places
somebody else would have been notified. -/
theorem Woken.unblocked (h : Woken m s) (hcount : s.coming + s.queue_.length ≤ m) :
    s.unblocked := by
  intro c hc
  refine Bool.eq_false_iff.mpr fun hwait => ?_
  have hasleep := List.countP_pos_iff.mpr ⟨c, hc, hwait⟩
  have hle := asleep_add_notified_le s.calls
  unfold State.coming at hcount
  have hfree := h.producers (by omega) ⟨c, hc, hwait⟩
  omega

/-! ## Who is left behind

One caller too many, and the schedule that leaves one of them asleep. The workers are let through
first, which sets no place free that was not counted; then the callers go, until the queue is full.
-/

/-- A step of a thread that is under way: of a worker, of a call of `run`, or of the joins. -/
def Action.onWay : Action T → Bool
  | .start _ | .stop | .run _ => false
  | _ => true

/-! ### One too many

The invariant of the second half, which is the other side of the same count. It is kept by the steps
of threads under way, and they come to an end. -/

/-- A stopped pool with more callers than there are places to come. The count is exceeded, and what
exceeds it is a caller. That the joins do not throw is needed for `stop` to return. -/
structure Crowded (m : Nat) (s : State T) : Prop where
  reachable : (pool T m).Reachable s
  running_ : s.running_ = false
  threads : s.threads_ ≠ []
  throws : s.throws = false
  crowd : m + s.pops < s.coming + s.queue_.length

theorem Action.worker_of_turn {a : Action T} (h : a.turn = true) : a.worker.isSome = true := by
  cases a with
  | test | take | exec | finish => rfl
  | _ => cases h

theorem Crowded.frame (h : Crowded m s) {a : Action T} (ha : a.isControl = false)
    (hs : s.step m a = some s')
    (hcount : s.coming + s.queue_.length + s'.pops ≤ s'.coming + s'.queue_.length + s.pops) :
    Crowded m s' := by
  obtain ⟨hr, ht, hc, -⟩ := State.step_frame ha hs
  refine ⟨h.reachable.step hs, hr.trans h.running_, ?_, (throws_congr hc ht).trans h.throws, ?_⟩
  · rw [ht]
    exact h.threads
  · have hcrowd := h.crowd
    omega

theorem Crowded.worker (h : Crowded m s) {a : Action T} (ha : a.worker.isSome = true)
    (hs : s.step m a = some s') : Crowded m s' := by
  refine h.frame (Action.not_control_of_worker ha) hs ?_
  obtain ⟨hcoming, hpops⟩ := worker_step h.running_ ha hs
  omega

/-- The workers go first: they leave, and the queue is as full as it can get without them. -/
theorem Crowded.desert (h : Crowded m s) :
    ∃ t, (pool T m).Leads (fun a => a.turn = true) s t ∧ Crowded m t ∧ t.deserted := by
  refine Machine.leads_of_still State.load (fun {s a s'} h ha hs => ?_) (fun {s} h hstill => ?_) h
  · have hlife : a.life = false := by
      cases a with
      | start | stop => cases ha
      | _ => rfl
    obtain ⟨-, hload⟩ := (Stopped.of_reachable h.reachable h.running_).step hlife hs
    rw [if_pos (Action.works_of_turn ha)] at hload
    exact ⟨h.worker (Action.worker_of_turn ha) hs, hload⟩
  · intro p hp
    by_contra hexit
    obtain ⟨w, hw⟩ := List.mem_iff_getElem?.mp hp
    have hawake := (Stopped.of_reachable h.reachable h.running_).awake p hp
    obtain ⟨a, s', ha, hs⟩ := worker_goes (m := m) hw hawake hexit
    rw [hstill a ha] at hs
    cases hs

theorem State.deserted.pops (h : s.deserted) : s.pops = 0 := by
  have htakes : s.workers.countP Worker.takes = 0 := by
    refine List.countP_eq_zero.mpr fun p hp => ?_
    rw [h p hp]
    exact nofun
  rw [State.pops, htakes, Nat.min_zero]

/-- Workers that have left do not come back by what callers do. -/
theorem State.deserted.step (h : s.deserted) {a : Action T} (ha : a.isControl = false)
    (hs : s.step m a = some s') : s'.deserted := by
  intro p hp
  obtain ⟨w, hw⟩ := List.mem_iff_getElem?.mp hp
  obtain ⟨-, -, -, hlen⟩ := State.step_frame ha hs
  have hlt : w < s.workers.length := hlen ▸ lt_length_of_getElem? hw
  have hold : s.workers[w]? = some .exited := by
    rw [List.getElem?_eq_getElem hlt, h _ (List.getElem_mem hlt)]
  rw [State.exited_step hold hs] at hw
  exact (Option.some.inj hw).symm

/-! ### The schedule

First the workers leave, then the callers fill the queue until one of them finds it full, and then
the joins are done. Nobody is left who could notify the one who waits. -/

/-- A call on its way that does not sleep can go on. -/
theorem call_goes {c : Nat} {call : Call T} (hc : s.calls[c]? = some call)
    (hcoming : call.coming = true) (hwait : notFull_.waiting call = false) :
    ∃ a s', a.caller.isSome = true ∧ s.step m a = some s' ∧ s'.effort < s.effort := by
  have hpush : call.pc.locks = true →
      ∃ a s', a.caller.isSome = true ∧ s.step m a = some s' ∧ s'.effort < s.effort := by
    intro hl
    obtain ⟨notified, workers, hn⟩ := notifyOne_possible notEmpty_ s.workers
    have hsome : (s.push m c notified).isSome = true := by
      cases hf : isFull m s.queue_ <;> simp [State.push, hc, hl, hf, hn]
    obtain ⟨s', hs⟩ := Option.isSome_iff_exists.mp hsome
    exact ⟨.push c notified, s', rfl, hs, effort_push hs⟩
  obtain ⟨task, pc⟩ := call
  cases pc with
  | entered =>
    have hsome : (s.enter c).isSome = true := by simp [State.enter, hc]
    obtain ⟨s', hs⟩ := Option.isSome_iff_exists.mp hsome
    exact ⟨.enter c, s', rfl, hs, effort_enter hs⟩
  | lock | woken notified => exact hpush rfl
  | waiting => cases hwait
  | running | returned | threw => cases hcoming

/-- Without workers the callers fill the queue, and one of them finds it full. -/
theorem Crowded.fill (hm : 0 < m) (h : Crowded m s) (hd : s.deserted) :
    ∃ t, (pool T m).Leads (fun a => a.caller.isSome = true) s t ∧
      (Crowded m t ∧ t.deserted) ∧ ¬ t.unblocked := by
  refine Machine.leads_of_measure State.effort (fun s h hfree => ?_) ⟨h, hd⟩
  obtain ⟨h, hd⟩ := h
  have hfree := not_not.mp hfree
  -- the queue is no longer than it may be, so somebody is on his way
  have hbound := (h.reachable.inv kept_inductive).bound hm
  have hcrowd := h.crowd
  rw [hd.pops] at hcrowd
  have hsome : 0 < s.calls.countP Call.coming := by
    unfold State.coming at hcrowd
    omega
  obtain ⟨call, hmem, hcoming⟩ := List.countP_pos_iff.mp hsome
  obtain ⟨c, hc⟩ := List.mem_iff_getElem?.mp hmem
  obtain ⟨a, s', ha, hs, hlt⟩ := call_goes (m := m) hc hcoming (hfree call hmem)
  have hctl := Action.not_control_of_caller ha
  have hd' := hd.step hctl hs
  refine ⟨a, s', ha, hs, ⟨h.frame hctl hs ?_, hd'⟩, hlt⟩
  obtain ⟨hsum, -, -⟩ := caller_step h.threads ha hs
  rw [hd.pops, hd'.pops]
  omega

/-- When all workers have left, the loop of joins comes to its end. -/
theorem joins_end {i : Nat} (hi : s.control = .joining i) (hall : s.deserted)
    (hknown : ∀ thread ∈ s.threads_, thread.worker < s.workers.length) (hno : s.throws = false) :
    ∃ t, (pool T m).Leads (fun a => a = .join) s t ∧ t.control = .idle ∧
      t.running_ = s.running_ ∧ t.calls = s.calls := by
  generalize hn : s.threads_.length - i = n
  induction n generalizing s i with
  | zero =>
    have hnone : s.threads_[i]? = none := List.getElem?_eq_none (by omega)
    have hs : s.join = some { s with control := .idle } := by
      simp only [State.join, hi, hnone]
    exact ⟨_, Machine.Leads.single rfl hs, rfl, rfl, rfl⟩
  | succ n ih =>
    have hlt : i < s.threads_.length := by omega
    have hget := List.getElem?_eq_getElem hlt
    have hworker := hknown _ (List.getElem_mem hlt)
    have hexit : s.workers[s.threads_[i].worker]? = some .exited := by
      rw [List.getElem?_eq_getElem hworker, hall _ (List.getElem_mem hworker)]
    -- the thread at `i` is not joined yet, and none behind it
    simp only [State.throws, hi] at hno
    rw [List.drop_eq_getElem_cons hlt, List.any_cons, Bool.or_eq_false_iff] at hno
    obtain ⟨hnot, hrest⟩ := hno
    let s₁ : State T := { s with
      threads_ := s.threads_.set i { s.threads_[i] with joined_ := true },
      control := .joining (i + 1) }
    have hs : (pool T m).step s .join = some s₁ := by
      show s.join = some s₁
      simp only [State.join, hi, hget, hnot, hexit]
      rfl
    have hfirst : (pool T m).Leads (fun a => a = .join) s s₁ := Machine.Leads.single rfl hs
    have hknown₁ : ∀ th ∈ s₁.threads_, th.worker < s₁.workers.length := by
      intro th hth
      rcases List.mem_or_eq_of_mem_set hth with hth | rfl
      · exact hknown th hth
      · exact hworker
    have hno₁ : s₁.throws = false := by
      show ((s.threads_.set i _).drop (i + 1)).any Thread.joined_ = false
      rw [List.drop_set_of_lt (Nat.lt_succ_self i)]
      exact hrest
    have hlen : s₁.threads_.length - (i + 1) = n := by
      show (s.threads_.set i _).length - (i + 1) = n
      rw [List.length_set]
      omega
    obtain ⟨t, hleads, hidle, hr, hcalls⟩ := ih (s := s₁) rfl hall hknown₁ hno₁ hlen
    exact ⟨t, hfirst.trans hleads, hidle, hr, hcalls⟩

/-- In a crowded pool a producer can be left asleep when `stop` has returned. -/
theorem Crowded.left_behind (hm : 0 < m) (h : Crowded m s) :
    ∃ t, (pool T m).Leads (fun a => a.onWay = true) s t ∧ t.control = .idle ∧
      t.running_ = false ∧ ¬ t.unblocked := by
  -- first the workers leave, then the callers fill the queue
  obtain ⟨t, hworkers, ht, hd⟩ := h.desert
  obtain ⟨u, hcallers, ⟨hu, hd⟩, hasleep⟩ := ht.fill hm hd
  have hway : (pool T m).Leads (fun a => a.onWay = true) s u := by
    refine (hworkers.mono fun a ha => ?_).trans (hcallers.mono fun a ha => ?_)
    · cases a with
      | start | stop | run => cases ha
      | _ => rfl
    · cases a with
      | start | stop | run => cases ha
      | _ => rfl
  have hst := (hu.reachable.inv staffed_inductive).2
  -- and last the controlling thread gets through its joins, which have nobody to wait for
  cases hc : u.control with
  | idle => exact ⟨u, hway, hc, hu.running_, hasleep⟩
  | starting turns => exact nomatch (hst.starting turns hc).symm.trans hu.running_
  | pushing w turns => exact nomatch (hst.pushing w turns hc).1.symm.trans hu.running_
  | joining i =>
    obtain ⟨v, hjoins, hidle, hr, hcalls⟩ := joins_end (m := m) hc hd hst.known hu.throws
    refine ⟨v, hway.trans (hjoins.mono fun a ha => ?_), hidle, hr.trans hu.running_, ?_⟩
    · rw [ha]
      rfl
    · unfold State.unblocked at hasleep ⊢
      rw [hcalls]
      exact hasleep
  | threw =>
    have hthrows := hu.throws
    simp only [State.throws, hc] at hthrows
    cases hthrows

/-- **No producer is stranded by `stop` exactly if its callers find room.** In a run in which, at
`stop`, the calls of `run` on their way and the queued tasks are no more than the places and the
pops to come, and in which every call made behind `stop` leaves it at that, no call is asleep once
`stop` has returned. A step that breaks the count can be followed by steps of threads under way
alone, such that `stop` returns with a producer asleep. -/
theorem stop_strands_no_producer (m : Nat) (hm : 0 < m) (as : List (Action T)) (s : State T)
    (hrun : (pool T m).run as = some s) :
    ((pool T m).Meets (fun s a => leavesRoom m s a = true) as →
      s.control = .idle → s.running_ = false → s.unblocked) ∧
    ∀ a s', leavesRoom m s a = false → s.step m a = some s' →
      ∃ t, (pool T m).Leads (fun a => a.onWay = true) s' t ∧ t.control = .idle ∧
        t.running_ = false ∧ ¬ t.unblocked := by
  have hreach : (pool T m).Reachable s := ⟨as, hrun⟩
  obtain ⟨ht, hst⟩ := hreach.inv staffed_inductive
  constructor
  · intro hok hidle hstop
    have hboth : (Tracked s ∧ Staffed s) ∧ Provided m s := by
      refine hok.inv (I := fun s => (Tracked s ∧ Staffed s) ∧ Provided m s)
        ⟨staffed_inductive.init, provided_init⟩ (fun {s a s'} h hok hs => ?_) hrun
      exact ⟨staffed_inductive.step h.1 hs, h.2.step h.1.2 hok hs⟩
    by_cases hne : s.threads_ = []
    · exact fun c hc => (hreach.inv early_inductive hne c hc).2
    · -- all workers have left, so no pop is to come
      have hd : s.deserted := by
        refine ht.exited_of_joined (fun w turns hc => ?_) (hst.joined hidle hstop)
        rw [hidle] at hc
        cases hc
      have hthrows : s.throws = false := by simp only [State.throws, hidle]
      have hfits := hboth.2 hstop hne hthrows
      rw [hd.pops] at hfits
      exact (hreach.inv woken_inductive).unblocked hfits
  · intro a s' hbad hs
    have hreach' : (pool T m).Reachable s' := hreach.step hs
    refine Crowded.left_behind hm ?_
    cases a with
    | stop =>
      simp only [leavesRoom, Bool.or_eq_false_iff, State.fits, decide_eq_false_iff_not] at hbad
      obtain ⟨⟨hne, hnot⟩, hcrowd⟩ := hbad
      obtain ⟨-, rfl⟩ := State.stop_cases hs
      have htakes : (notEmpty_.notifyAll s.workers).countP Worker.takes =
          s.workers.countP Worker.takes := countP_notifyAll takes_notify
      refine ⟨hreach', rfl, List.isEmpty_eq_false_iff.mp hne, hnot, ?_⟩
      unfold State.pops State.coming at *
      dsimp only
      omega
    | run task =>
      simp only [leavesRoom, Bool.or_eq_false_iff, State.fits, decide_eq_false_iff_not] at hbad
      obtain ⟨⟨⟨hstop, hne⟩, hthrows⟩, hcrowd⟩ := hbad
      obtain rfl := State.run_cases hs
      have hcoming : (s.calls ++ [({ task, pc := .entered } : Call T)]).countP Call.coming =
          s.coming + 1 := List.countP_append
      refine ⟨hreach', hstop, List.isEmpty_eq_false_iff.mp hne, hthrows, ?_⟩
      unfold State.pops State.coming at *
      dsimp only
      omega
    | _ => cases hbad

/-! ### Two runs

A pool with one place. A third producer is left behind where the worker has popped already; a second
one that sleeps while the worker is inside `take` is served by its pop. -/

/-- One place and one worker, which has taken the first task; the second is queued, and the third
producer sleeps. -/
def thirdProducer : List (Action Nat) :=
  [.start 1, .spawn, .pushBack, .spawn, .test 0, .run (some 7), .enter 0, .push 0 none,
   .take 0 none, .run (some 8), .enter 1, .push 1 none, .run (some 9), .enter 2, .push 2 none]

/-- The worker is inside `take` when the second producer sleeps and the pool is stopped. -/
def secondServed : List (Action Nat) :=
  [.start 1, .spawn, .pushBack, .spawn, .test 0, .run (some 7), .enter 0, .push 0 none,
   .run (some 8), .enter 1, .push 1 none, .stop, .take 0 (some 1), .push 1 none, .exec 0,
   .finish 0, .test 0, .join, .join]

theorem stop_strands_no_producer_third :
    (∃ s, (pool Nat 1).run secondServed = some s ∧ s.unblocked) ∧
    ∃ s s', (pool Nat 1).run thirdProducer = some s ∧ s.stop = some s' ∧
      ∃ t, (pool Nat 1).Leads (fun a => a.onWay = true) s' t ∧ t.control = .idle ∧
        t.running_ = false ∧ ¬ t.unblocked := by
  constructor
  · obtain ⟨s, hs⟩ := Option.isSome_iff_exists.mp
      (show ((pool Nat 1).run secondServed).isSome = true by decide)
    have hend : ((pool Nat 1).run secondServed).map (fun s => (s.control, s.running_)) =
        some (.idle, false) := by decide
    rw [hs, Option.map_some, Option.some.injEq, Prod.mk.injEq] at hend
    have hmain := (stop_strands_no_producer 1 (by decide) secondServed s hs).1
    exact ⟨s, hs, hmain (by decide) hend.1 hend.2⟩
  · obtain ⟨s', hs'⟩ := Option.isSome_iff_exists.mp
      (show ((pool Nat 1).run (thirdProducer ++ [.stop])).isSome = true by decide)
    obtain ⟨s, hs, hstep⟩ := Machine.run_snoc.mp hs'
    have hbad : ((pool Nat 1).run thirdProducer).map (fun s => leavesRoom 1 s .stop)
        = some false := by decide
    rw [hs, Option.map_some, Option.some.injEq] at hbad
    have hmain := (stop_strands_no_producer 1 (by decide) thirdProducer s hs).2
    exact ⟨s, s', hs, hstep, hmain .stop s' hbad hstep⟩

/-- **A producer is stranded**: `stop` has returned, the worker is gone, and the third producer
still sleeps. -/
theorem stop_strands_third_producer :
    ∃ s, (pool Nat 1).run (thirdProducer ++ [.stop, .exec 0, .finish 0, .test 0, .join, .join]) =
        some s ∧
      s.control = .idle ∧ s.running_ = false ∧ s.workers = [.exited] ∧
      s.calls[2]? = some { task := some 9, pc := .waiting } := by
  obtain ⟨s, hs⟩ := Option.isSome_iff_exists.mp
    (show ((pool Nat 1).run (thirdProducer ++ [.stop, .exec 0, .finish 0, .test 0, .join,
      .join])).isSome = true by decide)
  have hend : ((pool Nat 1).run (thirdProducer ++ [.stop, .exec 0, .finish 0, .test 0, .join,
      .join])).map (fun s => (s.control, s.running_, s.workers, s.calls[2]?)) =
      some (.idle, false, [.exited], some { task := some 9, pc := .waiting }) := by decide
  rw [hs, Option.map_some, Option.some.injEq, Prod.mk.injEq, Prod.mk.injEq, Prod.mk.injEq] at hend
  exact ⟨s, hs, hend⟩

end CppDone.Net.ThreadPool
