import CppDone.HttpClient.Cleanup

/-!
# Calls behind the cleanup

A client that is not quiet when curl is cleaned up has a schedule on which curl is called
afterwards. A transfer that is under way comes to a call by itself, since every transfer is
`Steady`; a request that a worker holds begins with one; and a queued request is reached by a
worker that does what is queued before it, task by task. The pool is up until `~ThreadPool` stops
it (`Manned`), so there is such a worker.

The schedule that is built is one worker's alone. What it runs before the request may be other
tasks, each of which ends with its callback; should one of these be a transfer, there is the call
already.
-/

set_option autoImplicit false

namespace CppDone

/-! ## A pool that is up

Until `~ThreadPool` has tested `running_` nobody stops the pool. If it has workers they are in their
loops, and if it has none there is nothing in its queue. -/

namespace Net.ThreadPool

open HttpClient (internal)

variable {m : Nat} {s s' : State Nat}

/-- A pool that was never stopped. All workers are in their loops. Where there is none, nothing was
ever queued: calls of `run` then do their tasks themselves. -/
structure Manned (s : State Nat) : Prop where
  down : s.running_ = false → s.control = .idle ∧ s.workers = []
  up : ∀ p ∈ s.workers, p ≠ .exited
  pushing : ∀ w turns, s.control = .pushing w turns → s.workers ≠ []
  unmanned : s.workers = [] →
    s.threads_ = [] ∧ s.queue_ = [] ∧ ∀ c ∈ s.calls, c.pc.locks = false ∧ c.pc ≠ .waiting

theorem manned_init : Manned State.init where
  down _ := ⟨rfl, rfl⟩
  up p h := by cases h
  pushing w turns h := by cases h
  unmanned _ := ⟨rfl, rfl, fun c h => by cases h⟩

/-! ### Steps of the pool

What a step has to keep for the pool to stay manned. Only the controlling thread creates workers and
takes them away, and it does the latter behind `stop`. -/

/-- What the workers do among themselves. -/
theorem Manned.frame (h : Manned s) (hne : s.workers ≠ []) (hne' : s'.workers ≠ [])
    (hrunning : s'.running_ = s.running_) (hup : ∀ p ∈ s'.workers, p ≠ .exited) : Manned s' where
  down hr := absurd (h.down (hrunning ▸ hr)).2 hne
  up := hup
  pushing _ _ _ := hne'
  unmanned hnil := absurd hnil hne'

/-- A worker moves, and stays. -/
theorem Manned.move (h : Manned s) {w : Nat} {p p' : Worker Nat} (hw : s.workers[w]? = some p)
    (hworkers : s'.workers = s.workers.set w p') (hrunning : s'.running_ = s.running_)
    (hp' : p' ≠ .exited) : Manned s' := by
  have hne : s.workers ≠ [] := by
    intro hnil
    rw [hnil] at hw
    cases hw
  refine h.frame hne ?_ hrunning fun q hq => ?_
  · rw [hworkers]
    exact mt (List.set_eq_nil_iff w p').mp hne
  · rw [hworkers] at hq
    rcases List.mem_or_eq_of_mem_set hq with hq | rfl
    · exact h.up q hq
    · exact hp'

/-- A call moves. -/
theorem Manned.moveCall (h : Manned s) {c : Nat} {task : Option Nat} {pc : CallPc}
    (hpc : s.workers = [] → pc.locks = false ∧ pc ≠ .waiting) :
    Manned { s with calls := s.calls.set c { task, pc } } where
  down := h.down
  up := h.up
  pushing := h.pushing
  unmanned hnil := by
    obtain ⟨hthreads, hqueue, hcalls⟩ := h.unmanned hnil
    refine ⟨hthreads, hqueue, fun c' hc' => ?_⟩
    rcases List.mem_or_eq_of_mem_set hc' with hc' | rfl
    · exact hcalls c' hc'
    · exact hpc hnil

/-- A worker more, at the beginning of its loop. -/
theorem Manned.spawn (h : Manned s) (hs : s.spawn = some s') : Manned s' := by
  rcases State.spawn_cases hs with ⟨hc, rfl⟩ | ⟨turns, hc, rfl⟩
  · exact ⟨fun hr => ⟨rfl, (h.down hr).2⟩, h.up, nofun, h.unmanned⟩
  · have hne : s.workers ++ [.test] ≠ [] :=
      List.append_ne_nil_of_right_ne_nil _ (List.cons_ne_nil _ _)
    refine ⟨fun hr => ?_, fun p hp => ?_, fun _ _ _ => hne, fun hnil => absurd hnil hne⟩
    · rw [(h.down hr).1] at hc
      cases hc
    · rcases List.mem_append.mp hp with hp | hp
      · exact h.up p hp
      · rw [List.mem_singleton.mp hp]
        exact nofun

theorem Manned.pushBack (h : Manned s) (hs : s.pushBack = some s') : Manned s' := by
  obtain ⟨worker, turns, hc, rfl⟩ := State.pushBack_cases hs
  have hne : s.workers ≠ [] := h.pushing worker turns hc
  exact h.frame hne hne rfl h.up

/-- Nobody joins before the pool is stopped. -/
theorem Manned.join (h : Manned s) (hs : s.join = some s') : Manned s' := by
  obtain ⟨i, hi, hcases⟩ := State.join_cases hs
  have hr : s.running_ ≠ false := by
    intro hr
    rw [(h.down hr).1] at hi
    cases hi
  rcases hcases with ⟨-, rfl⟩ | ⟨thread, -, ⟨-, rfl⟩ | ⟨-, -, rfl⟩⟩
  · exact ⟨fun hr' => absurd hr' hr, h.up, nofun, h.unmanned⟩
  · exact ⟨fun hr' => absurd hr' hr, h.up, nofun, h.unmanned⟩
  · refine ⟨fun hr' => absurd hr' hr, h.up, nofun, fun hnil => ?_⟩
    obtain ⟨hthreads, hqueue, hcalls⟩ := h.unmanned hnil
    refine ⟨?_, hqueue, hcalls⟩
    dsimp only
    rw [hthreads]
    rfl

/-- Only where there are threads does a call come to push. -/
theorem Manned.push (h : Manned s) {c : Nat} {notified : Option Nat}
    (hs : s.push m c notified = some s') : Manned s' := by
  obtain ⟨task, pc, hc, hl, hcases⟩ := State.push_cases hs
  have hne : s.workers ≠ [] := by
    intro hnil
    rw [((h.unmanned hnil).2.2 _ (List.mem_of_getElem? hc)).1] at hl
    cases hl
  rcases hcases with ⟨-, rfl⟩ | ⟨-, workers, hworkers, rfl⟩
  · exact h.moveCall fun hnil => absurd hnil hne
  · rcases CondVar.notifyOne_cases hworkers with ⟨rfl, -⟩ | ⟨w, p, -, -, rfl⟩
    · exact h.frame hne hne rfl h.up
    · refine h.frame hne (mt (List.set_eq_nil_iff w _).mp hne) rfl fun q hq => ?_
      rcases List.mem_or_eq_of_mem_set hq with hq | rfl
      · exact h.up q hq
      · exact nofun

/-- As long as `stop` is not called, no worker finds a reason to leave. -/
theorem Manned.step (h : Manned s) {a : Action Nat} (ha : internal a = true)
    (hs : s.step m a = some s') : Manned s' := by
  cases a with
  | start | stop | run => cases ha
  | spawn => exact h.spawn hs
  | pushBack => exact h.pushBack hs
  | join => exact h.join hs
  | enter c =>
    obtain ⟨task, pc, hc, rfl, hpc⟩ := State.enter_cases hs
    refine h.moveCall fun hnil => ?_
    rcases hpc with ⟨hthreads, -⟩ | ⟨-, ⟨-, rfl⟩ | ⟨-, rfl⟩⟩
    · exact absurd (h.unmanned hnil).1 hthreads
    · exact ⟨rfl, nofun⟩
    · exact ⟨rfl, nofun⟩
  | push c notified => exact h.push hs
  | wakeCall c =>
    obtain ⟨task, hc, rfl⟩ := State.wakeCall_cases hs
    refine h.moveCall fun hnil => ?_
    exact absurd rfl ((h.unmanned hnil).2.2 _ (List.mem_of_getElem? hc)).2
  | endCall c =>
    obtain ⟨t, hc, rfl⟩ := State.endCall_cases hs
    have hmoved : Manned { s with calls := s.calls.set c { task := some t, pc := .returned } } :=
      h.moveCall fun _ => ⟨rfl, nofun⟩
    exact ⟨hmoved.down, hmoved.up, hmoved.pushing, hmoved.unmanned⟩
  | test w =>
    obtain ⟨hw, rfl⟩ := State.test_cases hs
    -- with a worker there, `running_` is set
    have hr : s.running_ = true := by
      by_contra hdown
      rw [(h.down (Bool.eq_false_iff.mpr hdown)).2] at hw
      cases hw
    exact h.move hw rfl rfl (by rw [hr]; exact nofun)
  | take w notified =>
    obtain ⟨worker, hw, -, ⟨-, -, rfl⟩ | ⟨-, -, rfl⟩ | ⟨task, queue_, calls, hq, -, rfl⟩⟩ :=
      State.take_cases hs
    · exact h.move hw rfl rfl nofun
    · exact h.move hw rfl rfl nofun
    · exact h.move hw rfl rfl nofun
  | wake w =>
    obtain ⟨hw, rfl⟩ := State.wake_cases hs
    exact h.move hw rfl rfl nofun
  | exec w =>
    rcases State.exec_cases hs with ⟨hw, rfl⟩ | ⟨t, hw, rfl⟩
    · exact h.move hw rfl rfl nofun
    · exact h.move hw rfl rfl nofun
  | finish w =>
    obtain ⟨t, hw, rfl⟩ := State.finish_cases hs
    exact h.move hw rfl rfl nofun

end Net.ThreadPool

namespace HttpClient

open Net.ThreadPool (Manned Worker)

/-! ## The pool of a client

Until its destructor comes to `stop`, a client has a pool that was not stopped. -/

/-- Until the destructor stops the pool, or finds that there is none to stop. -/
theorem manned_of_reachable {c : State} (h : client.Reachable c) :
    c.dtor.stopped = false → Manned c.threadPool_ := by
  have hI : client.Inductive fun c => c.dtor.stopped = false → Manned c.threadPool_ := by
    refine ⟨fun _ => Net.ThreadPool.manned_init, fun {c a c'} h hs => ?_⟩
    cases a with
    | initThreadpool n =>
      obtain ⟨-, threadPool_, hp, rfl⟩ := State.initThreadpool_cases hs
      obtain ⟨-, rfl⟩ := Net.ThreadPool.State.start_cases hp
      exact fun hst => ⟨nofun, (h hst).up, nofun, (h hst).unmanned⟩
    -- one more call, which is at its beginning
    | send =>
      obtain ⟨-, threadPool_, hp, rfl⟩ := State.send_cases hs
      obtain rfl := Net.ThreadPool.State.run_cases hp
      intro hst
      refine ⟨(h hst).down, (h hst).up, (h hst).pushing, fun hnil => ?_⟩
      obtain ⟨hthreads, hqueue, hcalls⟩ := (h hst).unmanned hnil
      refine ⟨hthreads, hqueue, fun call hcall => ?_⟩
      rcases List.mem_append.mp hcall with hcall | hcall
      · exact hcalls call hcall
      · rw [List.mem_singleton.mp hcall]
        exact ⟨rfl, nofun⟩
    | pool b =>
      obtain ⟨hb, threadPool_, hp, rfl⟩ := State.pool_cases hs
      exact fun hst => (h hst).step hb hp
    | destroy =>
      obtain ⟨hd, -, -, rfl⟩ := State.destroy_cases hs
      exact fun _ => h (by rw [hd]; rfl)
    | cleanup =>
      obtain ⟨hd, rfl⟩ := State.cleanup_cases hs
      exact fun _ => h (by rw [hd]; rfl)
    | test =>
      obtain ⟨hd, ⟨-, rfl⟩ | ⟨-, rfl⟩⟩ := State.test_cases hs
      · exact fun _ => h (by rw [hd]; rfl)
      -- no pool to stop: from here on nothing is said
      · exact nofun
    | stop =>
      obtain ⟨-, threadPool_, -, rfl⟩ := State.stop_cases hs
      exact nofun
    | joined =>
      obtain ⟨-, -, rfl⟩ := State.joined_cases hs
      exact nofun
  exact h.inv hI

namespace Responses

variable {s s' : State}

/-- The client of a run is a client in a run. -/
theorem reachable_client (h : responses.Reachable s) : client.Reachable s.client := by
  refine h.inv (I := fun s => client.Reachable s.client)
    ⟨Machine.Reachable.init, fun {s a s'} h hs => ?_⟩
  -- the client goes by its own steps; the transfers leave it alone
  cases a with
  | client a =>
    obtain ⟨-, -, c', hc, rfl⟩ := State.client_cases hs
    exact h.step hc
  | send request =>
    obtain ⟨c', hc, rfl⟩ := State.send_cases hs
    have hc : client.step s.client .send = some c' := hc
    exact h.step hc
  | synSend request | sendImmediate request =>
    obtain ⟨-, rfl⟩ := State.respond_cases hs
    exact h
  | enableCookies cookieFile =>
    obtain ⟨cookieFilename_, rfl⟩ := State.enableCookies_cases hs
    exact h
  | setSSLVerification caFile =>
    obtain rfl := State.setSSLVerification_cases hs
    exact h
  | curl i ok =>
    obtain ⟨runner, instr, next, returned, -, -, rfl⟩ := State.curl_cases hs
    exact h
  | read i =>
    obtain ⟨runner, instr, next, returned, answer, -, -, rfl⟩ := State.read_cases hs
    exact h
  | callback i =>
    obtain ⟨runner, -, rfl⟩ := State.callback_cases hs
    exact h

/-- Every transfer that is under way comes to a call. -/
def AllSteady (s : State) : Prop := ∀ response ∈ s.responses, KeepsCalling response.todo

theorem goesOn_of_curl {instr : Instr} (h : instr.curl = true) (answer : Bool) :
    instr.goesOn answer := by
  cases instr with
  | fopen => cases h
  | _ => trivial

theorem goesOn_of_reads {instr : Instr} {answer : Bool} (h : s.reads instr = some answer) :
    instr.goesOn answer := by
  cases instr with
  | fopen => exact (Option.some.inj h).symm
  | _ => trivial

/-- A transfer begins with the whole of `processResponse` in front of it. -/
theorem steady_begun (a : HttpClient.Action) :
    ∀ response ∈ s.begun a, KeepsCalling response.todo := by
  have hprocess : ∀ (runner : Runner) (id : Nat), ∀ response ∈ s.process runner id,
      KeepsCalling response.todo := by
    intro runner id response hmem
    unfold State.process at hmem
    -- a task begins a transfer when a worker begins it, or a caller who runs it in place
    split at hmem
    · next request hrequest =>
      obtain rfl := List.mem_singleton.mp hmem
      exact keepsCalling_processResponse request
    · cases hmem
  intro response hmem
  unfold State.begun at hmem
  split at hmem
  · split at hmem
    · exact hprocess _ _ response hmem
    · cases hmem
  · split at hmem
    · split at hmem
      · exact hprocess _ _ response hmem
      · cases hmem
    · cases hmem
  · cases hmem

/-- A transfer goes from one place of its program to a next one, and there is a call to come from
each of them. -/
theorem allSteady_inductive : responses.Inductive AllSteady where
  init response h := by cases h
  step := by
    intro s a s' h hs
    have hset : ∀ {i : Nat} {response : Response}, KeepsCalling response.todo →
        ∀ r ∈ s.responses.set i response, KeepsCalling r.todo := by
      intro i response hresponse r hr
      rcases List.mem_or_eq_of_mem_set hr with hr | rfl
      · exact h r hr
      · exact hresponse
    have happend : ∀ {new : List Response}, (∀ r ∈ new, KeepsCalling r.todo) →
        ∀ r ∈ s.responses ++ new, KeepsCalling r.todo := by
      intro new hnew r hr
      rcases List.mem_append.mp hr with hr | hr
      · exact h r hr
      · exact hnew r hr
    -- a new transfer is steady by its text, one that goes on is since it was
    cases a with
    | client a =>
      obtain ⟨-, -, c', -, rfl⟩ := State.client_cases hs
      exact happend (steady_begun a)
    | send request =>
      obtain ⟨c', -, rfl⟩ := State.send_cases hs
      exact h
    | synSend request | sendImmediate request =>
      obtain ⟨-, rfl⟩ := State.respond_cases hs
      refine happend fun response hresponse => ?_
      rw [List.mem_singleton.mp hresponse]
      exact keepsCalling_processResponse request
    | enableCookies cookieFile =>
      obtain ⟨cookieFilename_, rfl⟩ := State.enableCookies_cases hs
      exact h
    | setSSLVerification caFile =>
      obtain rfl := State.setSSLVerification_cases hs
      exact h
    | curl i ok =>
      obtain ⟨runner, instr, next, returned, hi, hcurl, rfl⟩ := State.curl_cases hs
      exact hset ((h _ (List.mem_of_getElem? hi)).2 ok (goesOn_of_curl hcurl ok))
    | read i =>
      obtain ⟨runner, instr, next, returned, answer, hi, hanswer, rfl⟩ := State.read_cases hs
      exact hset ((h _ (List.mem_of_getElem? hi)).2 answer (goesOn_of_reads hanswer))
    | callback i =>
      obtain ⟨runner, -, rfl⟩ := State.callback_cases hs
      exact hset trivial

/-! ## Schedules that lead to a call

From behind the cleanup, one step after the other, until a call of curl is made. The worker that is
followed does what the queue has before the request, and waits for nobody but the callbacks of the
transfers that it finds under way. -/

/-- Some schedule leads to a call of curl behind the cleanup. One schedule is enough to say that
such a call is not ruled out. -/
def CallsLate (s : State) : Prop :=
  ∃ post t i ok t', responses.runFrom s post = some t ∧ t.client.dtor.cleaned = true ∧
    responses.step t (.curl i ok) = some t'

theorem CallsLate.of_step {a : Action} (hs : responses.step s a = some s') (h : CallsLate s') :
    CallsLate s := by
  obtain ⟨post, t, i, ok, t', hrun, hcleaned, hcall⟩ := h
  refine ⟨a :: post, t, i, ok, t', ?_, hcleaned, hcall⟩
  rw [Machine.runFrom_cons, hs]
  exact hrun

/-- A transfer that is under way. -/
theorem callsLate_of_calls (hcleaned : s.client.dtor.cleaned = true) {i : Nat} {runner : Runner}
    {todo : Transfer Unit} {returned : Bool}
    (hi : s.responses[i]? = some { runner, todo, returned }) (h : Calls todo) :
    CallsLate s := by
  induction todo generalizing s with
  | ret a => exact h.elim
  | instr instr next ih =>
    cases hcurl : instr.curl with
    | true =>
      have hcall : responses.step s (.curl i true) = some { s with
          responses := s.responses.set i { runner, todo := next true, returned } } := by
        show s.curl i true = _
        rw [State.curl, hi]
        exact if_pos hcurl
      exact ⟨[], s, i, true, _, rfl, hcleaned, hcall⟩
    | false =>
      -- a setting is read or the upload file is opened, and the rest goes on
      obtain ⟨answer, hanswer⟩ : ∃ answer, s.reads instr = some answer := by
        cases instr with
        | getCookieFilename | getSSLVerification | fopen => exact ⟨_, rfl⟩
        | _ => cases hcurl
      have hnext : Calls (next answer) := by
        rcases h with h | h
        · rw [hcurl] at h
          cases h
        · exact h answer (goesOn_of_reads hanswer)
      have hread : responses.step s (.read i) = some { s with
          responses := s.responses.set i { runner, todo := next answer, returned } } := by
        show s.read i = _
        rw [State.read, hi]
        dsimp only
        rw [hanswer]
        rfl
      refine CallsLate.of_step hread (ih answer ?_ ?_ hnext)
      · exact hcleaned
      · have hlt := (List.getElem?_eq_some_iff.mp hi).1
        exact List.getElem?_set_self hlt

/-- The pool goes on, if nobody has to be waited for. -/
theorem step_pool {b : Net.ThreadPool.Action Nat} {threadPool_ : Net.ThreadPool.State Nat}
    (hb : internal b = true)
    (hall : ∀ response ∈ s.responses, some response.runner = State.awaited (.pool b) →
      response.returned = true)
    (hp : s.client.threadPool_.step 0 b = some threadPool_) :
    responses.step s (.client (.pool b)) = some { s with
      client := { s.client with threadPool_ }, responses := s.responses ++ s.begun (.pool b) } := by
  have hfree : (s.responses.all fun response =>
      response.returned || some response.runner ≠ State.awaited (.pool b)) = true := by
    refine List.all_eq_true.mpr fun response hmem => ?_
    by_cases hrunner : some response.runner = State.awaited (.pool b)
    · rw [hall response hmem hrunner]
      rfl
    · simp [hrunner]
  show s.clientStep (.pool b) = _
  unfold State.clientStep
  rw [if_pos hfree]
  show (s.client.pool b).map _ = _
  unfold HttpClient.State.pool
  rw [if_pos hb, hp]
  rfl

section Pending

variable {id : Nat} {request : HttpRequest} (hrequest : s.requests[id]? = some request)
  (hknown : request.requestType_ ≠ .UNKNOWN)

include hrequest hknown

/-! ### One step before the call

A transfer that was begun is at an instruction, and the next call of curl is a finite way ahead of
it. A task that a worker has in its hands begins its transfer with the next step. -/

/-- A request that a worker has popped. -/
theorem callsLate_of_held (hcleaned : s.client.dtor.cleaned = true) {w : Nat}
    (hw : s.client.threadPool_.workers[w]? = some (.took (some id))) : CallsLate s := by
  have hexec : s.client.threadPool_.step 0 (.exec w) = some { s.client.threadPool_ with
      workers := s.client.threadPool_.workers.set w (.running id),
      executed := s.client.threadPool_.executed ++ [(w, id)] } := by
    show s.client.threadPool_.exec w = _
    rw [Net.ThreadPool.State.exec, hw]
  have hbegun : s.begun (.pool (.exec w))
      = [{ runner := .worker w, todo := processResponse request, returned := false }] := by
    simp only [State.begun, hw, State.process, hrequest]
  refine CallsLate.of_step (step_pool rfl (fun _ _ hrunner => by cases hrunner) hexec) ?_
  rw [hbegun]
  let response : Response :=
    { runner := .worker w, todo := processResponse request, returned := false }
  have hlast : (s.responses ++ [response])[s.responses.length]? = some response :=
    List.getElem?_concat_length
  exact callsLate_of_calls hcleaned hlast (calls_processResponse hknown)

end Pending

/-- When no transfer is under way, all callbacks can return. -/
theorem callsLate_of_callbacks (hended : ∀ response ∈ s.responses, response.todo.ended = true)
    (h : ∀ s' : State, s'.client = s.client → s'.requests = s.requests →
      (∀ response ∈ s'.responses, response.todo.ended = true) →
      (∀ response ∈ s'.responses, response.returned = true) → CallsLate s') : CallsLate s := by
  -- on the number of callbacks that are still to return
  induction hn : s.responses.countP (fun response => !response.returned) generalizing s with
  | zero =>
    refine h s rfl rfl hended fun response hmem => ?_
    simpa using List.countP_eq_zero.mp hn response hmem
  | succ n ih =>
    obtain ⟨⟨runner, todo, returned⟩, hmem, hopen⟩ :=
      List.countP_pos_iff.mp (by rw [hn]; exact Nat.succ_pos n)
    obtain ⟨i, hi⟩ := List.mem_iff_getElem?.mp hmem
    obtain rfl : returned = false := by simpa using hopen
    cases todo with
    | instr instr next => cases hended _ hmem
    | ret a =>
      -- its transfer has ended, so the callback of this one can
      have hcallback : responses.step s (.callback i) = some { s with
          responses := s.responses.set i { runner, todo := .ret (), returned := true } } := by
        show s.callback i = _
        rw [State.callback, hi]
      have hcount := countP_set_add (p := fun response : Response => !response.returned) hi
        { runner, todo := .ret (), returned := true }
      refine CallsLate.of_step hcallback (ih ?_ h ?_)
      · intro response hresponse
        rcases List.mem_or_eq_of_mem_set hresponse with hresponse | rfl
        · exact hended response hresponse
        · rfl
      · simp only [Bool.not_false, Bool.not_true, if_true, Bool.false_eq_true, if_false] at hcount
        dsimp only
        omega

/-! ### A worker comes to the queue

What is queued is reached by whatever worker is nearest to it. Each step of that worker brings it
nearer, and nobody else is needed, since the lock is free between two steps. -/

/-- How far a worker is from the queue. A worker that is in the middle of a task has the longest
way; the numbers only need to fall from step to step. -/
def rank {T : Type} : Worker T → Nat
  | .took _ => 4
  | .running _ => 3
  | .test => 2
  | .waiting => 1
  | .lock | .woken _ | .exited => 0

/-- A client behind the cleanup, with no transfer under way, whose pool is up and has a request of a
known type in its queue. With no transfer under way, the first call of curl will be that of a
request in the queue. -/
structure Queued (s : State) (id : Nat) (request : HttpRequest) : Prop where
  cleaned : s.client.dtor.cleaned = true
  running_ : s.client.threadPool_.running_ = true
  ended : ∀ response ∈ s.responses, response.todo.ended = true
  request : s.requests[id]? = some request
  queued : some id ∈ s.client.threadPool_.queue_

section Reached

variable {id w n : Nat} {request : HttpRequest}
  (ih : ∀ k < n, ∀ {s : State}, Queued s id request → ∀ {p : Worker Nat},
    s.client.threadPool_.workers[w]? = some p → p ≠ .exited →
    5 * s.client.threadPool_.queue_.length + rank p = k → CallsLate s)

include ih

/-- A step of the worker that brings it nearer, with which no transfer begins. -/
theorem callsLate_of_nearer (h : Queued s id request) {b : Net.ThreadPool.Action Nat}
    {threadPool_ : Net.ThreadPool.State Nat} {p : Worker Nat} (hb : internal b = true)
    (hall : ∀ response ∈ s.responses, some response.runner = State.awaited (.pool b) →
      response.returned = true)
    (hbegun : ∀ response ∈ s.begun (.pool b), response.todo.ended = true)
    (hstep : s.client.threadPool_.step 0 b = some threadPool_)
    (hqueued : some id ∈ threadPool_.queue_) (hw : threadPool_.workers[w]? = some p)
    (hp : p ≠ .exited) (hn : 5 * threadPool_.queue_.length + rank p < n) : CallsLate s := by
  refine CallsLate.of_step (step_pool hb hall hstep) ?_
  refine ih _ hn ⟨h.cleaned, ?_, fun response hmem => ?_, h.request, hqueued⟩ hw hp rfl
  · show threadPool_.running_ = true
    rw [Net.ThreadPool.running_step hb hstep]
    exact h.running_
  · rcases List.mem_append.mp hmem with hmem | hmem
    · exact h.ended response hmem
    · exact hbegun response hmem

end Reached

/-- **A queued request is reached**: the worker `w` does what is before it. -/
theorem callsLate_of_queued {id : Nat} {request : HttpRequest}
    (hknown : request.requestType_ ≠ .UNKNOWN) {n : Nat} (h : Queued s id request) {w : Nat}
    {p : Worker Nat} (hw : s.client.threadPool_.workers[w]? = some p) (hp : p ≠ .exited)
    (hn : 5 * s.client.threadPool_.queue_.length + rank p = n) : CallsLate s := by
  -- on what the worker has before it: a round of its loop for each task in the queue, and the rest
  -- of the round it is in
  induction n using Nat.strongRecOn generalizing s p with
  | ind n ih =>
    have hlt := (List.getElem?_eq_some_iff.mp hw).1
    have hset : ∀ p' : Worker Nat, (s.client.threadPool_.workers.set w p')[w]? = some p' :=
      fun p' => List.getElem?_set_self hlt
    have hnone : ∀ b, State.awaited (.pool b) = none → ∀ response ∈ s.responses,
        some response.runner = State.awaited (.pool b) → response.returned = true := by
      intro b hb response _ hrunner
      rw [hb] at hrunner
      cases hrunner
    -- the head of the queue is popped
    have htake : p.locks = true → CallsLate s := by
      intro hlocks
      obtain ⟨task, rest, hq⟩ := List.exists_cons_of_ne_nil (List.ne_nil_of_mem h.queued)
      have hstep : s.client.threadPool_.step 0 (.take w none) = some { s.client.threadPool_ with
          queue_ := rest, workers := s.client.threadPool_.workers.set w (.took task),
          popped := s.client.threadPool_.popped ++ [(w, task)] } := by
        simp [Net.ThreadPool.State.step, Net.ThreadPool.State.take, hw, hlocks, hq]
      rcases List.mem_cons.mp (hq ▸ h.queued) with rfl | hrest
      -- it is the request, which is now in the hands of the worker
      · refine CallsLate.of_step (step_pool rfl (hnone _ rfl) hstep) ?_
        exact callsLate_of_held h.request hknown h.cleaned (hset _)
      -- it is another task, and the queue is shorter
      · refine callsLate_of_nearer ih h rfl (hnone _ rfl) (by simp [State.begun]) hstep hrest
          (hset _) nofun ?_
        rw [hq, List.length_cons] at hn
        simp only [rank]
        omega
    cases p with
    -- every other place leads on, towards the mutex
    | exited => exact absurd rfl hp
    | lock => exact htake rfl
    | woken notified => exact htake rfl
    | test =>
      have hstep : s.client.threadPool_.step 0 (.test w) = some { s.client.threadPool_ with
          workers := s.client.threadPool_.workers.set w .lock } := by
        simp [Net.ThreadPool.State.step, Net.ThreadPool.State.test, hw, h.running_]
      refine callsLate_of_nearer ih h rfl (hnone _ rfl) (by simp [State.begun]) hstep h.queued
        (hset _) nofun ?_
      simp only [rank] at hn ⊢
      omega
    -- nobody need notify it: it may wake by itself
    | waiting =>
      have hstep : s.client.threadPool_.step 0 (.wake w) = some { s.client.threadPool_ with
          workers := s.client.threadPool_.workers.set w (.woken false) } := by
        simp [Net.ThreadPool.State.step, Net.ThreadPool.State.wake, hw]
      refine callsLate_of_nearer ih h rfl (hnone _ rfl) (by simp [State.begun]) hstep h.queued
        (hset _) nofun ?_
      simp only [rank] at hn ⊢
      omega
    | took task =>
      cases task with
      | none =>
        have hstep : s.client.threadPool_.step 0 (.exec w) = some { s.client.threadPool_ with
            workers := s.client.threadPool_.workers.set w .test } := by
          simp [Net.ThreadPool.State.step, Net.ThreadPool.State.exec, hw]
        refine callsLate_of_nearer ih h rfl (hnone _ rfl) (by simp [State.begun, hw]) hstep h.queued
          (hset _) nofun ?_
        simp only [rank] at hn ⊢
        omega
      | some id' =>
        -- what it has popped may be a request that calls curl by itself
        by_cases htransfer : ∃ request', s.requests[id']? = some request' ∧
            request'.requestType_ ≠ .UNKNOWN
        · obtain ⟨request', hrequest', hknown'⟩ := htransfer
          exact callsLate_of_held hrequest' hknown' h.cleaned hw
        · -- another task, which makes no call
          have hbegun : ∀ response ∈ s.begun (.pool (.exec w)), response.todo.ended = true := by
            simp only [State.begun, hw]
            refine ended_process fun request' hrequest' => ?_
            by_contra hknown'
            exact htransfer ⟨request', hrequest', hknown'⟩
          have hstep : s.client.threadPool_.step 0 (.exec w) = some { s.client.threadPool_ with
              workers := s.client.threadPool_.workers.set w (.running id'),
              executed := s.client.threadPool_.executed ++ [(w, id')] } := by
            simp [Net.ThreadPool.State.step, Net.ThreadPool.State.exec, hw]
          refine callsLate_of_nearer ih h rfl (hnone _ rfl) hbegun hstep h.queued (hset _) nofun ?_
          simp only [rank] at hn ⊢
          omega
    -- the task it is in ends when its callback has returned, so that comes first
    | running t =>
      refine callsLate_of_callbacks h.ended fun s₁ hclient hrequests hended hreturned => ?_
      rw [← hclient] at hw hset hn
      have hstep : s₁.client.threadPool_.step 0 (.finish w) = some { s₁.client.threadPool_ with
          workers := s₁.client.threadPool_.workers.set w .test,
          finished := s₁.client.threadPool_.finished ++ [t] } := by
        simp [Net.ThreadPool.State.step, Net.ThreadPool.State.finish, hw]
      have h₁ : Queued s₁ id request :=
        ⟨hclient ▸ h.cleaned, hclient ▸ h.running_, hended, hrequests ▸ h.request,
          hclient ▸ h.queued⟩
      refine callsLate_of_nearer ih h₁ rfl (fun response hmem _ => hreturned response hmem)
        (by simp [State.begun]) hstep h₁.queued (hset _) nofun ?_
      simp only [rank] at hn ⊢
      omega

/-- A client that is not quiet has a transfer under way, or one to come. -/
theorem cases_of_not_quiet (h : s.quiet = false) :
    (∃ response ∈ s.responses, response.todo.ended = false) ∨
      (∀ response ∈ s.responses, response.todo.ended = true) ∧
        ∃ id request, some id ∈ s.client.threadPool_.tasks ∧ s.requests[id]? = some request ∧
          request.requestType_ ≠ .UNKNOWN := by
  -- `quiet` asks for two things, one of which fails
  by_cases hended : ∀ response ∈ s.responses, response.todo.ended = true
  · refine Or.inr ⟨hended, ?_⟩
    by_contra hnone
    have hq : s.quiet = true := by
      refine quiet_iff.mpr ⟨hended, fun id request hid hrequest => ?_⟩
      by_contra hknown
      exact hnone ⟨id, request, hid, hrequest, hknown⟩
    rw [h] at hq
    cases hq
  · left
    by_contra hnone
    refine hended fun response hmem => ?_
    by_contra hopen
    exact hnone ⟨response, hmem, Bool.eq_false_iff.mpr hopen⟩

/-- **Behind a cleanup that is not quiet curl can be called.** -/
theorem callsLate_of_cleanup (h : responses.Reachable s) (hq : s.quiet = false)
    (hs : responses.step s (.client .cleanup) = some s') : CallsLate s' := by
  have hs : s.step (.client .cleanup) = some s' := hs
  obtain ⟨-, -, c', hc, rfl⟩ := State.client_cases hs
  obtain ⟨hd, rfl⟩ := HttpClient.State.cleanup_cases hc
  rw [show s.begun .cleanup = [] from rfl, List.append_nil]
  rcases cases_of_not_quiet hq with ⟨response, hmem, hopen⟩ |
    ⟨hended, id, request, htask, hrequest, hknown⟩
  · obtain ⟨i, hi⟩ := List.mem_iff_getElem?.mp hmem
    exact callsLate_of_calls rfl hi ((h.inv allSteady_inductive response hmem).awaits hopen)
  · have hmanned := manned_of_reachable (reachable_client h) (by rw [hd]; rfl)
    rcases List.mem_append.mp htask with hqueued | hheld
    · -- the first worker gets there
      have hne : s.client.threadPool_.workers ≠ [] := by
        intro hnil
        rw [(hmanned.unmanned hnil).2.1] at hqueued
        cases hqueued
      obtain ⟨p, rest, hworkers⟩ := List.exists_cons_of_ne_nil hne
      have hr : s.client.threadPool_.running_ = true := by
        by_contra hdown
        exact hne (hmanned.down (Bool.eq_false_iff.mpr hdown)).2
      have hp : p ≠ .exited := hmanned.up p (by rw [hworkers]; exact List.mem_cons_self)
      have hw : s.client.threadPool_.workers[0]? = some p := by
        rw [hworkers]
        rfl
      exact callsLate_of_queued hknown ⟨rfl, hr, hended, hrequest, hqueued⟩ hw hp rfl
    -- a worker has it in its hands, and begins it next
    · obtain ⟨p, hmem, hid⟩ := List.mem_map.mp hheld
      obtain ⟨w, hw⟩ := List.mem_iff_getElem?.mp hmem
      cases p with
      | took task =>
        obtain rfl : task = some id := hid
        exact callsLate_of_held hrequest hknown rfl hw
      | _ => cases hid

/-! ## Curl is called before its cleanup

Both directions together. The two runs at the end are those the condition excludes: a transfer on a
detached thread and a request that a worker pops late. -/

/-- **No call of curl behind the cleanup, if all is quiet then.** In a run in which
`curl_global_cleanup` is called when no transfer is under way and no request of a known type is
queued or held, every call of curl comes before it. Otherwise, whatever the run was, some schedule
leads from that cleanup to a call. -/
theorem curl_before_cleanup (as : List Action) (s : State) (hrun : responses.run as = some s) :
    (responses.Meets (fun t a => quietCleanup t a = true) as →
      responses.Meets beforeCleanup as) ∧
      ∀ s', s.quiet = false → responses.step s (.client .cleanup) = some s' → CallsLate s' := by
  refine ⟨fun hok => ?_, fun s' hq hs => callsLate_of_cleanup ⟨as, hrun⟩ hq hs⟩
  refine Machine.Meets.of_run hrun fun pre a post t t' he ht hs => ?_
  rw [he] at hok
  have hcalm : Calm t := hok.of_append.inv calm_init (fun hI hok hs => hI.step hok hs) ht
  exact hcalm.beforeCleanup a hs

def getRequest : HttpRequest := { requestType_ := .GET, headers_ := [], uploadFilePath_ := "" }

/-- A client with one worker that is given one request. -/
def oneQueued : List Action :=
  [.client (.initThreadpool 1), .client (.pool .spawn), .client (.pool .pushBack),
    .client (.pool .spawn), .send getRequest, .client (.pool (.enter 0)),
    .client (.pool (.push 0 none)), .client (.pool (.test 0))]

/-- The worker does the transfer, and there is no handle. -/
def oneDone : List Action :=
  oneQueued ++ [.client (.pool (.take 0 none)), .client (.pool (.exec 0)), .curl 0 false,
    .client .destroy, .client .cleanup, .callback 0, .client (.pool (.finish 0))]

theorem curl_before_cleanup_oneDone :
    responses.Meets beforeCleanup oneDone ∧
      ∃ s s', responses.run (oneQueued ++ [.client .destroy]) = some s ∧
        responses.step s (.client .cleanup) = some s' ∧ CallsLate s' := by
  constructor
  · obtain ⟨s, hs⟩ := Option.isSome_iff_exists.mp
      (show (responses.run oneDone).isSome = true by decide)
    exact (curl_before_cleanup oneDone s hs).1 (by decide)
  · obtain ⟨s, hs⟩ := Option.isSome_iff_exists.mp
      (show (responses.run (oneQueued ++ [.client .destroy])).isSome = true by decide)
    have hend : (responses.run (oneQueued ++ [.client .destroy])).map (fun s =>
        (s.quiet, (responses.step s (.client .cleanup)).isSome)) = some (false, true) := by decide
    rw [hs, Option.map_some, Option.some.injEq, Prod.mk.injEq] at hend
    obtain ⟨hquiet, hcleanup⟩ := hend
    obtain ⟨s', hs'⟩ := Option.isSome_iff_exists.mp hcleanup
    exact ⟨s, s', hs, hs', (curl_before_cleanup _ s hs).2 s' hquiet hs'⟩

/-- The thread of `sendImmediate` begins when the client is gone. -/
def detachedLate : List Action :=
  [.sendImmediate getRequest, .client .destroy, .client .cleanup, .client .test, .curl 0 true]

/-- The worker pops the request before `stop` can. -/
def queuedLate : List Action :=
  oneQueued ++ [.client .destroy, .client .cleanup, .client (.pool (.take 0 none)),
    .client (.pool (.exec 0)), .curl 0 true]

theorem not_meets_of_cleaned (pre : List Action) {i : Nat} {ok : Bool}
    (h : (responses.run pre).map (fun s => s.client.dtor.cleaned) = some true) :
    ¬ responses.Meets beforeCleanup (pre ++ [.curl i ok]) := by
  intro hm
  obtain ⟨s, hs, hcleaned⟩ := Option.map_eq_some_iff.mp h
  have hbefore : s.client.dtor.cleaned = false := hm pre (.curl i ok) [] s rfl hs
  rw [hbefore] at hcleaned
  cases hcleaned

/-- **Curl is called behind its cleanup**, on a detached thread and on a worker. -/
theorem curl_behind_cleanup :
    ((responses.run detachedLate).isSome = true ∧
        ¬ responses.Meets beforeCleanup detachedLate) ∧
      (responses.run queuedLate).isSome = true ∧
        ¬ responses.Meets beforeCleanup queuedLate := by
  refine ⟨⟨by decide, ?_⟩, by decide, ?_⟩
  · exact not_meets_of_cleaned [.sendImmediate getRequest, .client .destroy, .client .cleanup,
      .client .test] (by decide)
  · exact not_meets_of_cleaned (oneQueued ++ [.client .destroy, .client .cleanup,
      .client (.pool (.take 0 none)), .client (.pool (.exec 0))]) (by decide)

end Responses

end HttpClient

end CppDone
