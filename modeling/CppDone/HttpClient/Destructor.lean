import CppDone.HttpClient.LateCalls
import CppDone.HttpClient.PoolStops

/-!
# `~HttpClient` comes to its end

`Shutdown` says which requests a destruction leaves unanswered, and `Cleanup` that transfers go on
behind `curl_global_cleanup`. Here is that it ends at all, and everything with it.

Up to the section of `stop` the destructor waits for nobody. From there on every step that anybody
can take, the transfers on detached threads included, uses something up: a step of a worker or a
join brings the pool nearer to its end, and a call of the library or a callback a transfer to its
own. Only a worker that begins a task brings something, its transfer, and a request can have no
longer one than `longest`; so the steps of the pool count for so many more. Where no step is left
the client is gone and every callback has returned.

The calls of the library return, and so do the callbacks.
-/

set_option autoImplicit false

namespace CppDone.HttpClient

open Net.ThreadPool (Staffed Stopped Tracked)

variable {s s' : State}

/-! ## The controlling thread

The destructor is the one that stops the pool, and it does so once. So the loop of joins meets no
thread that is joined already, and cannot end in an exception. -/

/-- The pool of a client in a run is a pool in a run. -/
theorem reachable_pool (h : client.Reachable s) :
    (Net.ThreadPool.pool Nat 0).Reachable s.threadPool_ := by
  refine h.inv (I := fun s => (Net.ThreadPool.pool Nat 0).Reachable s.threadPool_)
    ⟨Machine.Reachable.init, fun {s a s'} h hs => ?_⟩
  have hpool : ∀ {b : Net.ThreadPool.Action Nat} {p : Net.ThreadPool.State Nat},
      s.threadPool_.step 0 b = some p → (Net.ThreadPool.pool Nat 0).Reachable p :=
    fun hp => h.step hp
  -- what the client does to its pool it does by a step of the pool
  cases a with
  | initThreadpool n =>
    obtain ⟨-, threadPool_, hp, rfl⟩ := State.initThreadpool_cases hs
    exact hpool hp
  | send =>
    obtain ⟨-, threadPool_, hp, rfl⟩ := State.send_cases hs
    exact hpool hp
  | pool b =>
    obtain ⟨-, threadPool_, hp, rfl⟩ := State.pool_cases hs
    exact hpool hp
  | destroy =>
    obtain ⟨-, -, -, rfl⟩ := State.destroy_cases hs
    exact h
  | cleanup =>
    obtain ⟨-, rfl⟩ := State.cleanup_cases hs
    exact h
  | test =>
    obtain ⟨-, ⟨-, rfl⟩ | ⟨-, rfl⟩⟩ := State.test_cases hs
    · exact h
    · exact h
  | stop =>
    obtain ⟨-, threadPool_, hp, rfl⟩ := State.stop_cases hs
    exact hpool hp
  | joined =>
    obtain ⟨-, -, rfl⟩ := State.joined_cases hs
    exact h

/-- A client stops its pool once: no thread is joined before, and none twice. The loop of joins then
finds its next thread unjoined, wherever it is; and until `stop` nobody is in that loop. -/
structure StopsOnce (s : State) : Prop where
  threw : s.threadPool_.control ≠ .threw
  before : s.dtor.stopped = false → ∀ thread ∈ s.threadPool_.threads_, thread.joined_ = false
  idle : s.dtor.stopped = false → ∀ i, s.threadPool_.control ≠ .joining i
  ahead : ∀ i, s.threadPool_.control = .joining i → ∀ j thread, i ≤ j →
    s.threadPool_.threads_[j]? = some thread → thread.joined_ = false
  waiting : s.dtor ≠ .alive → s.dtor.stopped = false → s.threadPool_.control = .idle

theorem stopsOnce_init : StopsOnce client.init where
  threw := nofun
  before _ _ h := by cases h
  idle _ _ := nofun
  ahead _ h := by cases h
  waiting h := absurd rfl h

/-- The destructor moves on, short of `stop`. -/
theorem StopsOnce.dtor (h : StopsOnce s) {dtor : Dtor} (hd : s.dtor.stopped = false)
    (hidle : s.threadPool_.control = .idle) : StopsOnce { s with dtor } where
  threw := h.threw
  before _ := h.before hd
  idle _ := h.idle hd
  ahead i hi := absurd hi (h.idle hd i)
  waiting _ _ := hidle

/-- The loop of joins gets to its next thread, and has not been there. -/
theorem StopsOnce.join (h : StopsOnce s) {threadPool_ : Net.ThreadPool.State Nat}
    (hp : s.threadPool_.join = some threadPool_) : StopsOnce { s with threadPool_ } := by
  obtain ⟨i, hi, hcases⟩ := Net.ThreadPool.State.join_cases hp
  have hstopped : s.dtor.stopped = true := by
    by_contra hst
    exact h.idle (Bool.eq_false_iff.mpr hst) i hi
  rcases hcases with ⟨-, rfl⟩ | ⟨thread, hthread, ⟨hjoined, -⟩ | ⟨-, -, rfl⟩⟩
  · exact ⟨nofun, h.before, fun _ _ => nofun, nofun, fun _ _ => rfl⟩
  · rw [h.ahead i hi i thread (Nat.le_refl i) hthread] at hjoined
    cases hjoined
  · refine ⟨nofun, fun hst => ?_, fun hst => ?_, fun j hj k thread' hle hk => ?_, fun _ hst => ?_⟩
    · rw [hstopped] at hst
      cases hst
    · rw [hstopped] at hst
      cases hst
    · obtain rfl := Net.ThreadPool.Control.joining.inj hj
      rcases getElem?_set_cases hk with ⟨rfl, -⟩ | ⟨-, hk⟩
      · exact absurd hle (Nat.not_succ_le_self k)
      · exact h.ahead i hi k thread' (Nat.le_of_succ_le hle) hk
    · rw [hstopped] at hst
      cases hst

/-- A step of the pool. Besides the joins nothing marks a thread. -/
theorem StopsOnce.pool (h : StopsOnce s) {b : Net.ThreadPool.Action Nat}
    {threadPool_ : Net.ThreadPool.State Nat} (hb : internal b = true)
    (hp : s.threadPool_.step 0 b = some threadPool_) : StopsOnce { s with threadPool_ } := by
  cases hctl : b.isControl with
  | false =>
    obtain ⟨-, hthreads, hcontrol, -⟩ := Net.ThreadPool.State.step_frame hctl hp
    constructor
    · show threadPool_.control ≠ .threw
      rw [hcontrol]
      exact h.threw
    · show s.dtor.stopped = false → ∀ thread ∈ threadPool_.threads_, thread.joined_ = false
      rw [hthreads]
      exact h.before
    · show s.dtor.stopped = false → ∀ i, threadPool_.control ≠ .joining i
      rw [hcontrol]
      exact h.idle
    · show ∀ i, threadPool_.control = .joining i → ∀ j thread, i ≤ j →
        threadPool_.threads_[j]? = some thread → thread.joined_ = false
      rw [hcontrol, hthreads]
      exact h.ahead
    · show s.dtor ≠ .alive → s.dtor.stopped = false → threadPool_.control = .idle
      rw [hcontrol]
      exact h.waiting
  | true =>
    -- the controlling thread moves, so it is not idle
    have hbusy : s.dtor ≠ .alive → s.dtor.stopped = false → False := fun hd hst =>
      Bool.false_ne_true ((Net.ThreadPool.control_of_idle (h.waiting hd hst) hb hp).symm.trans hctl)
    cases b with
    | start | stop => cases hb
    | spawn =>
      rcases Net.ThreadPool.State.spawn_cases hp with ⟨-, rfl⟩ | ⟨turns, -, rfl⟩
      · exact ⟨nofun, h.before, fun _ _ => nofun, nofun, fun _ _ => rfl⟩
      · exact ⟨nofun, h.before, fun _ _ => nofun, nofun, fun hd hst => (hbusy hd hst).elim⟩
    | pushBack =>
      obtain ⟨w, turns, -, rfl⟩ := Net.ThreadPool.State.pushBack_cases hp
      refine ⟨nofun, fun hst thread hmem => ?_, fun _ _ => nofun, nofun,
        fun hd hst => (hbusy hd hst).elim⟩
      rcases List.mem_append.mp hmem with hmem | hmem
      · exact h.before hst thread hmem
      · rw [List.mem_singleton.mp hmem]
    | join => exact h.join hp
    | run | enter | push | wakeCall | endCall | test | take | wake | exec | finish => cases hctl

/-- `stop` is called by the destructor and by nobody else, so it is called once. -/
theorem stopsOnce_inductive : client.Inductive StopsOnce where
  init := stopsOnce_init
  step {s a s'} h hs := by
    -- only `~ThreadPool` stops the pool, so the first join that finds a joined thread is out of
    -- reach
    cases a with
    | initThreadpool n =>
      obtain ⟨hd, threadPool_, hp, rfl⟩ := State.initThreadpool_cases hs
      obtain ⟨-, rfl⟩ := Net.ThreadPool.State.start_cases hp
      exact ⟨nofun, h.before, fun _ _ => nofun, nofun, fun hne => absurd hd hne⟩
    | send =>
      obtain ⟨hd, threadPool_, hp, rfl⟩ := State.send_cases hs
      obtain rfl := Net.ThreadPool.State.run_cases hp
      exact ⟨h.threw, h.before, h.idle, h.ahead, h.waiting⟩
    | pool b =>
      obtain ⟨hb, threadPool_, hp, rfl⟩ := State.pool_cases hs
      exact h.pool hb hp
    | destroy =>
      obtain ⟨hd, hidle, -, rfl⟩ := State.destroy_cases hs
      exact h.dtor (by rw [hd]; rfl) hidle
    | cleanup =>
      obtain ⟨hd, rfl⟩ := State.cleanup_cases hs
      have hst : s.dtor.stopped = false := by rw [hd]; rfl
      exact h.dtor hst (h.waiting (by rw [hd]; exact nofun) hst)
    | test =>
      obtain ⟨hd, hcases⟩ := State.test_cases hs
      have hst : s.dtor.stopped = false := by rw [hd]; rfl
      have hidle := h.waiting (by rw [hd]; exact nofun) hst
      rcases hcases with ⟨-, rfl⟩ | ⟨-, rfl⟩
      · exact h.dtor hst hidle
      · exact h.dtor hst hidle
    | stop =>
      obtain ⟨hd, threadPool_, hp, rfl⟩ := State.stop_cases hs
      have hst : s.dtor.stopped = false := by rw [hd]; rfl
      obtain ⟨-, rfl⟩ := Net.ThreadPool.State.stop_cases hp
      exact ⟨nofun, nofun, nofun,
        fun _ _ j thread _ hj => h.before hst thread (List.mem_of_getElem? hj), fun _ => nofun⟩
    -- the joins are through, and nothing is asked of a pool that is gone
    | joined =>
      obtain ⟨hd, hidle, rfl⟩ := State.joined_cases hs
      refine ⟨h.threw, nofun, nofun, fun i hi => ?_, fun _ => nofun⟩
      rw [show s.threadPool_.control = .joining i from hi] at hidle
      cases hidle

/-! ### Behind `stop`

The pool is stopped and nobody calls `run` any more, so what is known of a stopped pool applies to
every state from here on. -/

/-- What holds once `stop` has cleared `running_`, or there was no pool to stop. From here on the
pool is one that is stopped and has nobody to call it, so that its own bound applies. -/
structure Closing (s : State) : Prop where
  dtor : s.dtor.stopped = true
  returned : ∀ c ∈ s.threadPool_.calls, c.pc = .returned
  stopped : Stopped s.threadPool_
  staffed : Staffed s.threadPool_
  threw : s.threadPool_.control ≠ .threw

/-- What is known of every run, read at a state behind the section of `stop`. -/
theorem Closing.of_reachable (h : client.Reachable s) (hd : s.dtor.stopped = true) :
    Closing s := by
  have hpool := reachable_pool h
  obtain ⟨as, has⟩ := h
  have hledger := ledger_of_run has
  have hr := hledger.stopped hd
  refine ⟨hd, hledger.returned ?_, Stopped.of_reachable hpool hr,
    (hpool.inv Net.ThreadPool.staffed_inductive).2, ?_⟩
  · intro halive
    rw [halive] at hd
    cases hd
  · exact (Machine.Reachable.inv stopsOnce_inductive ⟨as, has⟩).threw

/-- Nothing is left to the pool but the steps of its workers and the joins. -/
theorem Closing.works (h : Closing s) {b : Net.ThreadPool.Action Nat} (hb : internal b = true)
    {threadPool_ : Net.ThreadPool.State Nat} (hp : s.threadPool_.step 0 b = some threadPool_) :
    b.works = true := by
  have hcaller := Net.ThreadPool.caller_of_returned h.returned hp
  cases b with
  | start | stop | run => cases hb
  | spawn =>
    rcases Net.ThreadPool.State.spawn_cases hp with ⟨hc, -⟩ | ⟨turns, hc, -⟩
    · exact absurd hc (h.stopped.starting _)
    · exact absurd hc (h.stopped.starting _)
  | pushBack =>
    obtain ⟨w, turns, hc, -⟩ := Net.ThreadPool.State.pushBack_cases hp
    exact absurd hc (h.stopped.pushing w turns)
  | enter | push | wakeCall | endCall => cases hcaller
  | join | test | take | wake | exec | finish => rfl

/-- Without callers the pool only gets nearer to its end. -/
theorem Closing.pool (h : Closing s) {b : Net.ThreadPool.Action Nat} (hb : internal b = true)
    {threadPool_ : Net.ThreadPool.State Nat} (hp : s.threadPool_.step 0 b = some threadPool_) :
    threadPool_.load + 1 ≤ s.threadPool_.load := by
  have hlife : b.life = false := by
    cases b with
    | start | stop => cases hb
    | _ => rfl
  have hle := (h.stopped.step hlife hp).2
  rwa [if_pos (h.works hb hp)] at hle

namespace Responses

variable {s s' : State}

/-! ## What is left to do

The pool's own measure counts the steps of its workers. A step that begins a transfer brings the
calls of that transfer with it, at most as many as the longest one has; so each step of the pool is
counted for one more than that. -/

/-- The calls of a transfer, and its callback. Both are there until the callback has returned. -/
def Response.load (response : Response) : Nat :=
  response.todo.depth + if response.returned then 0 else 1

/-- The longest transfer there can be. -/
def State.longest (s : State) : Nat :=
  s.requests.foldr (fun request n => max (processResponse request).depth n) 0

/-- The steps of the pool count for the transfers they may begin, and those that are under way by
their own length. -/
def State.load (s : State) : Nat :=
  (s.longest + 2) * s.client.threadPool_.load + total Response.load s.responses +
    if s.client.dtor = .joining then 1 else 0

theorem depth_le_longest {requests : List HttpRequest} {request : HttpRequest}
    (h : request ∈ requests) : (processResponse request).depth ≤
      requests.foldr (fun request n => max (processResponse request).depth n) 0 := by
  induction requests with
  | nil => cases h
  | cons first requests ih =>
    rcases List.mem_cons.mp h with rfl | h
    · exact Nat.le_max_left _ _
    · exact Nat.le_trans (ih h) (Nat.le_max_right _ _)

/-! ### Each step costs

A step of the pool may begin a transfer, and its price is in the load of the pool; a step of a
transfer is paid from its own length. So there is no step for nothing. -/

theorem load_process (s : State) (runner : Runner) (id : Nat) :
    total Response.load (s.process runner id) ≤ s.longest + 1 := by
  unfold State.process
  split
  · next request hrequest =>
    have hle : (processResponse request).depth ≤ s.longest :=
      depth_le_longest (List.mem_of_getElem? hrequest)
    simpa [Response.load] using hle
  · exact Nat.zero_le _

/-- A step begins one transfer at most. -/
theorem load_begun (s : State) (a : HttpClient.Action) :
    total Response.load (s.begun a) ≤ s.longest + 1 := by
  unfold State.begun
  split
  · split
    · exact load_process s _ _
    · exact Nat.zero_le _
  · split
    · split
      · exact load_process s _ _
      · exact Nat.zero_le _
    · exact Nat.zero_le _
  · exact Nat.zero_le _

/-- One transfer goes on. -/
theorem load_set {i : Nat} {response response' : Response} (hi : s.responses[i]? = some response)
    (hlt : response'.load + 1 ≤ response.load) :
    ({ s with responses := s.responses.set i response' } : State).load + 1 ≤ s.load := by
  have hsum := total_set_add Response.load hi response'
  show (s.longest + 2) * s.client.threadPool_.load +
    total Response.load (s.responses.set i response') +
      (if s.client.dtor = .joining then 1 else 0) + 1 ≤ _
  unfold State.load
  omega

theorem load_next {runner : Runner} {instr : Instr} {next : Bool → Transfer Unit} {returned : Bool}
    (answer : Bool) : Response.load { runner, todo := next answer, returned } + 1 ≤
      Response.load { runner, todo := .instr instr next, returned } := by
  have hdepth := Program.depth_next instr next answer
  simp only [Response.load]
  omega

/-- A step of the client behind `stop` may begin a transfer, which was priced in the load of the
pool. -/
theorem load_client {client : HttpClient.State} (hclosing : Closing s.client)
    {a : HttpClient.Action} (hc : s.client.step a = some client) :
    client.dtor.stopped = true ∧
      ({ s with client, responses := s.responses ++ s.begun a } : State).load + 1 ≤ s.load := by
  have hst := hclosing.dtor
  cases a with
  | initThreadpool n =>
    rw [(HttpClient.State.initThreadpool_cases hc).1] at hst
    cases hst
  | send =>
    rw [(HttpClient.State.send_cases hc).1] at hst
    cases hst
  | destroy =>
    rw [(HttpClient.State.destroy_cases hc).1] at hst
    cases hst
  | cleanup =>
    rw [(HttpClient.State.cleanup_cases hc).1] at hst
    cases hst
  | test =>
    rw [(HttpClient.State.test_cases hc).1] at hst
    cases hst
  | stop =>
    rw [(HttpClient.State.stop_cases hc).1] at hst
    cases hst
  | pool b =>
    obtain ⟨hb, threadPool_, hp, rfl⟩ := HttpClient.State.pool_cases hc
    refine ⟨hst, ?_⟩
    -- what the step begins is less than what a step of the pool counts for
    have hpool := Nat.mul_le_mul_left (s.longest + 2) (hclosing.pool hb hp)
    have hbegun := load_begun s (.pool b)
    rw [Nat.mul_succ] at hpool
    show (s.longest + 2) * threadPool_.load + total Response.load (s.responses ++ _) +
      (if s.client.dtor = .joining then 1 else 0) + 1 ≤ _
    rw [total_append]
    unfold State.load
    omega
  | joined =>
    obtain ⟨hd, -, rfl⟩ := HttpClient.State.joined_cases hc
    refine ⟨rfl, ?_⟩
    show (s.longest + 2) * s.client.threadPool_.load +
      total Response.load (s.responses ++ []) + 0 + 1 ≤ _
    have hone : (if s.client.dtor = .joining then 1 else 0) = 1 := if_pos hd
    unfold State.load
    rw [List.append_nil]
    omega

/-- Past the section of `stop`, in a run. -/
structure Ending (s : State) : Prop where
  reachable : responses.Reachable s
  stopped : s.client.dtor.stopped = true

theorem Ending.closing (h : Ending s) : Closing s.client :=
  Closing.of_reachable (reachable_client h.reachable) h.stopped

/-- **From the section of `stop` on every step uses something up**, whoever takes it. -/
theorem Ending.step (h : Ending s) {a : Action} (hs : responses.step s a = some s') :
    Ending s' ∧ s'.load + 1 ≤ s.load := by
  suffices hboth : s'.client.dtor.stopped = true ∧ s'.load + 1 ≤ s.load from
    ⟨⟨h.reachable.step hs, hboth.1⟩, hboth.2⟩
  have hst := h.stopped
  have hdead : s.client.dtor ≠ .alive := by
    intro halive
    rw [halive] at hst
    cases hst
  -- the members that use the client need it alive
  cases a with
  -- a step of the pool; it may begin a transfer, whose steps it has been counted with
  | client a =>
    obtain ⟨-, -, client, hc, rfl⟩ := State.client_cases hs
    exact load_client h.closing hc
  | send request =>
    obtain ⟨client, hc, -⟩ := State.send_cases hs
    exact absurd (HttpClient.State.send_cases hc).1 hdead
  | synSend request | sendImmediate request =>
    exact absurd (State.respond_cases hs).1 hdead
  | enableCookies cookieFile =>
    exact absurd (Option.ite_none_right_eq_some.mp hs).1 hdead
  | setSSLVerification caFile =>
    exact absurd (Option.ite_none_right_eq_some.mp hs).1 hdead
  -- a transfer is one call nearer to its end, whatever the answer is
  | curl i ok =>
    obtain ⟨runner, instr, next, returned, hi, -, rfl⟩ := State.curl_cases hs
    exact ⟨hst, load_set hi (load_next ok)⟩
  | read i =>
    obtain ⟨runner, instr, next, returned, answer, hi, -, rfl⟩ := State.read_cases hs
    exact ⟨hst, load_set hi (load_next answer)⟩
  | callback i =>
    obtain ⟨runner, hi, rfl⟩ := State.callback_cases hs
    exact ⟨hst, load_set hi (Nat.le_refl 1)⟩

/-! ## Where no step is left

Every transfer under way has a step, its next call or its callback. If there is none, all callbacks
have returned, nobody has to be waited for, and the pool could go on if it were not through. -/

/-- A transfer under way can go on. -/
theorem response_goes {i : Nat} {response : Response} (hi : s.responses[i]? = some response)
    (hopen : response.returned = false) : ∃ a s', responses.step s a = some s' := by
  obtain ⟨runner, todo, returned⟩ := response
  obtain rfl : returned = false := hopen
  cases todo with
  | ret a => exact ⟨.callback i, _, by simp only [responses, State.step, State.callback, hi]; rfl⟩
  | instr instr next =>
    cases hcurl : instr.curl with
    | true =>
      exact ⟨.curl i true, _, by
        simp only [responses, State.step, State.curl, hi, hcurl, if_true]; rfl⟩
    | false =>
      obtain ⟨answer, hanswer⟩ : ∃ answer, s.reads instr = some answer := by
        cases instr with
        | getCookieFilename | getSSLVerification | fopen => exact ⟨_, rfl⟩
        | _ => cases hcurl
      exact ⟨.read i, _, by
        simp only [responses, State.step, State.read, hi, hanswer, Option.map_some]; rfl⟩

theorem internal_of_works {b : Net.ThreadPool.Action Nat} (h : b.works = true) :
    internal b = true := by
  cases b with
  | test | take | wake | exec | finish | join => rfl
  | _ => cases h

/-- The destructor goes on if nobody has to be waited for. -/
theorem step_client {a : HttpClient.Action} {client : HttpClient.State} (hne : a ≠ .send)
    (ha : State.awaited a = none) (hc : s.client.step a = some client) :
    ∃ s', responses.step s (.client a) = some s' := by
  have hfree : (s.responses.all fun response =>
      response.returned || some response.runner ≠ State.awaited a) = true := by
    refine List.all_eq_true.mpr fun response _ => ?_
    simp [ha]
  have hs : s.clientStep a =
      some { s with client, responses := s.responses ++ s.begun a } := by
    unfold State.clientStep
    rw [if_pos hfree, hc]
    rfl
  cases a with
  | send => exact absurd rfl hne
  | _ => exact ⟨_, hs⟩

/-- The client is gone, and every transfer is through with its callback. -/
def Gone (s : State) : Prop :=
  s.client.dtor = .finished ∧ ∀ response ∈ s.responses, response.returned = true

/-- Where no step is left, the joins are done and no transfer waits for curl or for its callback. -/
theorem Ending.still (h : Ending s) (hstill : ∀ a, responses.step s a = none) : Gone s := by
  have hno : ¬ ∃ a s', responses.step s a = some s' := by
    rintro ⟨a, s', hs⟩
    cases (hstill a).symm.trans hs
  have hreturned : ∀ response ∈ s.responses, response.returned = true := by
    intro response hmem
    obtain ⟨i, hi⟩ := List.mem_iff_getElem?.mp hmem
    by_contra hopen
    exact hno (response_goes hi (Bool.eq_false_iff.mpr hopen))
  refine ⟨?_, hreturned⟩
  have hclosing := h.closing
  have hst := h.stopped
  cases hd : s.client.dtor with
  | finished => rfl
  | alive | cleanup | pool | stop =>
    rw [hd] at hst
    cases hst
  | joining =>
    obtain ⟨as, has⟩ := reachable_client h.reachable
    rcases (ledger_of_run has).stopping hd with ⟨i, hi⟩ | ⟨hidle, -⟩ | hthrew
    · -- a join, or the worker it waits for
      obtain ⟨b, p, hworks, hp⟩ := hclosing.stopped.goes (m := 0) hclosing.staffed hi
      exact (hno ⟨_, _, step_pool (internal_of_works hworks)
        (fun response hmem _ => hreturned response hmem) hp⟩).elim
    · obtain ⟨s', hs'⟩ := step_client (s := s) (a := .joined) nofun rfl
        (show s.client.joined = _ by rw [HttpClient.State.joined, if_pos ⟨hd, hidle⟩])
      exact (hno ⟨_, s', hs'⟩).elim
    · exact absurd hthrew hclosing.threw

/-! ## From its beginning

Cleaning up, the test of `running_` and the section of `stop` are steps of the destructor that
nothing has to come before. What is behind them is bounded by what is left to do. -/

/-- How many steps the destructor is from the end of the section of `stop`. -/
def ahead : Dtor → Nat
  | .cleanup => 3
  | .pool => 2
  | .stop => 1
  | _ => 0

theorem dtor_step {a : HttpClient.Action} (ha : a = .cleanup ∨ a = .test ∨ a = .stop)
    {client : HttpClient.State} (hc : s.client.step a = some client) :
    ∃ s', responses.step s (.client a) = some s' ∧ s'.client = client := by
  obtain ⟨s', hs'⟩ : ∃ s', responses.step s (.client a) = some s' := by
    rcases ha with rfl | rfl | rfl
    · exact step_client nofun rfl hc
    · exact step_client nofun rfl hc
    · exact step_client nofun rfl hc
  obtain ⟨-, -, client', hc', rfl⟩ := State.client_cases hs'
  exact ⟨_, hs', Option.some.inj (hc'.symm.trans hc)⟩

/-- The destructor waits for nobody before the joins. -/
theorem dtor_goes (h : responses.Reachable s) (hd : s.client.dtor ≠ .alive)
    (hst : s.client.dtor.stopped = false) :
    ∃ a s', (a = .cleanup ∨ a = .test ∨ a = .stop) ∧ responses.step s (.client a) = some s' ∧
      s'.client.dtor ≠ .alive ∧ ahead s'.client.dtor < ahead s.client.dtor := by
  cases hdtor : s.client.dtor with
  | alive => exact absurd hdtor hd
  | joining | finished =>
    rw [hdtor] at hst
    cases hst
  | cleanup =>
    obtain ⟨s', hs', hc⟩ := dtor_step (s := s) (.inl rfl)
      (show s.client.cleanup = _ by rw [HttpClient.State.cleanup, if_pos hdtor])
    refine ⟨.cleanup, s', .inl rfl, hs', ?_⟩
    rw [hc]
    exact ⟨nofun, Nat.lt_succ_self 2⟩
  | pool =>
    -- `~ThreadPool` looks at `running_`; either way it has gone on
    cases hr : s.client.threadPool_.running_ with
    | true =>
      obtain ⟨s', hs', hc⟩ := dtor_step (s := s) (.inr (.inl rfl))
        (show s.client.test = _ by rw [HttpClient.State.test, if_pos hdtor, hr, if_pos rfl])
      refine ⟨.test, s', .inr (.inl rfl), hs', ?_⟩
      rw [hc]
      exact ⟨nofun, Nat.lt_succ_self 1⟩
    | false =>
      obtain ⟨s', hs', hc⟩ := dtor_step (s := s) (.inr (.inl rfl))
        (show s.client.test = _ by
          rw [HttpClient.State.test, if_pos hdtor, hr, if_neg Bool.false_ne_true])
      refine ⟨.test, s', .inr (.inl rfl), hs', ?_⟩
      rw [hc]
      exact ⟨nofun, Nat.zero_lt_two⟩
  | stop =>
    -- `stop` can begin, since nobody else has control of the pool
    have hidle := (Machine.Reachable.inv stopsOnce_inductive (reachable_client h)).waiting hd hst
    obtain ⟨p, hp⟩ : ∃ p, s.client.threadPool_.stop = some p :=
      ⟨_, by rw [Net.ThreadPool.State.stop, if_pos hidle]⟩
    obtain ⟨s', hs', hc⟩ := dtor_step (s := s) (.inr (.inr rfl))
      (show s.client.stop = _ by
        rw [HttpClient.State.stop, if_pos hdtor, hp, Option.map_some])
    refine ⟨.stop, s', .inr (.inr rfl), hs', ?_⟩
    rw [hc]
    exact ⟨nofun, Nat.zero_lt_one⟩

/-- From the call of the destructor on there is a way to the section of `stop`, whatever is under
way. -/
theorem leads_to_stopped (h : responses.Reachable s) (hd : s.client.dtor ≠ .alive) :
    ∃ t, responses.Leads (fun _ => True) s t ∧ Ending t := by
  have hend : ∃ t, responses.Leads (fun _ => True) s t ∧
      (responses.Reachable t ∧ t.client.dtor ≠ .alive) ∧ t.client.dtor.stopped = true := by
    refine Machine.leads_of_measure (fun s => ahead s.client.dtor) (fun s hI hnot => ?_) ⟨h, hd⟩
    obtain ⟨a, s', -, hs', hdead, hlt⟩ := dtor_goes hI.1 hI.2 (Bool.eq_false_iff.mpr hnot)
    exact ⟨_, s', trivial, hs', ⟨hI.1.step hs', hdead⟩, hlt⟩
  obtain ⟨t, ht, hI, hst⟩ := hend
  exact ⟨t, ht, hI.1, hst⟩

/-- **The destruction of a client comes to its end, and every transfer with it**, whatever the
calls of the library answer. Up to the section of `stop` the destructor can always go on; behind it
a run has at most `load` steps, of whomever, and where no step is possible any more the client is
gone and every callback has returned. -/
theorem destruction_ends (s : State) (h : responses.Reachable s) (hd : s.client.dtor ≠ .alive) :
    (s.client.dtor.stopped = false →
      ∃ a s', (a = .cleanup ∨ a = .test ∨ a = .stop) ∧ responses.step s (.client a) = some s') ∧
    (s.client.dtor.stopped = true → ∀ as t, responses.runFrom s as = some t →
      as.length + t.load ≤ s.load ∧ ((∀ a, responses.step t a = none) → Gone t)) ∧
    ∃ as t, responses.runFrom s as = some t ∧ Gone t := by
  refine ⟨fun hst => ?_, fun hst as t hr => ?_, ?_⟩
  · obtain ⟨a, s', ha, hs', -⟩ := dtor_goes h hd hst
    exact ⟨a, s', ha, hs'⟩
  · have hle := Machine.countP_le_of_measure (I := Ending) (fun _ => true) State.load
      (fun hI _ hs => by simpa using hI.step hs) (fun _ _ => trivial) ⟨h, hst⟩ hr
    have hend : Ending t :=
      Machine.runFrom_inv (fun hI hs => (Ending.step hI hs).1) ⟨h, hst⟩ hr
    rw [List.countP_true] at hle
    exact ⟨hle, hend.still⟩
  · obtain ⟨t, ht, hend⟩ := leads_to_stopped h hd
    obtain ⟨u, hu, -, hgone⟩ : ∃ u, responses.Leads (fun _ => True) t u ∧ Ending u ∧ Gone u :=
      Machine.leads_of_still State.load (fun hI _ hs => hI.step hs)
        (fun hI hstill => hI.still fun a => hstill a trivial) hend
    obtain ⟨as, has, -⟩ := ht.trans hu
    exact ⟨as, u, has, hgone⟩

/-- `stop` is in its joins when the worker has popped a request and not begun it, and a detached
thread has not come to its transfer either. -/
def stoppedPopped : List Action :=
  .sendImmediate getRequest :: oneQueued ++ [.client .destroy, .client .cleanup,
    .client (.pool (.take 0 none)), .client .test, .client .stop]

theorem destruction_ends_stoppedPopped :
    ∃ s as t, responses.run stoppedPopped = some s ∧ s.client.dtor = .joining ∧
      s.responses.length = 1 ∧ responses.runFrom s as = some t ∧ Gone t := by
  obtain ⟨s, hs⟩ := Option.isSome_iff_exists.mp
    (show (responses.run stoppedPopped).isSome = true by decide)
  have hend : (responses.run stoppedPopped).map
      (fun s => (s.client.dtor, s.responses.length)) = some (.joining, 1) := by decide
  rw [hs, Option.map_some, Option.some.injEq, Prod.mk.injEq] at hend
  obtain ⟨hd, hlen⟩ := hend
  obtain ⟨as, t, has, hgone⟩ :=
    (destruction_ends s ⟨stoppedPopped, hs⟩ (by rw [hd]; exact nofun)).2.2
  exact ⟨s, as, t, hs, hd, hlen, has, hgone⟩

end Responses

end CppDone.HttpClient
