import CppDone.HttpClient.Responses
import CppDone.HttpClient.Shutdown

/-!
# `curl_global_cleanup` and the transfers

The body of `~HttpClient` cleans up curl before `threadPool_`, a member, is destroyed, and so before
any worker is joined; and nobody ever joins a detached thread. What is not through with its
transfer at that moment goes on with it afterwards, and a request that is still queued begins one.

So the condition is on one moment: that nothing is left to do for curl (`quiet`). It is enough,
since no request comes in any more: a client that is quiet stays so.
-/

set_option autoImplicit false

namespace CppDone

/-! ## Tasks that wait

A request is on its way to a transfer as long as its task is in the queue, or popped by a worker
that has not begun it. In the pool of a client that is being destroyed there is no call of `run`
left to bring another one. -/

namespace Net.ThreadPool

open HttpClient (internal)

variable {m : Nat} {s s' : State Nat}

/-- What is queued, and what the workers have popped and not begun. -/
def State.tasks {T : Type} (s : State T) : List (Option T) :=
  s.queue_ ++ s.workers.map Worker.held

theorem mem_map_held_set {T : Type} {workers : List (Worker T)} {w : Nat} {p : Worker T} {id : T}
    (h : some id ∈ (workers.set w p).map Worker.held) :
    some id ∈ workers.map Worker.held ∨ p.held = some id := by
  obtain ⟨p', hp', heq⟩ := List.mem_map.mp h
  rcases List.mem_or_eq_of_mem_set hp' with hmem | rfl
  · exact Or.inl (List.mem_map.mpr ⟨p', hmem, heq⟩)
  · exact Or.inr heq

/-- A pool that nobody calls gets no task that it did not have. -/
theorem tasks_of_returned (hret : ∀ c ∈ s.calls, c.pc = .returned) {a : Action Nat}
    (ha : internal a = true) (hs : s.step m a = some s') {id : Nat} (hid : some id ∈ s'.tasks) :
    some id ∈ s.tasks := by
  have hcaller := caller_of_returned hret hs
  have hmove : ∀ {w : Nat} {p : Worker Nat}, p.held = none →
      some id ∈ s.queue_ ++ (s.workers.set w p).map Worker.held → some id ∈ s.tasks := by
    intro w p hp hmem
    rcases List.mem_append.mp hmem with hmem | hmem
    · exact List.mem_append_left _ hmem
    · rcases mem_map_held_set hmem with hmem | heq
      · exact List.mem_append_right _ hmem
      · rw [hp] at heq
        cases heq
  cases a with
  | start | stop | run => cases ha
  | spawn | pushBack | join =>
    obtain ⟨-, hqueue, -, hworkers⟩ := control_frame rfl rfl hs
    rw [State.tasks, hqueue] at hid
    rcases hworkers with hworkers | hworkers
    · rw [hworkers] at hid
      exact hid
    · rw [hworkers, List.map_append, ← List.append_assoc] at hid
      rcases List.mem_append.mp hid with hid | hid
      · exact hid
      · cases List.mem_singleton.mp hid
  | enter | push | wakeCall | endCall => cases hcaller
  | test w =>
    obtain ⟨-, rfl⟩ := State.test_cases hs
    refine hmove ?_ hid
    split <;> rfl
  | take w notified =>
    obtain ⟨worker, -, -, ⟨-, -, rfl⟩ | ⟨-, -, rfl⟩ | ⟨task, queue_, calls, hq, -, rfl⟩⟩ :=
      State.take_cases hs
    · exact hmove rfl hid
    · exact hmove rfl hid
    · -- the popped task was the first of the queue
      rw [State.tasks, hq]
      rcases List.mem_append.mp hid with hid | hid
      · exact List.mem_append_left _ (List.mem_cons_of_mem _ hid)
      · rcases mem_map_held_set hid with hid | heq
        · exact List.mem_append_right _ hid
        · rw [show task = some id from heq]
          exact List.mem_append_left _ List.mem_cons_self
  | wake w =>
    obtain ⟨-, rfl⟩ := State.wake_cases hs
    exact hmove rfl hid
  | exec w =>
    rcases State.exec_cases hs with ⟨-, rfl⟩ | ⟨t, -, rfl⟩
    · exact hmove rfl hid
    · exact hmove rfl hid
  | finish w =>
    obtain ⟨t, -, rfl⟩ := State.finish_cases hs
    exact hmove rfl hid

end Net.ThreadPool

namespace HttpClient

/-! ### Behind `curl_global_cleanup`

The destructor calls it before it stops the pool. From there on the client takes no calls, and what
may go on is what was there at that moment. -/

/-- `curl_global_cleanup` was called. -/
def Dtor.cleaned : Dtor → Bool
  | .alive | .cleanup => false
  | .pool | .stop | .joining | .finished => true

/-- Nothing comes in behind the destructor. -/
theorem step_of_returned {c c' : State} (hd : c.dtor ≠ .alive)
    (hret : ∀ call ∈ c.threadPool_.calls, call.pc = .returned) {a : Action}
    (hs : c.step a = some c') :
    c'.dtor ≠ .alive ∧ c'.threadPool_.calls = c.threadPool_.calls ∧
      ∀ id, some id ∈ c'.threadPool_.tasks → some id ∈ c.threadPool_.tasks := by
  -- no `send` and no `initThreadpool`: the client is no longer there for them
  cases a with
  | initThreadpool n => exact absurd (State.initThreadpool_cases hs).1 hd
  | send => exact absurd (State.send_cases hs).1 hd
  | destroy => exact absurd (State.destroy_cases hs).1 hd
  | pool b =>
    obtain ⟨hb, threadPool_, hp, rfl⟩ := State.pool_cases hs
    exact ⟨hd, Net.ThreadPool.calls_of_returned hret hb hp,
      fun _ hid => Net.ThreadPool.tasks_of_returned hret hb hp hid⟩
  | cleanup =>
    obtain ⟨-, rfl⟩ := State.cleanup_cases hs
    exact ⟨nofun, rfl, fun _ hid => hid⟩
  | test =>
    obtain ⟨-, ⟨-, rfl⟩ | ⟨-, rfl⟩⟩ := State.test_cases hs
    · exact ⟨nofun, rfl, fun _ hid => hid⟩
    · exact ⟨nofun, rfl, fun _ hid => hid⟩
  | stop =>
    obtain ⟨-, threadPool_, hp, rfl⟩ := State.stop_cases hs
    obtain ⟨-, rfl⟩ := Net.ThreadPool.State.stop_cases hp
    refine ⟨nofun, rfl, fun id hid => ?_⟩
    rw [Net.ThreadPool.State.tasks,
      CondVar.map_notifyAll Net.ThreadPool.held_notify] at hid
    exact hid
  | joined =>
    obtain ⟨-, -, rfl⟩ := State.joined_cases hs
    exact ⟨nofun, rfl, fun _ hid => hid⟩

/-- The destruction begins when all calls have returned. -/
theorem step_of_alive {c c' : State} (hd : c.dtor = .alive) {a : Action}
    (hs : c.step a = some c') :
    c'.dtor = .alive ∨ c'.dtor = .cleanup ∧ ∀ call ∈ c'.threadPool_.calls, call.pc = .returned := by
  -- `destroy` is the only way out, and waits for the calls
  cases a with
  | initThreadpool n =>
    obtain ⟨-, threadPool_, -, rfl⟩ := State.initThreadpool_cases hs
    exact Or.inl hd
  | send =>
    obtain ⟨-, threadPool_, -, rfl⟩ := State.send_cases hs
    exact Or.inl hd
  | pool b =>
    obtain ⟨-, threadPool_, -, rfl⟩ := State.pool_cases hs
    exact Or.inl hd
  | destroy =>
    obtain ⟨-, -, hret, rfl⟩ := State.destroy_cases hs
    exact Or.inr ⟨rfl, hret⟩
  | cleanup =>
    rw [(State.cleanup_cases hs).1] at hd
    cases hd
  | test =>
    rw [(State.test_cases hs).1] at hd
    cases hd
  | stop =>
    rw [(State.stop_cases hs).1] at hd
    cases hd
  | joined =>
    rw [(State.joined_cases hs).1] at hd
    cases hd

/-- Only `cleanup` cleans up. -/
theorem cleaned_step {c c' : State} {a : Action} (hs : c.step a = some c')
    (hc : c'.dtor.cleaned = true) : c.dtor.cleaned = true ∨ a = .cleanup := by
  -- the destructor's later steps stand behind its cleanup
  cases a with
  | initThreadpool n =>
    obtain ⟨-, threadPool_, -, rfl⟩ := State.initThreadpool_cases hs
    exact Or.inl hc
  | send =>
    obtain ⟨-, threadPool_, -, rfl⟩ := State.send_cases hs
    exact Or.inl hc
  | pool b =>
    obtain ⟨-, threadPool_, -, rfl⟩ := State.pool_cases hs
    exact Or.inl hc
  | destroy =>
    obtain ⟨-, -, -, rfl⟩ := State.destroy_cases hs
    cases hc
  | cleanup => exact Or.inr rfl
  | test =>
    left
    rw [(State.test_cases hs).1]
    rfl
  | stop =>
    left
    rw [(State.stop_cases hs).1]
    rfl
  | joined =>
    left
    rw [(State.joined_cases hs).1]
    rfl

namespace Responses

open Net.ThreadPool (Worker)

variable {s s' : State}

/-- The task is a request of a known type. -/
def State.transfers (s : State) (task : Option Nat) : Bool :=
  (task.bind fun id => s.requests[id]?).any fun request => request.requestType_ ≠ .UNKNOWN

/-- Nobody is in a transfer, and no task that waits is one. A response whose transfer has ended may
still be in its callback, which calls nothing here. -/
def State.quiet (s : State) : Bool :=
  s.responses.all (fun response => response.todo.ended) &&
    s.client.threadPool_.tasks.all fun task => !s.transfers task

/-- `curl_global_cleanup` is called when all is quiet. -/
def quietCleanup (s : State) : Action → Bool
  | .client .cleanup => s.quiet
  | _ => true

/-- A call of curl comes before `curl_global_cleanup`. The constructor's `curl_global_init` is in
front of every run, and left out. -/
def beforeCleanup (s : State) : Action → Prop
  | .curl _ _ => s.client.dtor.cleaned = false
  | _ => True

theorem quiet_iff : s.quiet = true ↔
    (∀ response ∈ s.responses, response.todo.ended = true) ∧
      ∀ id request, some id ∈ s.client.threadPool_.tasks → s.requests[id]? = some request →
        request.requestType_ = .UNKNOWN := by
  rw [State.quiet, Bool.and_eq_true, List.all_eq_true, List.all_eq_true]
  refine and_congr_right fun _ => ⟨fun h id request hid hrequest => ?_, fun h task htask => ?_⟩
  · have hquiet := h _ hid
    simpa [State.transfers, hrequest] using hquiet
  · cases task with
    | none => rfl
    | some id =>
      cases hrequest : s.requests[id]? with
      | none => simp [State.transfers, hrequest]
      | some request => simp [State.transfers, hrequest, h id request htask hrequest]

/-! ## A quiet client stays quiet

The condition is asked for at the cleanup only. What carries it on is that the calls of the client
have returned by then, so that nothing is left to begin. -/

/-- What is so from the destruction on, and from the cleanup on. Nobody calls a client that is being
destroyed; and what is quiet when curl is cleaned up stays so. -/
structure Calm (s : State) : Prop where
  returned : s.client.dtor ≠ .alive → ∀ c ∈ s.client.threadPool_.calls, c.pc = .returned
  quiet : s.client.dtor.cleaned = true → s.quiet = true

theorem calm_init : Calm responses.init where
  returned h := absurd rfl h
  quiet h := by cases h

/-- A step in the life of the client. -/
theorem Calm.of_alive (h : s'.client.dtor = .alive) : Calm s' where
  returned hne := absurd h hne
  quiet hc := by
    rw [h] at hc
    cases hc

theorem ended_process {runner : Runner} {id : Nat}
    (h : ∀ request, s.requests[id]? = some request → request.requestType_ = .UNKNOWN) :
    ∀ response ∈ s.process runner id, response.todo.ended = true := by
  intro response hmem
  unfold State.process at hmem
  split at hmem
  · next request hrequest =>
    obtain rfl := List.mem_singleton.mp hmem
    show (processResponse request).ended = true
    rw [processResponse, h request hrequest]
    rfl
  · cases hmem

/-- What begins in a quiet client is no transfer. -/
theorem ended_begun (hq : s.quiet = true)
    (hret : ∀ c ∈ s.client.threadPool_.calls, c.pc = .returned) (a : HttpClient.Action) :
    ∀ response ∈ s.begun a, response.todo.ended = true := by
  intro response hmem
  unfold State.begun at hmem
  split at hmem
  · next w =>
    split at hmem
    · next id hw =>
      refine ended_process (fun request hrequest => ?_) response hmem
      refine (quiet_iff.mp hq).2 id request (List.mem_append_right _ ?_) hrequest
      exact List.mem_map.mpr ⟨_, List.mem_of_getElem? hw, rfl⟩
    · cases hmem
  · split at hmem
    · next id hc => cases hret _ (List.mem_of_getElem? hc)
    · cases hmem
  · cases hmem

/-- A step of the client, in its life or behind it. -/
theorem Calm.client (h : Calm s) {a : HttpClient.Action}
    (hok : quietCleanup s (.client a) = true) (hs : s.step (.client a) = some s') : Calm s' := by
  obtain ⟨-, -, c', hc, rfl⟩ := State.client_cases hs
  -- in the life of the client nothing is asked; behind it nothing comes in
  by_cases halive : s.client.dtor = .alive
  · rcases step_of_alive halive hc with halive' | ⟨hd, hret⟩
    · exact Calm.of_alive halive'
    · refine ⟨fun _ => hret, fun hcleaned => ?_⟩
      rw [show Dtor.cleaned c'.dtor = false by rw [hd]; rfl] at hcleaned
      cases hcleaned
  · have hret := h.returned halive
    obtain ⟨hne, hcalls, htasks⟩ := step_of_returned halive hret hc
    refine ⟨fun _ => ?_, fun hcleaned => ?_⟩
    · show ∀ c ∈ c'.threadPool_.calls, c.pc = .returned
      rw [hcalls]
      exact hret
    · have hq : s.quiet = true := by
        -- quiet already, or this is the cleanup, which the condition is about
        rcases cleaned_step hc hcleaned with hcleaned | rfl
        · exact h.quiet hcleaned
        · exact hok
      obtain ⟨hended, hknown⟩ := quiet_iff.mp hq
      refine quiet_iff.mpr ⟨fun response hmem => ?_, fun id request hid => ?_⟩
      · rcases List.mem_append.mp hmem with hmem | hmem
        · exact hended response hmem
        · exact ended_begun hq hret a response hmem
      · exact hknown id request (htasks id hid)

/-- A step of a response, or of a setting. -/
theorem Calm.frame (h : Calm s) (hc : s'.client = s.client) (hr : s'.requests = s.requests)
    (hended : s.quiet = true → ∀ response ∈ s'.responses, response.todo.ended = true) :
    Calm s' where
  returned := by
    rw [hc]
    exact h.returned
  quiet hcleaned := by
    rw [hc] at hcleaned
    have hq := h.quiet hcleaned
    refine quiet_iff.mpr ⟨hended hq, ?_⟩
    rw [hc, hr]
    exact (quiet_iff.mp hq).2

theorem Calm.step (h : Calm s) {a : Action} (hok : quietCleanup s a = true)
    (hs : s.step a = some s') : Calm s' := by
  have hquiet : s.quiet = true → ∀ response ∈ s.responses, response.todo.ended = true :=
    fun hq => (quiet_iff.mp hq).1
  -- a quiet client has no transfer that could go on
  cases a with
  | client a => exact h.client hok hs
  | send request =>
    obtain ⟨client, hc, rfl⟩ := State.send_cases hs
    obtain ⟨halive, threadPool_, -, rfl⟩ := HttpClient.State.send_cases hc
    exact Calm.of_alive halive
  | synSend request | sendImmediate request =>
    obtain ⟨halive, rfl⟩ := State.respond_cases hs
    exact Calm.of_alive halive
  | enableCookies cookieFile =>
    obtain ⟨cookieFilename_, rfl⟩ := State.enableCookies_cases hs
    exact h.frame rfl rfl hquiet
  | setSSLVerification caFile =>
    obtain rfl := State.setSSLVerification_cases hs
    exact h.frame rfl rfl hquiet
  | curl i ok =>
    obtain ⟨runner, instr, next, returned, hi, -, rfl⟩ := State.curl_cases hs
    refine h.frame rfl rfl fun hq => ?_
    cases hquiet hq _ (List.mem_of_getElem? hi)
  | read i =>
    obtain ⟨runner, instr, next, returned, answer, hi, -, rfl⟩ := State.read_cases hs
    refine h.frame rfl rfl fun hq => ?_
    cases hquiet hq _ (List.mem_of_getElem? hi)
  | callback i =>
    obtain ⟨runner, hi, rfl⟩ := State.callback_cases hs
    refine h.frame rfl rfl fun hq response hmem => ?_
    rcases List.mem_or_eq_of_mem_set hmem with hmem | rfl
    · exact hquiet hq response hmem
    · rfl

/-- In a calm client no call of curl comes behind the cleanup. -/
theorem Calm.beforeCleanup (h : Calm s) (a : Action) (hs : s.step a = some s') :
    beforeCleanup s a := by
  cases a with
  | curl i ok =>
    obtain ⟨runner, instr, next, returned, hi, -, -⟩ := State.curl_cases hs
    refine Bool.eq_false_iff.mpr fun hcleaned => ?_
    cases (quiet_iff.mp (h.quiet hcleaned)).1 _ (List.mem_of_getElem? hi)
  | _ => trivial

end Responses

end HttpClient

end CppDone
