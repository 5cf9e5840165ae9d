import CppDone.HttpClient.ThreadPool

/-!
# `HttpClient`: sending and destruction

The part of `http_client.cpp` that decides whether a request is answered: `initThreadpool`,
`send`, which hands the request to the pool as a task, and `~HttpClient`, whose body cleans up
curl and whose end destroys `threadPool_`.

A request is known by its number, the number of the `send` that brought it; its task is
`processResponse` with that request, which does the transfer and then calls the request's
callback. The end of the task is the return of the callback, so the pool's `finished` are the
answered requests, in the order in which they were answered. What the transfer does is left out:
it ends, and the callback does not throw.

Destruction begins when every `send` has returned. `HttpClient` never sets `maxQueueSize_`.
-/

set_option autoImplicit false

namespace CppDone.HttpClient

open Net

/-- Where the destruction of the client is. Its body ends with `cleanup`; the rest is the
destruction of the member `threadPool_`. -/
inductive Dtor where
  | alive
  | cleanup  -- at `curl_global_cleanup()`
  | pool  -- in `~ThreadPool`, at `if (running_)`
  | stop  -- in `stop`, about to lock
  | joining
  | finished
deriving DecidableEq, Repr

structure State where
  threadPool_ : ThreadPool.State Nat
  dtor : Dtor
deriving DecidableEq, Repr

inductive Action where
  | initThreadpool (threadnum : Nat)
  | send
  | pool (a : ThreadPool.Action Nat)
  | destroy
  | cleanup
  | test
  | stop
  | joined
deriving DecidableEq, Repr

/-- The steps of the pool that go on by themselves. -/
def internal : ThreadPool.Action Nat → Bool
  | .start _ | .stop | .run _ => false
  | _ => true

namespace State

variable (s : State)

/-- The requests sent so far. -/
def sent : Nat := s.threadPool_.calls.length

/-- The requests whose callback was called. -/
def answered : List Nat := s.threadPool_.finished

def initThreadpool (threadnum : Nat) : Option State :=
  if s.dtor = .alive then
    (s.threadPool_.start threadnum).map fun threadPool_ => { s with threadPool_ }
  else none

def send : Option State :=
  if s.dtor = .alive then
    (s.threadPool_.run (some s.sent)).map fun threadPool_ => { s with threadPool_ }
  else none

def pool (a : ThreadPool.Action Nat) : Option State :=
  if internal a then (s.threadPool_.step 0 a).map fun threadPool_ => { s with threadPool_ }
  else none

def destroy : Option State :=
  if s.dtor = .alive ∧ s.threadPool_.control = .idle ∧ ∀ c ∈ s.threadPool_.calls, c.pc = .returned
  then some { s with dtor := .cleanup }
  else none

def cleanup : Option State :=
  if s.dtor = .cleanup then some { s with dtor := .pool } else none

/-- `if (running_)` of `~ThreadPool`. -/
def test : Option State :=
  if s.dtor = .pool then
    some { s with dtor := if s.threadPool_.running_ then .stop else .finished }
  else none

def stop : Option State :=
  if s.dtor = .stop then
    s.threadPool_.stop.map fun threadPool_ => { threadPool_, dtor := .joining }
  else none

/-- The loop of joins has ended, and with it the destruction. -/
def joined : Option State :=
  if s.dtor = .joining ∧ s.threadPool_.control = .idle then some { s with dtor := .finished }
  else none

def step : Action → Option State
  | .initThreadpool threadnum => s.initThreadpool threadnum
  | .send => s.send
  | .pool a => s.pool a
  | .destroy => s.destroy
  | .cleanup => s.cleanup
  | .test => s.test
  | .stop => s.stop
  | .joined => s.joined

end State

def client : Machine State Action where
  init := { threadPool_ := .init, dtor := .alive }
  step := State.step

/-! ## What each step does

Read off the functions above once, guards included; what follows uses these and not the functions.
-/

variable {s s' : State}

theorem State.initThreadpool_cases {n : Nat} (h : s.initThreadpool n = some s') :
    s.dtor = .alive ∧ ∃ threadPool_, s.threadPool_.step 0 (.start n) = some threadPool_ ∧
      s' = { s with threadPool_ } := by
  unfold State.initThreadpool at h
  split at h
  · next hd =>
    obtain ⟨threadPool_, hp, rfl⟩ := Option.map_eq_some_iff.mp h
    exact ⟨hd, threadPool_, hp, rfl⟩
  · cases h

theorem State.send_cases (h : s.send = some s') :
    s.dtor = .alive ∧ ∃ threadPool_, s.threadPool_.step 0 (.run (some s.sent)) = some threadPool_ ∧
      s' = { s with threadPool_ } := by
  unfold State.send at h
  split at h
  · next hd =>
    obtain ⟨threadPool_, hp, rfl⟩ := Option.map_eq_some_iff.mp h
    exact ⟨hd, threadPool_, hp, rfl⟩
  · cases h

theorem State.pool_cases {a : ThreadPool.Action Nat} (h : s.pool a = some s') :
    internal a = true ∧ ∃ threadPool_, s.threadPool_.step 0 a = some threadPool_ ∧
      s' = { s with threadPool_ } := by
  unfold State.pool at h
  split at h
  · next ha =>
    obtain ⟨threadPool_, hp, rfl⟩ := Option.map_eq_some_iff.mp h
    exact ⟨ha, threadPool_, hp, rfl⟩
  · cases h

theorem State.destroy_cases (h : s.destroy = some s') :
    s.dtor = .alive ∧ s.threadPool_.control = .idle ∧
      (∀ c ∈ s.threadPool_.calls, c.pc = .returned) ∧ s' = { s with dtor := .cleanup } := by
  unfold State.destroy at h
  split at h
  · next hc => exact ⟨hc.1, hc.2.1, hc.2.2, (Option.some.inj h).symm⟩
  · cases h

theorem State.cleanup_cases (h : s.cleanup = some s') :
    s.dtor = .cleanup ∧ s' = { s with dtor := .pool } := by
  unfold State.cleanup at h
  split at h
  · next hd => exact ⟨hd, (Option.some.inj h).symm⟩
  · cases h

theorem State.test_cases (h : s.test = some s') :
    s.dtor = .pool ∧ (s.threadPool_.running_ = true ∧ s' = { s with dtor := .stop } ∨
      s.threadPool_.running_ = false ∧ s' = { s with dtor := .finished }) := by
  unfold State.test at h
  split at h
  · next hd =>
    refine ⟨hd, ?_⟩
    cases hr : s.threadPool_.running_ with
    | true =>
      rw [hr] at h
      exact Or.inl ⟨rfl, (Option.some.inj h).symm⟩
    | false =>
      rw [hr] at h
      exact Or.inr ⟨rfl, (Option.some.inj h).symm⟩
  · cases h

theorem State.stop_cases (h : s.stop = some s') :
    s.dtor = .stop ∧ ∃ threadPool_, s.threadPool_.step 0 .stop = some threadPool_ ∧
      s' = { threadPool_, dtor := .joining } := by
  unfold State.stop at h
  split at h
  · next hd =>
    obtain ⟨threadPool_, hp, rfl⟩ := Option.map_eq_some_iff.mp h
    exact ⟨hd, threadPool_, hp, rfl⟩
  · cases h

theorem State.joined_cases (h : s.joined = some s') :
    s.dtor = .joining ∧ s.threadPool_.control = .idle ∧ s' = { s with dtor := .finished } := by
  unfold State.joined at h
  split at h
  · next hc => exact ⟨hc.1, hc.2, (Option.some.inj h).symm⟩
  · cases h

end CppDone.HttpClient
