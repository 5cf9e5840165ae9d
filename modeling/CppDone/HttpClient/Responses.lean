import CppDone.HttpClient.Client
import CppDone.HttpClient.Transfer

/-!
# The transfers of a client

The client with its pool, and every `processResponse` there is: one that a worker runs as a task,
one that `ThreadPool::run` runs on the calling thread because there are no workers, one in
`synSend`, and one on the detached thread of `sendImmediate`. Each goes through its transfer call
by call and then through the callback of its request, and any of them may go on between two steps
of the others and of the destructor.

Nobody waits for a detached thread, so it may go on when the client is gone.
-/

set_option autoImplicit false

namespace CppDone.HttpClient.Responses

open Net

/-- The thread that runs a `processResponse`. It decides who has to wait for the transfer: a worker
and a call of `run` go on behind it, and nobody waits for a detached thread. -/
inductive Runner where
  | worker (w : Nat)
  | call (c : Nat)  -- in `ThreadPool::run`
  | caller  -- in `synSend`
  | detached
deriving DecidableEq, Repr

/-- A `processResponse` under way, or behind its end: what is left of its transfer, and whether its
callback has come back. -/
structure Response where
  runner : Runner
  todo : Transfer Unit
  /-- The callback has returned. -/
  returned : Bool

/-- The client with what its members read, and all transfers that were ever begun. -/
structure State where
  client : HttpClient.State
  cookieFilename_ : String
  sslCaFilename_ : String
  /-- The requests handed to the pool, by their numbers. -/
  requests : List HttpRequest
  responses : List Response

/-- A step of the client or its pool, a member called from outside, or a transfer at its next
instruction, with the answer of curl where it is asked. -/
inductive Action where
  | client (a : HttpClient.Action)
  | send (request : HttpRequest)
  | synSend (request : HttpRequest)
  | sendImmediate (request : HttpRequest)
  | enableCookies (cookieFile : String)
  | setSSLVerification (caFile : String)
  | curl (i : Nat) (ok : Bool)
  | read (i : Nat)
  | callback (i : Nat)
deriving DecidableEq, Repr

namespace State

variable (s : State)

/-! ## Steps

A transfer begins where a task is begun, by a worker or in a call of `run` itself, or with `synSend`
and `sendImmediate`. From then on it goes on by itself, one instruction after the other. -/

def process (runner : Runner) (id : Nat) : List Response :=
  match s.requests[id]? with
  | some request => [{ runner, todo := processResponse request, returned := false }]
  | none => []

/-- The `processResponse` that begins with a step of the client. -/
def begun : HttpClient.Action → List Response
  | .pool (.exec w) =>
    match s.client.threadPool_.workers[w]? with
    | some (.took (some id)) => s.process (.worker w) id
    | _ => []
  | .pool (.enter c) =>
    match s.client.threadPool_.calls[c]? with
    | some { task := some id, pc := .entered } =>
      if s.client.threadPool_.threads_ = [] then s.process (.call c) id else []
    | _ => []
  | _ => []

/-- Whom a step of the client has to wait for. -/
def awaited : HttpClient.Action → Option Runner
  | .pool (.finish w) => some (.worker w)
  | .pool (.endCall c) => some (.call c)
  | .destroy => some .caller
  | _ => none

def clientStep (a : HttpClient.Action) : Option State :=
  if s.responses.all fun response => response.returned || some response.runner ≠ awaited a then
    (s.client.step a).map fun client => { s with client, responses := s.responses ++ s.begun a }
  else none

def send (request : HttpRequest) : Option State :=
  (s.client.step .send).map fun client => { s with client, requests := s.requests ++ [request] }

/-- `synSend` and the thread of `sendImmediate`. -/
def respond (runner : Runner) (request : HttpRequest) : Option State :=
  if s.client.dtor = .alive then
    let response : Response := { runner, todo := processResponse request, returned := false }
    some { s with responses := s.responses ++ [response] }
  else none

def enableCookies (cookieFile : String) : Option State :=
  if s.client.dtor = .alive then
    some { s with cookieFilename_ := if cookieFile ≠ "" then cookieFile else "cookieFile.txt" }
  else none

def setSSLVerification (caFile : String) : Option State :=
  if s.client.dtor = .alive then some { s with sslCaFilename_ := caFile } else none

/-- What `instr` answers that is no call of curl: what a setting is, or that the upload file is
open. Where it cannot be opened there is no step: what `fseek` does with a null pointer is
undefined, and a run that has come to that has come to its end. -/
def reads : Instr → Option Bool
  | .getCookieFilename => some (s.cookieFilename_ ≠ "")
  | .getSSLVerification => some (s.sslCaFilename_ ≠ "")
  | .fopen => some true
  | _ => none

def curl (i : Nat) (ok : Bool) : Option State :=
  match s.responses[i]? with
  | some { runner, todo := .instr instr next, returned } =>
    if instr.curl then
      some { s with responses := s.responses.set i { runner, todo := next ok, returned } }
    else none
  | _ => none

def read (i : Nat) : Option State :=
  match s.responses[i]? with
  | some { runner, todo := .instr instr next, returned } =>
    (s.reads instr).map fun answer =>
      { s with responses := s.responses.set i { runner, todo := next answer, returned } }
  | _ => none

def callback (i : Nat) : Option State :=
  match s.responses[i]? with
  | some { runner, todo := .ret (), returned := false } =>
    some { s with responses := s.responses.set i { runner, todo := .ret (), returned := true } }
  | _ => none

def step : Action → Option State
  | .client .send => none
  | .client a => s.clientStep a
  | .send request => s.send request
  | .synSend request => s.respond .caller request
  | .sendImmediate request => s.respond .detached request
  | .enableCookies cookieFile => s.enableCookies cookieFile
  | .setSSLVerification caFile => s.setSSLVerification caFile
  | .curl i ok => s.curl i ok
  | .read i => s.read i
  | .callback i => s.callback i

end State

def responses : Machine State Action where
  init := { client := HttpClient.client.init, cookieFilename_ := "", sslCaFilename_ := "",
            requests := [], responses := [] }
  step := State.step

/-! ## What each step does

As for the client, once for each step. A transfer is at an instruction or at its end; the answer to
the instruction is given by the label, and for a setting by the client. -/

section Steps

variable {s s' : State}

theorem State.client_cases {a : HttpClient.Action} (h : s.step (.client a) = some s') :
    a ≠ .send ∧
      (∀ response ∈ s.responses, some response.runner = State.awaited a →
        response.returned = true) ∧
      ∃ client, s.client.step a = some client ∧
        s' = { s with client, responses := s.responses ++ s.begun a } := by
  have hne : a ≠ .send := by
    rintro rfl
    cases h
  have h : s.clientStep a = some s' := by
    cases a with
    | send => exact absurd rfl hne
    | _ => exact h
  unfold State.clientStep at h
  split at h
  · next hall =>
    obtain ⟨client, hc, rfl⟩ := Option.map_eq_some_iff.mp h
    refine ⟨hne, fun response hmem hrunner => ?_, client, hc, rfl⟩
    have hresponse := List.all_eq_true.mp hall response hmem
    simpa [hrunner] using hresponse
  · cases h

theorem State.send_cases {request : HttpRequest} (h : s.send request = some s') :
    ∃ client, s.client.step .send = some client ∧
      s' = { s with client, requests := s.requests ++ [request] } := by
  obtain ⟨client, hc, rfl⟩ := Option.map_eq_some_iff.mp h
  exact ⟨client, hc, rfl⟩

theorem State.respond_cases {runner : Runner} {request : HttpRequest}
    (h : s.respond runner request = some s') :
    s.client.dtor = .alive ∧
      s' = { s with responses := s.responses ++
                      [{ runner, todo := processResponse request, returned := false }] } := by
  unfold State.respond at h
  split at h
  · next hd => exact ⟨hd, (Option.some.inj h).symm⟩
  · cases h

theorem State.enableCookies_cases {cookieFile : String}
    (h : s.enableCookies cookieFile = some s') :
    ∃ cookieFilename_, s' = { s with cookieFilename_ } := by
  unfold State.enableCookies at h
  split at h
  · exact ⟨_, (Option.some.inj h).symm⟩
  · cases h

theorem State.setSSLVerification_cases {caFile : String}
    (h : s.setSSLVerification caFile = some s') : s' = { s with sslCaFilename_ := caFile } := by
  unfold State.setSSLVerification at h
  split at h
  · exact (Option.some.inj h).symm
  · cases h

theorem State.curl_cases {i : Nat} {ok : Bool} (h : s.curl i ok = some s') :
    ∃ runner instr next returned,
      s.responses[i]? = some { runner, todo := .instr instr next, returned } ∧
      instr.curl = true ∧
      s' = { s with responses := s.responses.set i { runner, todo := next ok, returned } } := by
  unfold State.curl at h
  split at h
  · next runner instr next returned hi =>
    split at h
    · next hcurl =>
      exact ⟨runner, instr, next, returned, hi, hcurl, (Option.some.inj h).symm⟩
    · cases h
  · cases h

theorem State.read_cases {i : Nat} (h : s.read i = some s') :
    ∃ runner instr next returned answer,
      s.responses[i]? = some { runner, todo := .instr instr next, returned } ∧
      s.reads instr = some answer ∧
      s' = { s with responses := s.responses.set i { runner, todo := next answer, returned } } := by
  unfold State.read at h
  split at h
  · next runner instr next returned hi =>
    obtain ⟨answer, hanswer, rfl⟩ := Option.map_eq_some_iff.mp h
    exact ⟨runner, instr, next, returned, answer, hi, hanswer, rfl⟩
  · cases h

theorem State.callback_cases {i : Nat} (h : s.callback i = some s') :
    ∃ runner, s.responses[i]? = some { runner, todo := .ret (), returned := false } ∧
      s' = { s with responses := s.responses.set i
                      { runner, todo := .ret (), returned := true } } := by
  unfold State.callback at h
  split at h
  · next runner hi => exact ⟨runner, hi, (Option.some.inj h).symm⟩
  · cases h

end Steps

end CppDone.HttpClient.Responses
