import CppDone.HttpClient.Outcome
import CppDone.HttpClient.Responses
import CppDone.Lib.Log
import CppDone.Lib.Protocol

/-!
# Handles and header lists

What libcurl asks of those who use its easy interface: a handle is made, used and cleaned up, in
this order and each but the use once, and a list that a handle was given is not freed while there
is the handle. `curl_easy_init` may fail, and a call with the null handle it then answers with is
an error that the call reports.

`curl_slist_append` answers with the list, or with null where it fails, and then the list is still
there; whoever stores the answer in the variable that was the list has lost it.

Every transfer keeps to this, whatever the library answers (`keeps_processResponse`), and so do all
transfers of a client however they overlap.
-/

set_option autoImplicit false

namespace CppDone.HttpClient

/-- What libcurl knows of one handle. `null` is what a failed `curl_easy_init` gives, and every call
with it is an error. -/
inductive Handle where
  | unborn
  | null
  | live
  | cleaned
deriving DecidableEq, Repr

/-- A handle and the list made beside it. `made` and `lost` are there to be counted with: no call
depends on them. -/
structure Easy where
  handle : Handle
  /-- `headers_` is not null. -/
  list : Bool
  /-- How many lists were begun. -/
  made : Nat
  /-- How many there still are that nothing points to. -/
  lost : Nat
deriving DecidableEq, Repr

namespace Easy

/-- There is a handle to call with, or a null one. -/
def usable (e : Easy) : Bool := e.handle = .live || e.handle = .null

def append (e : Easy) (ok : Bool) : Easy :=
  if ok then { e with list := true, made := if e.list then e.made else e.made + 1 }
  else { e with list := false, lost := if e.list then e.lost + 1 else e.lost }

def step (e : Easy) : Instr × Bool → Option Easy
  | (.curl_easy_init, ok) =>
    if e.handle = .unborn then some { e with handle := if ok then .live else .null } else none
  | (.curl_easy_setopt _, _) => if e.usable then some e else none
  | (.curl_easy_perform, _) => if e.usable then some e else none
  | (.curl_easy_getinfo, _) => if e.usable then some e else none
  | (.curl_slist_append, ok) => some (e.append ok)
  | (.curl_easy_cleanup, _) => if e.handle = .live then some { e with handle := .cleaned } else none
  | (.curl_slist_free_all, _) =>
    if e.list && e.handle ≠ .live then some { e with list := false } else none
  | (.curl_easy_strerror, _) => some e
  | (.getCookieFilename, _) => some e
  | (.getSSLVerification, _) => some e
  | (.fopen, _) => some e

end Easy

def easy : Machine Easy (Instr × Bool) where
  init := { handle := .unborn, list := false, made := 0, lost := 0 }
  step := Easy.step

/-- A handle came of it. -/
def obtains (x : Instr × Bool) : Bool := x = (.curl_easy_init, true)

def cleansUp (x : Instr × Bool) : Bool := x.1 = .curl_easy_cleanup

def frees (x : Instr × Bool) : Bool := x.1 = .curl_slist_free_all

def appendFails (x : Instr × Bool) : Bool := x = (.curl_slist_append, false)

/-! ## What the calls come to

A run of the protocol is a list of calls with their answers. What has been made, and what of it was
given back, can be counted in that list; the protocol's state says what is still there. -/

/-- Of each kind, what was made is given back, lost or still there. A list is lost by an append that
fails, and by nothing else. -/
structure Counted (calls : List (Instr × Bool)) (e : Easy) : Prop where
  handles : calls.countP obtains = calls.countP cleansUp + if e.handle = .live then 1 else 0
  lists : e.made = calls.countP frees + e.lost + if e.list then 1 else 0
  lost : e.lost ≤ calls.countP appendFails

/-- A call that is none of those that count. -/
theorem Counted.frame {calls : List (Instr × Bool)} {e : Easy} (h : Counted calls e)
    {x : Instr × Bool} (hobtains : obtains x = false) (hcleans : cleansUp x = false)
    (hfrees : frees x = false) (hfails : appendFails x = false) : Counted (calls ++ [x]) e where
  handles := by simpa [hobtains, hcleans] using h.handles
  lists := by simpa [hfrees] using h.lists
  lost := by simpa [hfails] using h.lost

theorem Counted.append {calls : List (Instr × Bool)} {e : Easy} (h : Counted calls e) (ok : Bool) :
    Counted (calls ++ [(.curl_slist_append, ok)]) (e.append ok) := by
  obtain ⟨handles, lists, lost⟩ := h
  cases ok with
  | true =>
    refine ⟨by simpa [Easy.append, obtains, cleansUp] using handles, ?_, ?_⟩
    · cases hl : e.list with
      | true => simpa [Easy.append, frees, hl] using lists
      | false => simp [Easy.append, frees, hl] at lists ⊢; omega
    · simpa [Easy.append, appendFails] using lost
  | false =>
    refine ⟨by simpa [Easy.append, obtains, cleansUp] using handles, ?_, ?_⟩
    · cases hl : e.list with
      | true => simp [Easy.append, frees, hl] at lists ⊢; omega
      | false => simpa [Easy.append, frees, hl] using lists
    · cases hl : e.list with
      | true => simp [Easy.append, appendFails, hl] at lost ⊢; omega
      | false => simp [Easy.append, appendFails, hl] at lost ⊢; omega

/-- The calls that change something, and those that do not count. -/
theorem Easy.step_cases {e e' : Easy} {x : Instr × Bool} (h : e.step x = some e') :
    (x.1 = .curl_easy_init ∧ e.handle = .unborn ∧
      e' = { e with handle := if x.2 then .live else .null }) ∨
    (x.1 = .curl_slist_append ∧ e' = e.append x.2) ∨
    (x.1 = .curl_easy_cleanup ∧ e.handle = .live ∧ e' = { e with handle := .cleaned }) ∨
    (x.1 = .curl_slist_free_all ∧ e.list = true ∧ e' = { e with list := false }) ∨
    (e' = e ∧ obtains x = false ∧ cleansUp x = false ∧ frees x = false ∧
      appendFails x = false) := by
  obtain ⟨i, ok⟩ := x
  -- the null handle is an error for the call and no step out of order
  cases i with
  | curl_easy_init =>
    obtain ⟨hunborn, hs⟩ := Option.ite_none_right_eq_some.mp h
    exact .inl ⟨rfl, hunborn, (Option.some.inj hs).symm⟩
  | curl_slist_append => exact .inr (.inl ⟨rfl, (Option.some.inj h).symm⟩)
  | curl_easy_cleanup =>
    obtain ⟨hlive, hs⟩ := Option.ite_none_right_eq_some.mp h
    exact .inr (.inr (.inl ⟨rfl, hlive, (Option.some.inj hs).symm⟩))
  | curl_slist_free_all =>
    obtain ⟨hlist, hs⟩ := Option.ite_none_right_eq_some.mp h
    have hheld : e.list = true := (Bool.and_eq_true_iff.mp hlist).1
    exact .inr (.inr (.inr (.inl ⟨rfl, hheld, (Option.some.inj hs).symm⟩)))
  | curl_easy_setopt option | curl_easy_perform | curl_easy_getinfo =>
    obtain ⟨-, hs⟩ := Option.ite_none_right_eq_some.mp h
    have heq : e' = e := (Option.some.inj hs).symm
    simp [heq, obtains, cleansUp, frees, appendFails]
  | curl_easy_strerror | getCookieFilename | getSSLVerification | fopen =>
    have heq : e' = e := (Option.some.inj h).symm
    simp [heq, obtains, cleansUp, frees, appendFails]

theorem counted_of_run {calls : List (Instr × Bool)} {e : Easy} (h : easy.run calls = some e) :
    Counted calls e := by
  refine Machine.run_induction (P := Counted) ⟨by simp [easy], by simp [easy], by simp [easy]⟩ ?_ h
  rintro calls e ⟨i, ok⟩ e' _ hc hs
  have ⟨handles, lists, lost⟩ := hc
  rcases Easy.step_cases hs with ⟨rfl, hunborn, rfl⟩ | ⟨rfl, rfl⟩ | ⟨rfl, hlive, rfl⟩ |
    ⟨rfl, hlist, rfl⟩ | ⟨rfl, hobtains, hcleans, hfrees, hfails⟩
  · refine ⟨?_, by simpa [frees] using lists, by simpa [appendFails] using lost⟩
    cases ok with
    | true => simpa [obtains, cleansUp, hunborn] using handles
    | false => simpa [obtains, cleansUp, hunborn] using handles
  · exact hc.append ok
  · refine ⟨?_, by simpa [frees] using lists, by simpa [appendFails] using lost⟩
    simpa [obtains, cleansUp, hlive] using handles
  · refine ⟨by simpa [obtains, cleansUp] using handles, ?_, by simpa [appendFails] using lost⟩
    simp only [hlist, if_true] at lists
    simp [frees]
    omega
  · exact hc.frame hobtains hcleans hfrees hfails

/-! ## Transfers keep to it

Along the text of a transfer: the constructor makes the handle, `init` and the members use it, the
destructor gives back what there is. A call with the null handle is an error that is answered, so
nothing depends on `curl_easy_init` going well. -/

section Transfers

open Program

/-- In the scope of a `Curl`: the handle is what its constructor got. -/
def Easy.In (curl_ headers_ : Bool) (e : Easy) : Prop :=
  e.handle = (if curl_ then .live else .null) ∧ e.list = headers_

theorem Easy.In.usable {curl_ headers_ : Bool} {e : Easy} (h : e.In curl_ headers_) :
    e.usable = true := by
  cases curl_ with
  | true => simp [Easy.usable, h.1]
  | false => simp [Easy.usable, h.1]

/-- Calls with the handle, and readings of the settings. -/
def Instr.uses : Instr → Bool
  | .curl_easy_setopt _ | .curl_easy_perform | .curl_easy_getinfo => true
  | .curl_easy_strerror | .getCookieFilename | .getSSLVerification | .fopen => true
  | _ => false

theorem step_uses {e : Easy} (h : e.usable = true) (i : Instr) (hi : i.uses = true)
    (answer : Bool) : easy.step e (i, answer) = some e := by
  cases i with
  | curl_easy_setopt option | curl_easy_perform | curl_easy_getinfo => exact if_pos h
  | curl_easy_strerror | getCookieFilename | getSSLVerification | fopen => rfl
  | curl_easy_init | curl_slist_append | curl_easy_cleanup | curl_slist_free_all => cases hi

/-! ### The parts of a transfer

Each function of `Curl` leaves the handle where it found it, or where its name says. They are put
together in the order in which a transfer calls them. -/

theorem only_setOptions (options : List CURLoption) :
    (Curl.setOptions options).Only Instr.uses := by
  induction options with
  | nil => trivial
  | cons option options ih =>
    refine ⟨rfl, fun answer => ?_⟩
    cases answer with
    | true => exact ih
    | false => trivial

theorem only_uses_perform : Curl.perform.Only Instr.uses := by
  refine ⟨rfl, fun answer => ?_⟩
  cases answer with
  | true =>
    refine ⟨rfl, fun answer => ?_⟩
    cases answer with
    | true => trivial
    | false => exact ⟨rfl, fun _ => trivial⟩
  | false => trivial

/-- Uses leave everything as it is. -/
theorem keeps_uses {α : Type} {t : Transfer α} (ht : t.Only Instr.uses) {curl_ headers_ : Bool}
    {e : Easy} (h : e.In curl_ headers_) : t.Keeps easy e fun _ e' => e'.In curl_ headers_ :=
  (ht.keeps (step_uses h.usable)).mono fun _ _ heq => heq ▸ h

/-- Options, and what follows if they could be set. -/
theorem keeps_then {options : List CURLoption} {t : Transfer (Bool × Bool)}
    {curl_ headers_ : Bool} {e : Easy} (h : e.In curl_ headers_)
    (ht : ∀ e : Easy, e.In curl_ headers_ → t.Keeps easy e fun a e' => e'.In curl_ a.2) :
    ((Curl.setOptions options).bind fun ok => if !ok then .ret (false, headers_) else t).Keeps
      easy e fun a e' => e'.In curl_ a.2 := by
  apply (keeps_uses (only_setOptions options) h).bind
  intro ok e' h'
  cases ok with
  | true => exact ht e' h'
  | false => exact h'

theorem keeps_append (headers : List String) {curl_ headers_ : Bool} {e : Easy}
    (h : e.In curl_ headers_) :
    (Curl.append headers_ headers).Keeps easy e fun headers_ e' => e'.In curl_ headers_ := by
  induction headers generalizing headers_ e with
  | nil => exact h
  | cons header headers ih =>
    intro answer
    refine ⟨e.append answer, rfl, ih ?_⟩
    cases answer with
    | true => exact ⟨h.1, rfl⟩
    | false => exact ⟨h.1, rfl⟩

theorem keeps_initMain {curl_ headers_ : Bool} {e : Easy} (h : e.In curl_ headers_) :
    (Curl.initMain headers_).Keeps easy e fun a e' => e'.In curl_ a.2 :=
  (keeps_uses (only_setOptions _) h).bind fun _ _ h' => h'

theorem keeps_initHeaders (request : HttpRequest) {curl_ : Bool} {e : Easy}
    (h : e.In curl_ false) :
    (Curl.initHeaders request).Keeps easy e fun a e' => e'.In curl_ a.2 := by
  unfold Curl.initHeaders
  split
  · apply (keeps_append request.headers_ h).bind
    intro headers_ e' h' answer
    refine ⟨e', if_pos h'.usable, ?_⟩
    cases answer with
    | true => exact keeps_initMain h'
    | false => exact h'
  · exact keeps_initMain h

/-- `init` answers with what `headers_` is then. -/
theorem keeps_init (request : HttpRequest) (curl_ : Bool) {e : Easy} (h : e.In curl_ false) :
    (Curl.init curl_ request).Keeps easy e fun a e' => e'.In curl_ a.2 := by
  cases curl_ with
  -- no handle: `init` gives up before the first option
  | false => exact h
  | true =>
    rw [Curl.init_eq]
    apply keeps_then h
    intro e h
    have htimeouts : ∀ e : Easy, e.In true false →
        (Curl.initTimeouts request).Keeps easy e fun a e' => e'.In true a.2 := by
      intro e h
      apply keeps_then h
      intro e h answer
      refine ⟨e, rfl, ?_⟩
      cases answer with
      | true => exact keeps_then h fun e h => keeps_initHeaders request h
      | false => exact keeps_then h fun e h => keeps_initHeaders request h
    -- a rejected option ends `initTimeouts`, and the headers may be set behind it
    intro answer
    refine ⟨e, rfl, ?_⟩
    cases answer with
    | true => exact keeps_then h htimeouts
    | false => exact htimeouts e h

/-- The handle was cleaned up or there was none, and no list is held. -/
def Easy.AtRest (e : Easy) : Prop := e.handle ≠ .live ∧ e.list = false

theorem keeps_delete {curl_ headers_ : Bool} {e : Easy} (h : e.In curl_ headers_) :
    (Curl.delete curl_ headers_).Keeps easy e fun _ e' => e'.AtRest := by
  have hfree : ∀ e : Easy, e.handle ≠ .live → e.list = headers_ →
      (Curl.delete false headers_).Keeps easy e fun _ e' => e'.AtRest := by
    intro e hhandle hlist
    cases headers_ with
    | true =>
      intro answer
      have hboth : (e.list && e.handle ≠ .live) = true := by simp [hlist, hhandle]
      exact ⟨{ e with list := false }, if_pos hboth, hhandle, rfl⟩
    | false => exact ⟨hhandle, hlist⟩
  cases curl_ with
  | true =>
    intro answer
    exact ⟨{ e with handle := .cleaned }, if_pos h.1, hfree _ nofun h.2⟩
  | false =>
    refine hfree e ?_ h.2
    rw [h.1]
    exact nofun

/-- What is between the constructor and the destructor says what `headers_` is in the end. -/
theorem keeps_scope {body : Bool → Transfer Bool}
    (h : ∀ curl_ (e : Easy), e.In curl_ false →
      (body curl_).Keeps easy e fun headers_ e' => e'.In curl_ headers_) :
    (Curl.scope body).Keeps easy easy.init fun _ e => e.AtRest := by
  intro curl_
  refine ⟨{ easy.init with handle := if curl_ then .live else .null }, rfl, ?_⟩
  exact (h curl_ _ ⟨rfl, rfl⟩).bind fun headers_ e h => keeps_delete h

theorem keeps_doStrict (options : List CURLoption) (request : HttpRequest) :
    (doStrict options request).Keeps easy easy.init fun _ e => e.AtRest := by
  apply keeps_scope
  intro curl_ e h
  refine (keeps_init request curl_ h).bind fun a e h => ?_
  obtain ⟨ok, headers_⟩ := a
  cases ok with
  | true =>
    refine (keeps_uses (only_setOptions options) h).bind fun ok e h => ?_
    cases ok with
    | true => exact (keeps_uses only_uses_perform h).bind fun _ _ h => h
    | false => exact h
  | false => exact h

theorem keeps_doPut (request : HttpRequest) :
    (doPut request).Keeps easy easy.init fun _ e => e.AtRest := by
  have hset : ∀ options, (setAll options).Only Instr.uses := only_setAll fun _ => rfl
  have hscope : (Curl.scope (put request)).Keeps easy easy.init fun _ e => e.AtRest := by
    apply keeps_scope
    intro curl_ e h
    refine (keeps_init request curl_ h).bind fun a e h => ?_
    refine (keeps_uses (hset _) h).bind fun _ e h => ?_
    have hend : ∀ e : Easy, e.In curl_ a.2 →
        (Curl.perform.bind fun _ => .ret a.2).Keeps easy e
          fun headers_ e' => e'.In curl_ headers_ :=
      fun e h => (keeps_uses only_uses_perform h).bind fun _ _ h => h
    dsimp only
    split
    · exact (keeps_uses (hset _) h).bind fun _ e h => hend e h
    · exact hend e h
  unfold doPut openUpload
  split
  · -- whether or not the file is open, nothing of the library has been touched
    intro opened
    refine ⟨easy.init, rfl, ?_⟩
    cases opened with
    | true => exact hscope
    | false => exact ⟨nofun, rfl⟩
  · exact hscope

/-- **No transfer misuses the library**, and none leaves anything behind that it could give back:
whatever the calls answer. -/
theorem keeps_processResponse (request : HttpRequest) :
    (processResponse request).Keeps easy easy.init fun _ e => e.AtRest := by
  unfold processResponse
  split
  · exact keeps_doStrict _ request
  · exact keeps_doStrict _ request
  · exact keeps_doPut request
  · exact keeps_doStrict _ request
  · exact ⟨nofun, rfl⟩

end Transfers

/-! ## All transfers of a client

Transfers overlap in any way, each with a handle of its own. The calls of one transfer are picked
out of the schedule by its number, and these alone are a run of the protocol. -/

namespace Responses

variable {s s' : State}

/-- The call that a step is, with the number of its transfer and the answer. -/
def State.called (s : State) : Action → Option (Nat × Instr × Bool)
  | .curl i ok =>
    match s.responses[i]? with
    | some { runner := _, todo := .instr instr _, returned := _ } => some (i, instr, ok)
    | _ => none
  | .read i =>
    match s.responses[i]? with
    | some { runner := _, todo := .instr instr _, returned := _ } =>
      (s.reads instr).map fun answer => (i, instr, answer)
    | _ => none
  | _ => none

/-- The calls of a schedule, in their order. -/
def calls (as : List Action) : List (Nat × Instr × Bool) :=
  responses.emitted State.called responses.init as

def callsOf (i : Nat) (as : List Action) : List (Instr × Bool) := entriesOf i (calls as)

theorem begun_processResponse (a : HttpClient.Action) :
    ∀ response ∈ s.begun a, ∃ request, response.todo = processResponse request := by
  have hprocess : ∀ (runner : Runner) (id : Nat), ∀ response ∈ s.process runner id,
      ∃ request, response.todo = processResponse request := by
    intro runner id response hmem
    unfold State.process at hmem
    split at hmem
    · next request _ => exact ⟨request, by rw [List.mem_singleton.mp hmem]⟩
    · cases hmem
  intro response hmem
  unfold State.begun at hmem
  split at hmem
  · split at hmem
    · exact hprocess _ _ response hmem
    · cases hmem
  · split at hmem
    · split at hmem
      · exact hprocess _ _ response hmem
      · cases hmem
    · cases hmem
  · cases hmem

/-- What a step does to the transfers: some begin, one makes a call, or one is through with its
callback. -/
theorem State.responses_cases {a : Action} (h : s.step a = some s') :
    (s.called a = none ∧ ∃ new, s'.responses = s.responses ++ new ∧
      ∀ response ∈ new, ∃ request, response.todo = processResponse request) ∨
    (∃ i runner instr next returned answer,
      s.responses[i]? = some { runner, todo := .instr instr next, returned } ∧
      s.called a = some (i, instr, answer) ∧
      s'.responses = s.responses.set i { runner, todo := next answer, returned }) ∨
    (s.called a = none ∧ ∃ i runner,
      s.responses[i]? = some { runner, todo := .ret (), returned := false } ∧
      s'.responses = s.responses.set i { runner, todo := .ret (), returned := true }) := by
  -- transfers come in at the end, go on, or end with their callback
  cases a with
  | client a =>
    obtain ⟨-, -, c', -, rfl⟩ := State.client_cases h
    exact .inl ⟨rfl, _, rfl, begun_processResponse a⟩
  | send request =>
    obtain ⟨c', -, rfl⟩ := State.send_cases h
    exact .inl ⟨rfl, [], (List.append_nil _).symm, nofun⟩
  | synSend request | sendImmediate request =>
    obtain ⟨-, rfl⟩ := State.respond_cases h
    refine .inl ⟨rfl, _, rfl, fun response hmem => ⟨request, ?_⟩⟩
    rw [List.mem_singleton.mp hmem]
  | enableCookies cookieFile =>
    obtain ⟨cookieFilename_, rfl⟩ := State.enableCookies_cases h
    exact .inl ⟨rfl, [], (List.append_nil _).symm, nofun⟩
  | setSSLVerification caFile =>
    obtain rfl := State.setSSLVerification_cases h
    exact .inl ⟨rfl, [], (List.append_nil _).symm, nofun⟩
  | curl i ok =>
    obtain ⟨runner, instr, next, returned, hi, -, rfl⟩ := State.curl_cases h
    exact .inr (.inl ⟨i, runner, instr, next, returned, ok, hi, by simp [State.called, hi], rfl⟩)
  | read i =>
    obtain ⟨runner, instr, next, returned, answer, hi, hanswer, rfl⟩ := State.read_cases h
    have hcalled : s.called (.read i) = some (i, instr, answer) := by
      simp [State.called, hi, hanswer]
    exact .inr (.inl ⟨i, runner, instr, next, returned, answer, hi, hcalled, rfl⟩)
  | callback i =>
    obtain ⟨runner, hi, rfl⟩ := State.callback_cases h
    exact .inr (.inr ⟨rfl, i, runner, hi, rfl⟩)

/-! ### One transfer among others

Every transfer has a handle of its own, and its calls are those of its entries in the log. So what
the others do in between makes no difference to it. -/

/-- How transfer `i` stands with the library, and that it will keep to the protocol. Its own calls
have brought the protocol to some state, and from there the rest of the transfer misuses nothing. -/
def Lawful (log : List (Nat × Instr × Bool)) (i : Nat) (todo : Transfer Unit) : Prop :=
  ∃ e, easy.run (entriesOf i log) = some e ∧ todo.Keeps easy e fun _ e => e.AtRest

/-- The calls so far are those of the transfers there are. A transfer that has not begun has no
entry, so the numbers of the entries are those of transfers. -/
structure AllLawful (log : List (Nat × Instr × Bool)) (s : State) : Prop where
  numbered : ∀ x ∈ log, x.1 < s.responses.length
  lawful : ∀ (i : Nat) (response : Response), s.responses[i]? = some response →
    Lawful log i response.todo

theorem AllLawful.entriesOf_eq_nil {log : List (Nat × Instr × Bool)} (h : AllLawful log s)
    {i : Nat} (hi : s.responses.length ≤ i) : entriesOf i log = [] := by
  refine List.filterMap_eq_nil_iff.mpr fun x hx => if_neg ?_
  exact Nat.ne_of_lt (Nat.lt_of_lt_of_le (h.numbered x hx) hi)

/-- Transfers begin. -/
theorem AllLawful.begin {log : List (Nat × Instr × Bool)} (h : AllLawful log s)
    {new : List Response} (hresponses : s'.responses = s.responses ++ new)
    (hnew : ∀ response ∈ new, ∃ request, response.todo = processResponse request) :
    AllLawful log s' where
  numbered x hx := by
    rw [hresponses, List.length_append]
    exact Nat.lt_add_right _ (h.numbered x hx)
  lawful i response hi := by
    rw [hresponses] at hi
    by_cases hlt : i < s.responses.length
    · rw [List.getElem?_append_left hlt] at hi
      exact h.lawful i response hi
    · have hle : s.responses.length ≤ i := Nat.le_of_not_lt hlt
      rw [List.getElem?_append_right hle] at hi
      obtain ⟨request, htodo⟩ := hnew response (List.mem_of_getElem? hi)
      refine ⟨easy.init, ?_, ?_⟩
      · rw [h.entriesOf_eq_nil hle]
        rfl
      · rw [htodo]
        exact keeps_processResponse request

/-- A transfer makes a call. -/
theorem AllLawful.call {log : List (Nat × Instr × Bool)} (h : AllLawful log s) {i : Nat}
    {runner : Runner} {instr : Instr} {next : Bool → Transfer Unit} {returned answer : Bool}
    (hi : s.responses[i]? = some { runner, todo := .instr instr next, returned })
    (hresponses : s'.responses = s.responses.set i { runner, todo := next answer, returned }) :
    AllLawful (log ++ [(i, instr, answer)]) s' where
  numbered x hx := by
    rw [hresponses, List.length_set]
    rcases List.mem_append.mp hx with hx | hx
    · exact h.numbered x hx
    · rw [List.mem_singleton.mp hx]
      exact lt_length_of_getElem? hi
  lawful j response hj := by
    rw [hresponses] at hj
    rcases getElem?_set_cases hj with ⟨rfl, rfl⟩ | ⟨hne, hj⟩
    -- the transfer that made the call is where its own calls have brought it
    · obtain ⟨e, he, hkeeps⟩ := h.lawful _ _ hi
      obtain ⟨e', he', hnext⟩ := hkeeps answer
      refine ⟨e', ?_, hnext⟩
      rw [entriesOf_append, entriesOf_singleton_self]
      exact Machine.run_snoc.mpr ⟨e, he, he'⟩
    -- the call is none of the others' business
    · obtain ⟨e, he, hkeeps⟩ := h.lawful j response hj
      refine ⟨e, ?_, hkeeps⟩
      rw [entriesOf_append, entriesOf_singleton_of_ne (Ne.symm hne), List.append_nil]
      exact he

/-- A transfer that has come to its end is through with its callback. -/
theorem AllLawful.returned {log : List (Nat × Instr × Bool)} (h : AllLawful log s) {i : Nat}
    {runner : Runner} (hi : s.responses[i]? = some { runner, todo := .ret (), returned := false })
    (hresponses : s'.responses = s.responses.set i { runner, todo := .ret (), returned := true }) :
    AllLawful log s' where
  numbered x hx := by
    rw [hresponses, List.length_set]
    exact h.numbered x hx
  lawful j response hj := by
    rw [hresponses] at hj
    rcases getElem?_set_cases hj with ⟨rfl, rfl⟩ | ⟨-, hj⟩
    · have hlawful : Lawful log _ (.ret ()) := h.lawful _ _ hi
      exact hlawful
    · exact h.lawful j response hj

theorem allLawful_of_run {as : List Action} (h : responses.run as = some s) :
    AllLawful (calls as) s := by
  refine Machine.run_induction (P := fun as s => AllLawful (calls as) s)
    ⟨nofun, by simp [responses]⟩ (fun as s a s' hrun ih hs => ?_) h
  have hcalls : calls (as ++ [a]) = calls as ++ (s.called a).toList := Machine.emitted_snoc hrun
  rcases State.responses_cases hs with ⟨hcalled, new, hresponses, hnew⟩ |
    ⟨i, runner, instr, next, returned, answer, hi, hcalled, hresponses⟩ |
    ⟨hcalled, i, runner, hi, hresponses⟩
  · rw [hcalls, hcalled, Option.toList_none, List.append_nil]
    exact ih.begin hresponses hnew
  · rw [hcalls, hcalled]
    exact ih.call hi hresponses
  · rw [hcalls, hcalled, Option.toList_none, List.append_nil]
    exact ih.returned hi hresponses

/-- How many transfers have a handle. -/
def State.open (s : State) (as : List Action) : Nat :=
  ((Finset.range s.responses.length).filter fun i =>
    (easy.run (callsOf i as)).any fun e => e.handle = .live).card

/-- **Every handle is used as it should be and given back**, in every schedule of a client: the
calls of each transfer are a run of the protocol, which is at rest when the transfer is over. So
of all the handles made, those that were not cleaned up are those of transfers that go on; and of
a transfer that is over, the header lists begun were freed, but for those that a failed
`curl_slist_append` has lost. -/
theorem handles_given_back {as : List Action} (hrun : responses.run as = some s) :
    (∀ (i : Nat) (response : Response), s.responses[i]? = some response →
      ∃ e, easy.run (callsOf i as) = some e ∧
        (response.todo.ended = true → e.AtRest ∧
          (callsOf i as).countP obtains = (callsOf i as).countP cleansUp ∧
          e.made = (callsOf i as).countP frees + e.lost ∧
          e.lost ≤ (callsOf i as).countP appendFails)) ∧
    (calls as).countP (fun x => obtains x.2) =
      (calls as).countP (fun x => cleansUp x.2) + s.open as := by
  have hall := allLawful_of_run hrun
  constructor
  · intro i response hi
    obtain ⟨e, he, hkeeps⟩ := hall.lawful i response hi
    refine ⟨e, he, fun hended => ?_⟩
    have hrest : e.AtRest := by
      cases htodo : response.todo with
      | ret a =>
        rw [htodo] at hkeeps
        exact hkeeps
      | instr instr next =>
        rw [htodo] at hended
        cases hended
    have hcounted : Counted (callsOf i as) e := counted_of_run he
    refine ⟨hrest, ?_, ?_, hcounted.lost⟩
    · simpa [hrest.1] using hcounted.handles
    · simpa [hrest.2] using hcounted.lists
  -- one handle for each transfer that has it still, and none for the others
  · have heach : ∀ i ∈ Finset.range s.responses.length,
        (entriesOf i (calls as)).countP obtains = (entriesOf i (calls as)).countP cleansUp +
          if (easy.run (callsOf i as)).any fun e => e.handle = .live then 1 else 0 := by
      intro i hi
      obtain ⟨e, he, -⟩ := hall.lawful i _ (List.getElem?_eq_getElem (Finset.mem_range.mp hi))
      rw [show easy.run (callsOf i as) = some e from he]
      simpa using (counted_of_run he).handles
    rw [countP_eq_sum_entriesOf obtains hall.numbered,
      countP_eq_sum_entriesOf cleansUp hall.numbered, Finset.sum_congr rfl heach,
      Finset.sum_add_distrib, State.open, Finset.card_filter]

/-- Two transfers that overlap. One of them fails at its second header, the other one at its first
option. -/
def overlapping : List Action :=
  [.synSend { requestType_ := .GET, headers_ := ["A: 1", "B: 2"], uploadFilePath_ := "" },
    .sendImmediate { requestType_ := .PUT, headers_ := [], uploadFilePath_ := "" },
    .curl 0 true, .curl 1 true, .curl 0 true, .curl 0 true, .read 0, .curl 0 true, .curl 0 true,
    .read 0, .curl 0 true, .curl 0 true, .curl 1 false, .curl 0 true, .curl 0 false, .curl 0 false,
    .curl 0 true, .callback 0]

/-- The one that is over had a handle and lost a list, the other one still has its handle. -/
theorem handles_given_back_overlapping :
    (∃ e, easy.run (callsOf 0 overlapping) = some e ∧ e.AtRest ∧ e.made = 1 ∧ e.lost = 1) ∧
      ∃ s, responses.run overlapping = some s ∧ s.open overlapping = 1 := by
  obtain ⟨s, hs⟩ := Option.isSome_iff_exists.mp
    (show (responses.run overlapping).isSome = true by decide)
  obtain ⟨heach, hall⟩ := handles_given_back hs
  have hfirst : (responses.run overlapping).map (fun s =>
      (s.responses.map fun response => response.todo.ended)) = some [true, false] := by decide
  rw [hs, Option.map_some, Option.some.injEq] at hfirst
  have hzero := congrArg (fun l => l[0]?) hfirst
  constructor
  · cases hresponse : s.responses[0]? with
    | none => simp [hresponse] at hzero
    | some response =>
      obtain ⟨e, he, hrest⟩ := heach 0 response hresponse
      have hended : response.todo.ended = true := by simpa [hresponse] using hzero
      have hmade : (easy.run (callsOf 0 overlapping)).map (fun e => (e.made, e.lost)) =
          some (1, 1) := by decide
      rw [he, Option.map_some, Option.some.injEq, Prod.mk.injEq] at hmade
      exact ⟨e, he, (hrest hended).1, hmade⟩
  · refine ⟨s, hs, ?_⟩
    have hobtained : (calls overlapping).countP (fun x => obtains x.2) = 2 := by decide
    have hcleaned : (calls overlapping).countP (fun x => cleansUp x.2) = 1 := by decide
    omega

end Responses

end CppDone.HttpClient
