import CppDone.HttpClient.Transfer

/-!
# What a request is told of its transfer

The four member functions once more, with the response they fill in. What the library hands out
beside its results is given: the code of the answer, and what it has written to `errorBuf` in the
end. The calls are those of `Transfer`, where the code is part of the answer to
`curl_easy_getinfo` (`processResponseWith_follows`).

Three of the functions join their calls by `&&`, so that the first option that is rejected ends the
transfer. `doPut` looks at no result before `perform`, and goes on with what it has got. That holds
of `fopen` too: where the upload file cannot be opened there is no response, for what `fseek` does
with a null pointer is undefined.
-/

set_option autoImplicit false

namespace CppDone.HttpClient

/-- The fields of the response that the member functions set. What the callbacks of curl write into
it is left out. -/
structure HttpResponse where
  succeed_ : Bool
  responseCode_ : Int
  errorBuffer_ : String
deriving DecidableEq, Repr

def HttpResponse.new : HttpResponse where
  succeed_ := false
  responseCode_ := -1
  errorBuffer_ := ""

/-- What the library hands out. It is the same for every call of the transfer, since each of them
asks once. -/
structure Reply where
  responseCode : Int
  errorBuf : String
deriving DecidableEq, Repr

/-- The end of each member function. -/
def HttpResponse.finish (response : HttpResponse) (reply : Reply) (ok : Bool)
    (responseCode : Int) : HttpResponse :=
  let response := { response with responseCode_ := responseCode }
  if ok then { response with succeed_ := true }
  else { response with succeed_ := false, errorBuffer_ := reply.errorBuf }

namespace Curl

/-- The value, and `responseCode` then. -/
def performWith (reply : Reply) : Transfer (Bool × Int) := do
  if !(← Program.ask .curl_easy_perform) then
    return (false, -1)
  let code ← Program.ask .curl_easy_getinfo
  let responseCode := if code then reply.responseCode else -1
  if !code || !(responseCode ≥ 200 && responseCode < 300) then
    let _ ← Program.ask .curl_easy_strerror
    return (false, responseCode)
  return (true, responseCode)

/-- What is joined to `init` by `&&`. -/
def andPerform (ok : Bool) (options : List CURLoption) (reply : Reply) : Transfer (Bool × Int) := do
  if !ok then
    return (false, -1)
  if !(← setOptions options) then
    return (false, -1)
  performWith reply

end Curl

def doStrictWith (options : List CURLoption) (reply : Reply) (request : HttpRequest) :
    Transfer HttpResponse := do
  let curl_ ← Program.ask .curl_easy_init
  let (ok, headers_) ← Curl.init curl_ request
  let (ok, responseCode) ← Curl.andPerform ok options reply
  Curl.delete curl_ headers_
  return HttpResponse.new.finish reply ok responseCode

def doGetWith : Reply → HttpRequest → Transfer HttpResponse := doStrictWith [.FOLLOWLOCATION]

def doPostWith : Reply → HttpRequest → Transfer HttpResponse :=
  doStrictWith [.POST, .POSTFIELDS, .POSTFIELDSIZE]

def doDeleteWith : Reply → HttpRequest → Transfer HttpResponse :=
  doStrictWith [.CUSTOMREQUEST, .FOLLOWLOCATION]

/-- `doPut` once the upload file is open. -/
def putWith (reply : Reply) (request : HttpRequest) : Transfer HttpResponse := do
  let curl_ ← Program.ask .curl_easy_init
  let (_, headers_) ← Curl.init curl_ request
  setAll [.CUSTOMREQUEST, .VERBOSE, .POSTFIELDS, .POSTFIELDSIZE]
  if request.uploadFilePath_ ≠ "" then  -- `fp`
    setAll [.UPLOAD, .READFUNCTION, .READDATA, .INFILESIZE_LARGE]
  let (ok, responseCode) ← Curl.performWith reply
  Curl.delete curl_ headers_
  return HttpResponse.new.finish reply ok responseCode

def doPutWith (reply : Reply) (request : HttpRequest) : Transfer (Option HttpResponse) := do
  if !(← openUpload request) then
    return none  -- `fseek` of a null pointer
  return some (← putWith reply request)

/-- The response that the callback gets, if it's defined that there is one. -/
def processResponseWith (reply : Reply) (request : HttpRequest) :
    Transfer (Option HttpResponse) :=
  match request.requestType_ with
  | .GET => return some (← doGetWith reply request)
  | .POST => return some (← doPostWith reply request)
  | .PUT => doPutWith reply request
  | .DELETE => return some (← doDeleteWith reply request)
  | .UNKNOWN => return some HttpResponse.new

/-! ## What the calls should come to

A transfer is to be performed with every option that its request and the client's settings ask for,
or not at all, and the response is to say which. This is said of the calls and their answers,
without a word on how the functions get there. -/

/-- The settings of the client that decide the calls. They may be changed while transfers are under
way; one transfer asks for each of them once. -/
structure Settings where
  cookieFilename_ : String
  sslCaFilename_ : String

/-- What is asked of the settings is answered from them. -/
def Settings.Given (settings : Settings) (trace : List (Instr × Bool)) : Prop :=
  ∀ answer,
    ((.getCookieFilename, answer) ∈ trace → answer = decide (settings.cookieFilename_ ≠ "")) ∧
    ((.getSSLVerification, answer) ∈ trace → answer = decide (settings.sslCaFilename_ ≠ ""))

/-- The options that `Curl::init` sets. -/
def initOptions (settings : Settings) (request : HttpRequest) : List CURLoption :=
  [.NOSIGNAL, .ACCEPT_ENCODING] ++
    (if settings.cookieFilename_ ≠ "" then [.COOKIEFILE, .COOKIEJAR] else []) ++
    [.TIMEOUT, .CONNECTTIMEOUT, .SSL_VERIFYPEER, .SSL_VERIFYHOST] ++
    (if settings.sslCaFilename_ ≠ "" then [.CAINFO] else []) ++
    (if request.headers_ ≠ [] then [.HTTPHEADER] else []) ++
    [.URL, .WRITEFUNCTION, .WRITEDATA, .HEADERFUNCTION, .HEADERDATA, .ERRORBUFFER]

/-- The options that the member function sets behind it. -/
def memberOptions (request : HttpRequest) : List CURLoption :=
  match request.requestType_ with
  | .GET => [.FOLLOWLOCATION]
  | .POST => [.POST, .POSTFIELDS, .POSTFIELDSIZE]
  | .PUT => [.CUSTOMREQUEST, .VERBOSE, .POSTFIELDS, .POSTFIELDSIZE] ++
    if request.uploadFilePath_ ≠ "" then [.UPLOAD, .READFUNCTION, .READDATA, .INFILESIZE_LARGE]
    else []
  | .DELETE => [.CUSTOMREQUEST, .FOLLOWLOCATION]
  | .UNKNOWN => []

/-- The options set, and whether that went well. -/
def setopts (trace : List (Instr × Bool)) : List (CURLoption × Bool) :=
  trace.filterMap fun x =>
    match x.1 with
    | .curl_easy_setopt option => some (option, x.2)
    | _ => none

def beforePerform (trace : List (Instr × Bool)) : List (Instr × Bool) :=
  trace.takeWhile fun x => x.1 ≠ .curl_easy_perform

/-- Nothing is performed but with every option set, and the response says how it went. Where nothing
is performed the first part says nothing, and the response has not succeeded. -/
structure Handled (settings : Settings) (request : HttpRequest) (reply : Reply)
    (trace : List (Instr × Bool)) (response : HttpResponse) : Prop where
  configured : ∀ answer, (.curl_easy_perform, answer) ∈ trace →
    setopts (beforePerform trace) =
      (initOptions settings request ++ memberOptions request).map fun option => (option, true)
  succeed_iff : response.succeed_ = true ↔
    (.curl_easy_perform, true) ∈ trace ∧ (.curl_easy_getinfo, true) ∈ trace ∧
      200 ≤ reply.responseCode ∧ reply.responseCode < 300
  failed : response.succeed_ = false → response.errorBuffer_ = reply.errorBuf

/-- There is a handle, and no option of it was rejected. -/
def Accepted (trace : List (Instr × Bool)) : Prop :=
  (.curl_easy_init, true) ∈ trace ∧ ∀ option, (.curl_easy_setopt option, false) ∉ trace

/-- And before that the upload file was opened, if there was one to open. -/
def AllSet (trace : List (Instr × Bool)) : Prop :=
  (.fopen, false) ∉ trace ∧ Accepted trace

/-! ## The options of `Curl::init`

A sequence of options has one answer: whether all of them were set. What is known of its calls is
put together along the sequence, and the settings are asked on the way. -/

open Program

@[simp] theorem setopts_nil : setopts [] = [] := rfl

theorem setopts_append (trace trace' : List (Instr × Bool)) :
    setopts (trace ++ trace') = setopts trace ++ setopts trace' :=
  List.filterMap_append

theorem mem_setopts {option : CURLoption} {answer : Bool} {trace : List (Instr × Bool)} :
    (option, answer) ∈ setopts trace ↔ (.curl_easy_setopt option, answer) ∈ trace := by
  unfold setopts
  rw [List.mem_filterMap]
  constructor
  · rintro ⟨⟨i, b⟩, hmem, hx⟩
    cases i with
    | curl_easy_setopt o =>
      obtain ⟨rfl, rfl⟩ := Prod.mk.inj (Option.some.inj hx)
      exact hmem
    | _ => cases hx
  · intro hmem
    exact ⟨_, hmem, rfl⟩

variable {settings : Settings} {request : HttpRequest} {reply : Reply} {α : Type}

theorem Settings.Given.left {trace trace' : List (Instr × Bool)}
    (h : settings.Given (trace ++ trace')) : settings.Given trace := by
  intro answer
  exact ⟨fun hmem => (h answer).1 (List.mem_append_left _ hmem),
    fun hmem => (h answer).2 (List.mem_append_left _ hmem)⟩

theorem Settings.Given.right {trace trace' : List (Instr × Bool)}
    (h : settings.Given (trace ++ trace')) : settings.Given trace' := by
  intro answer
  exact ⟨fun hmem => (h answer).1 (List.mem_append_right _ hmem),
    fun hmem => (h answer).2 (List.mem_append_right _ hmem)⟩

theorem Settings.Given.tail {x : Instr × Bool} {trace : List (Instr × Bool)}
    (h : settings.Given (x :: trace)) : settings.Given trace :=
  Settings.Given.right (show settings.Given ([x] ++ trace) from h)

theorem Settings.Given.head {x : Instr × Bool} {trace : List (Instr × Bool)}
    (h : settings.Given (x :: trace)) : settings.Given [x] :=
  Settings.Given.left (show settings.Given ([x] ++ trace) from h)

/-- All of the options were set, or one was rejected. -/
def Configured (options : List CURLoption) (ok : Bool) (trace : List (Instr × Bool)) : Prop :=
  if ok then setopts trace = options.map fun option => (option, true)
  else ∃ option, (option, false) ∈ setopts trace

/-- A program that sets the options one after the other; its value says whether all were set. -/
def Sets (settings : Settings) (ok : α → Bool) (t : Transfer α) (options : List CURLoption) :
    Prop :=
  t.Ensures fun trace a => settings.Given trace → Configured options (ok a) trace

theorem Sets.ret {ok : α → Bool} {a : α} (ha : ok a = true) : Sets settings ok (.ret a) [] := by
  intro _
  rw [Configured, ha]
  rfl

/-- The first part says whether there is a second one. -/
theorem Sets.bind {t : Transfer Bool} {ok : α → Bool} {f : Bool → Transfer α} {a : α}
    {options options' : List CURLoption} (ht : Sets settings id t options)
    (hfalse : f false = .ret a) (ha : ok a = false) (htrue : Sets settings ok (f true) options') :
    Sets settings ok (t.bind f) (options ++ options') := by
  apply Ensures.bind ht
  intro trace answer hset
  cases answer with
  | false =>
    rw [hfalse]
    intro hgiven
    rw [List.append_nil] at hgiven ⊢
    rw [ha]
    exact hset hgiven
  | true =>
    apply Ensures.mono htrue
    intro trace' b hset' hgiven
    have hfirst : setopts trace = options.map fun option => (option, true) := hset hgiven.left
    have hthen := hset' hgiven.right
    unfold Configured at hthen ⊢
    rw [setopts_append, hfirst, List.map_append]
    split
    · next hok =>
      rw [if_pos hok] at hthen
      rw [hthen]
    · next hok =>
      rw [if_neg hok] at hthen
      obtain ⟨option, hmem⟩ := hthen
      exact ⟨option, List.mem_append_right _ hmem⟩

/-- A first instruction that sets no option. -/
theorem Sets.ask {ok : α → Bool} {i : Instr} {f : Bool → Transfer α} {options : List CURLoption}
    (hno : ∀ answer, setopts [(i, answer)] = [])
    (h : ∀ answer, settings.Given [(i, answer)] → Sets settings ok (f answer) options) :
    Sets settings ok ((Program.ask i).bind f) options := by
  intro answer
  by_cases hfirst : settings.Given [(i, answer)]
  · apply Ensures.mono (h answer hfirst)
    intro trace a hset hgiven
    have hcons : setopts ((i, answer) :: trace) = setopts trace := by
      rw [← List.singleton_append, setopts_append, hno, List.nil_append]
    unfold Configured
    rw [hcons]
    exact hset hgiven.tail
  · -- not an answer that the settings give
    apply Ensures.mono (ensures_true (f answer))
    intro trace a _ hgiven
    exact absurd hgiven.head hfirst

theorem Sets.setOption (option : CURLoption) :
    Sets settings id (Curl.setOption option) [option] := by
  intro answer _
  cases answer with
  | true => rfl
  | false => exact ⟨option, List.mem_singleton.mpr rfl⟩

theorem Sets.setOptions (options : List CURLoption) :
    Sets settings id (Curl.setOptions options) options := by
  induction options with
  | nil => exact Sets.ret rfl
  | cons option options ih => exact Sets.bind (Sets.setOption option) rfl rfl ih

theorem Sets.append {ok : α → Bool} {f : Bool → Transfer α} {options : List CURLoption}
    (h : ∀ headers_, Sets settings ok (f headers_) options) (headers : List String)
    (headers_ : Bool) : Sets settings ok ((Curl.append headers_ headers).bind f) options := by
  induction headers generalizing headers_ with
  | nil => exact h headers_
  | cons header headers ih => exact Sets.ask (fun _ => rfl) fun answer _ => ih answer

namespace Curl

/-! `init` once more, cut at its comments. -/

/-- From `/*set main option*/` on. -/
def initMain (headers_ : Bool) : Transfer (Bool × Bool) := do
  return (← setOptions [.URL, .WRITEFUNCTION, .WRITEDATA, .HEADERFUNCTION, .HEADERDATA,
    .ERRORBUFFER], headers_)

/-- From `/*set header*/` on. -/
def initHeaders (request : HttpRequest) : Transfer (Bool × Bool) :=
  if !request.headers_.isEmpty then do
    let headers_ ← append false request.headers_
    if !(← setOption .HTTPHEADER) then
      return (false, headers_)
    initMain headers_
  else initMain false

/-- From `/*set ssl*/` on. -/
def initSsl (request : HttpRequest) : Transfer (Bool × Bool) := do
  if ← Program.ask .getSSLVerification then
    if !(← setOptions [.SSL_VERIFYPEER, .SSL_VERIFYHOST, .CAINFO]) then
      return (false, false)
  else
    if !(← setOptions [.SSL_VERIFYPEER, .SSL_VERIFYHOST]) then
      return (false, false)
  initHeaders request

/-- From `/*set timeout*/` on. -/
def initTimeouts (request : HttpRequest) : Transfer (Bool × Bool) := do
  if !(← setOptions [.TIMEOUT, .CONNECTTIMEOUT]) then
    return (false, false)
  initSsl request

/-- From `/*set cookie*/` on. -/
def initCookies (request : HttpRequest) : Transfer (Bool × Bool) := do
  if ← Program.ask .getCookieFilename then
    if !(← setOptions [.COOKIEFILE, .COOKIEJAR]) then
      return (false, false)
  initTimeouts request

theorem init_eq (request : HttpRequest) : init true request = (do
    if !(← setOptions [.NOSIGNAL, .ACCEPT_ENCODING]) then
      return (false, false)
    initCookies request) :=
  rfl

end Curl

theorem Sets.initMain (headers_ : Bool) : Sets settings Prod.fst (Curl.initMain headers_)
    [.URL, .WRITEFUNCTION, .WRITEDATA, .HEADERFUNCTION, .HEADERDATA, .ERRORBUFFER] := by
  have h : Sets settings Prod.fst (Curl.initMain headers_) (_ ++ []) :=
    Sets.bind (Sets.setOptions _) rfl rfl (Sets.ret rfl)
  rw [List.append_nil] at h
  exact h

variable {options : List CURLoption}

theorem Sets.initHeaders (h : ∀ headers_, Sets settings Prod.fst (Curl.initMain headers_) options) :
    Sets settings Prod.fst (Curl.initHeaders request)
      ((if request.headers_ ≠ [] then [.HTTPHEADER] else []) ++ options) := by
  unfold Curl.initHeaders
  by_cases hheaders : request.headers_ = []
  · rw [hheaders]
    exact h false
  · rw [List.isEmpty_eq_false_iff.mpr hheaders, if_pos hheaders]
    refine Sets.append (fun headers_ => ?_) request.headers_ false
    have hfalse : (false, headers_).fst = false := rfl
    exact Sets.bind (Sets.setOption .HTTPHEADER) rfl hfalse (h headers_)

theorem Sets.initSsl (h : Sets settings Prod.fst (Curl.initHeaders request) options) :
    Sets settings Prod.fst (Curl.initSsl request) ([.SSL_VERIFYPEER, .SSL_VERIFYHOST] ++
      (if settings.sslCaFilename_ ≠ "" then [.CAINFO] else []) ++ options) := by
  apply Sets.ask (fun _ => rfl)
  intro answer hgiven
  have hanswer : answer = decide (settings.sslCaFilename_ ≠ "") :=
    (hgiven answer).2 (List.mem_singleton.mpr rfl)
  cases answer with
  | true =>
    rw [if_pos (of_decide_eq_true hanswer.symm)]
    exact Sets.bind (Sets.setOptions [.SSL_VERIFYPEER, .SSL_VERIFYHOST, .CAINFO]) rfl rfl h
  | false =>
    rw [if_neg (of_decide_eq_false hanswer.symm)]
    exact Sets.bind (Sets.setOptions [.SSL_VERIFYPEER, .SSL_VERIFYHOST]) rfl rfl h

theorem Sets.initTimeouts (h : Sets settings Prod.fst (Curl.initSsl request) options) :
    Sets settings Prod.fst (Curl.initTimeouts request) ([.TIMEOUT, .CONNECTTIMEOUT] ++ options) :=
  Sets.bind (Sets.setOptions [.TIMEOUT, .CONNECTTIMEOUT]) rfl rfl h

theorem Sets.initCookies (h : Sets settings Prod.fst (Curl.initTimeouts request) options) :
    Sets settings Prod.fst (Curl.initCookies request)
      ((if settings.cookieFilename_ ≠ "" then [.COOKIEFILE, .COOKIEJAR] else []) ++ options) := by
  apply Sets.ask (fun _ => rfl)
  intro answer hgiven
  have hanswer : answer = decide (settings.cookieFilename_ ≠ "") :=
    (hgiven answer).1 (List.mem_singleton.mpr rfl)
  cases answer with
  | true =>
    rw [if_pos (of_decide_eq_true hanswer.symm)]
    exact Sets.bind (Sets.setOptions [.COOKIEFILE, .COOKIEJAR]) rfl rfl h
  | false =>
    rw [if_neg (of_decide_eq_false hanswer.symm)]
    exact h

theorem Sets.init :
    Sets settings Prod.fst (Curl.init true request) (initOptions settings request) := by
  have hcookies : Sets settings Prod.fst (Curl.initCookies request) _ :=
    Sets.initCookies (Sets.initTimeouts (Sets.initSsl (Sets.initHeaders Sets.initMain)))
  have h : Sets settings Prod.fst (Curl.init true request) _ :=
    Sets.bind (Sets.setOptions [.NOSIGNAL, .ACCEPT_ENCODING]) rfl rfl hcookies
  unfold initOptions
  simp only [List.append_assoc, List.cons_append, List.nil_append] at h ⊢
  exact h

/-! ## The calls around `perform`

Three kinds of calls, in this order: those that configure the handle, those of `Curl::perform`, and
those of the destructor. No kind makes a call of another one. -/

/-- What comes between the constructor and `perform`. -/
def Instr.configures : Instr → Bool
  | .curl_easy_setopt _ | .curl_slist_append | .getCookieFilename | .getSSLVerification => true
  | _ => false

/-- What comes behind it and belongs to `Curl::perform`. -/
def Instr.concludes : Instr → Bool
  | .curl_easy_getinfo | .curl_easy_strerror => true
  | _ => false

/-- What `~Curl` consists of. -/
def Instr.cleans : Instr → Bool
  | .curl_easy_cleanup | .curl_slist_free_all => true
  | _ => false

theorem configures_setOptions (options : List CURLoption) :
    (Curl.setOptions options).Only Instr.configures := by
  induction options with
  | nil => trivial
  | cons option options ih =>
    refine ⟨rfl, fun answer => ?_⟩
    cases answer with
    | true => exact ih
    | false => trivial

theorem configures_append (headers : List String) (headers_ : Bool) :
    (Curl.append headers_ headers).Only Instr.configures := by
  induction headers generalizing headers_ with
  | nil => trivial
  | cons header headers ih => exact ⟨rfl, fun answer => ih answer⟩

theorem configures_setAll (options : List CURLoption) : (setAll options).Only Instr.configures :=
  only_setAll (fun _ => rfl) options

/-- Options, and what follows if they could be set. -/
theorem configures_then {options : List CURLoption} {t : Transfer α} {a : α}
    (h : t.Only Instr.configures) :
    ((Curl.setOptions options).bind fun ok => if !ok then .ret a else t).Only
      Instr.configures := by
  apply (configures_setOptions options).bind
  intro ok
  cases ok with
  | true => exact h
  | false => trivial

theorem configures_initHeaders : (Curl.initHeaders request).Only Instr.configures := by
  have hmain : ∀ headers_, (Curl.initMain headers_).Only Instr.configures :=
    fun _ => (configures_setOptions _).bind fun _ => trivial
  unfold Curl.initHeaders
  split
  · apply (configures_append request.headers_ false).bind
    intro headers_
    refine ⟨rfl, fun answer => ?_⟩
    cases answer with
    | true => exact hmain headers_
    | false => trivial
  · exact hmain false

theorem configures_init (curl_ : Bool) : (Curl.init curl_ request).Only Instr.configures := by
  cases curl_ with
  | false => trivial
  | true =>
    rw [Curl.init_eq]
    apply configures_then
    have htimeouts : (Curl.initTimeouts request).Only Instr.configures := by
      apply configures_then
      refine ⟨rfl, fun answer => ?_⟩
      cases answer with
      | true => exact configures_then configures_initHeaders
      | false => exact configures_then configures_initHeaders
    refine ⟨rfl, fun answer => ?_⟩
    cases answer with
    | true => exact configures_then htimeouts
    | false => exact htimeouts

theorem cleans_delete (curl_ headers_ : Bool) :
    (Curl.delete curl_ headers_).Only Instr.cleans :=
  only_delete rfl rfl curl_ headers_

/-! ## One call of `perform`

The outcome depends on three answers: that of `curl_easy_perform`, whether the code could be asked
for, and the code. Whatever it is, the handle is cleaned up behind it. -/

/-- `perform` was called after `pre`, and `ok` is what is made of its outcome. -/
def Performed (reply : Reply) (pre trace : List (Instr × Bool)) (ok : Bool) : Prop :=
  ∃ answer rest, trace = pre ++ (.curl_easy_perform, answer) :: rest ∧
    (∀ x ∈ rest, x.1.concludes = true ∨ x.1.cleans = true) ∧
    (ok = true ↔ answer = true ∧ (.curl_easy_getinfo, true) ∈ rest ∧
      200 ≤ reply.responseCode ∧ reply.responseCode < 300)

theorem performWith_ensures :
    (Curl.performWith reply).Ensures fun trace r => Performed reply [] trace r.1 := by
  intro answer
  cases answer with
  | false => exact ⟨false, [], rfl, by simp, by simp⟩
  | true =>
    intro code
    cases code with
    | false =>
      intro message
      refine ⟨true, [(.curl_easy_getinfo, false), (.curl_easy_strerror, message)], rfl, ?_, ?_⟩
      · simp [Instr.concludes]
      · simp
    | true =>
      show Ensures (if (!true || !(decide (reply.responseCode ≥ 200) &&
        decide (reply.responseCode < 300))) = true then _ else _) _
      cases hin : decide (reply.responseCode ≥ 200) && decide (reply.responseCode < 300) with
      | false =>
        intro message
        refine ⟨true, [(.curl_easy_getinfo, true), (.curl_easy_strerror, message)], rfl, ?_, ?_⟩
        · simp [Instr.concludes]
        · simpa using hin
      | true =>
        refine ⟨true, [(.curl_easy_getinfo, true)], rfl, ?_, ?_⟩
        · simp [Instr.concludes]
        · simpa using hin

theorem Performed.after {pre trace : List (Instr × Bool)} {ok : Bool}
    (h : Performed reply pre trace ok) (pre' : List (Instr × Bool)) :
    Performed reply (pre' ++ pre) (pre' ++ trace) ok := by
  obtain ⟨answer, rest, rfl, hrest, hok⟩ := h
  exact ⟨answer, rest, (List.append_assoc ..).symm, hrest, hok⟩

/-- The handle is cleaned up behind it. -/
theorem Performed.cleaned {pre trace trace' : List (Instr × Bool)} {ok : Bool}
    (h : Performed reply pre trace ok) (hclean : ∀ x ∈ trace', x.1.cleans = true) :
    Performed reply pre (trace ++ trace') ok := by
  obtain ⟨answer, rest, rfl, hrest, hok⟩ := h
  refine ⟨answer, rest ++ trace', by simp, ?_, ?_⟩
  · intro x hx
    cases List.mem_append.mp hx with
    | inl hx => exact hrest x hx
    | inr hx => exact Or.inr (hclean x hx)
  · have hno : (.curl_easy_getinfo, true) ∉ trace' := by
      intro hmem
      cases hclean _ hmem
    rw [hok, List.mem_append, or_iff_left hno]

/-! ## Whole runs

From the constructor to the destructor. What was set before the one call of `perform` is all that
was set, so whether the transfer is what was asked for can be read off the answers to the options.
-/

variable {trace pre : List (Instr × Bool)} {response : HttpResponse}

/-- What comes before `perform`. -/
def Instr.prepares : Instr → Bool
  | .curl_easy_init => true
  | i => i.configures

theorem prepares_of_configures {i : Instr} (h : i.configures = true) : i.prepares = true := by
  cases i with
  | curl_easy_init => rfl
  | _ => exact h

/-- The constructor, and what is between it and `perform`. -/
theorem prepares_cons {trace : List (Instr × Bool)} (h : ∀ x ∈ trace, x.1.configures = true)
    (curl_ : Bool) : ∀ x ∈ (.curl_easy_init, curl_) :: trace, x.1.prepares = true :=
  List.forall_mem_cons.mpr ⟨rfl, fun x hx => prepares_of_configures (h x hx)⟩

/-- Where nothing is performed there is only the response to look at. -/
theorem Handled.of_prepares (h : ∀ x ∈ trace, x.1.prepares = true ∨ x.1.cleans = true)
    (hsucceed : response.succeed_ = false) (hfailed : response.errorBuffer_ = reply.errorBuf) :
    Handled settings request reply trace response := by
  have hno : ∀ answer, (Instr.curl_easy_perform, answer) ∉ trace := by
    intro answer hmem
    cases h _ hmem with
    | inl h => cases h
    | inr h => cases h
  refine ⟨fun answer hmem => absurd hmem (hno answer), ?_, fun _ => hfailed⟩
  rw [hsucceed]
  simp [hno]

theorem beforePerform_append {answer : Bool} {rest : List (Instr × Bool)}
    (hpre : ∀ x ∈ pre, x.1.prepares = true) :
    beforePerform (pre ++ (.curl_easy_perform, answer) :: rest) = pre := by
  have hno : ∀ x ∈ pre, decide (x.1 ≠ .curl_easy_perform) = true := by
    intro x hx
    apply decide_eq_true
    intro heq
    have hprep := hpre x hx
    rw [heq] at hprep
    cases hprep
  unfold beforePerform
  rw [List.takeWhile_append_of_pos hno]
  simp

/-! ### What decides

Behind `curl_easy_perform` nothing is configured any more. So what a run has asked for before it,
and how that was answered, is all that the first parts of `Handled` are about. -/

/-- Where something is performed the options before it decide. -/
theorem handled_iff (h : Performed reply pre trace response.succeed_)
    (hpre : ∀ x ∈ pre, x.1.prepares = true)
    (hfailed : response.succeed_ = false → response.errorBuffer_ = reply.errorBuf) :
    Handled settings request reply trace response ↔ setopts pre =
      (initOptions settings request ++ memberOptions request).map fun option => (option, true) := by
  obtain ⟨answer, rest, rfl, hrest, hok⟩ := h
  have hperform : ∀ answer', (Instr.curl_easy_perform, answer') ∉ pre := by
    intro answer' hmem
    cases hpre _ hmem
  have hperform' : ∀ answer', (Instr.curl_easy_perform, answer') ∉ rest := by
    intro answer' hmem
    cases hrest _ hmem with
    | inl h => cases h
    | inr h => cases h
  have hgetinfo : (Instr.curl_easy_getinfo, true) ∉ pre := by
    intro hmem
    cases hpre _ hmem
  constructor
  · intro hhandled
    rw [← hhandled.configured answer (List.mem_append_right _ List.mem_cons_self),
      beforePerform_append hpre]
  · intro hset
    refine ⟨fun answer' _ => ?_, ?_, hfailed⟩
    · rw [beforePerform_append hpre, hset]
    · rw [hok]
      simp [hperform, hperform', hgetinfo, eq_comm]

/-- Without a handle `init` does nothing. -/
theorem init_ensures (settings : Settings) (curl_ : Bool) : (Curl.init curl_ request).Ensures
    fun trace r => (∀ x ∈ trace, x.1.configures = true) ∧ (settings.Given trace →
      if curl_ then Configured (initOptions settings request) r.1 trace
      else trace = [] ∧ r.1 = false) := by
  apply (ensures_only (configures_init curl_)).and
  cases curl_ with
  | false => exact fun _ => ⟨rfl, rfl⟩
  | true => exact Sets.init

/-- The options of the member are set, or nothing is performed. -/
theorem andPerform_ensures (settings : Settings) (ok : Bool) (options : List CURLoption) :
    (Curl.andPerform ok options reply).Ensures fun trace r =>
      (∀ x ∈ trace, x.1.configures = true) ∧ r.1 = false ∨
      ok = true ∧ ∃ pre, Performed reply pre trace r.1 ∧ (∀ x ∈ pre, x.1.configures = true) ∧
        (settings.Given trace → setopts pre = options.map fun option => (option, true)) := by
  cases ok with
  | false => exact Or.inl ⟨by simp, rfl⟩
  | true =>
    have hset : Sets settings id (Curl.setOptions options) options := Sets.setOptions options
    apply Ensures.bind ((ensures_only (configures_setOptions options)).and hset)
    intro pre answer hpre
    cases answer with
    | false =>
      refine Or.inl ⟨?_, rfl⟩
      rw [List.append_nil]
      exact hpre.1
    | true =>
      apply Ensures.mono performWith_ensures
      intro trace r hperformed
      have hafter := hperformed.after pre
      rw [List.append_nil] at hafter
      exact Or.inr ⟨rfl, pre, hafter, hpre.1, fun hgiven => hpre.2 hgiven.left⟩

theorem finish_succeed (response : HttpResponse) (ok : Bool) (responseCode : Int) :
    (response.finish reply ok responseCode).succeed_ = ok := by
  cases ok with
  | true => rfl
  | false => rfl

theorem finish_failed {response : HttpResponse} {ok : Bool} {responseCode : Int}
    (h : ok = false) : (response.finish reply ok responseCode).errorBuffer_ = reply.errorBuf := by
  rw [h]
  rfl

variable {curl_ ok : Bool} {init body rest : List (Instr × Bool)}

/-- From the constructor to the destructor, with a transfer performed between them. -/
theorem handled_scope_iff (responseCode : Int) (hinit : ∀ x ∈ init, x.1.configures = true)
    (hperformed : Performed reply pre body ok) (hpre : ∀ x ∈ pre, x.1.configures = true)
    (hrest : ∀ x ∈ rest, x.1.cleans = true) :
    Handled settings request reply ((.curl_easy_init, curl_) :: (init ++ (body ++ rest)))
        (HttpResponse.new.finish reply ok responseCode) ↔
      setopts init ++ setopts pre =
        (initOptions settings request ++ memberOptions request).map fun option =>
          (option, true) := by
  have hall : Performed reply ((.curl_easy_init, curl_) :: init ++ pre)
      ((.curl_easy_init, curl_) :: init ++ (body ++ rest)) ok :=
    (hperformed.cleaned hrest).after _
  have hprepares : ∀ x ∈ (.curl_easy_init, curl_) :: (init ++ pre), x.1.prepares = true :=
    prepares_cons (List.forall_mem_append.mpr ⟨hinit, hpre⟩) curl_
  rw [← setopts_append]
  rw [← finish_succeed HttpResponse.new ok responseCode] at hall
  apply handled_iff hall hprepares
  intro hfalse
  rw [finish_succeed] at hfalse
  exact finish_failed hfalse

/-- Joined by `&&` the calls come to nothing but what is wanted. -/
theorem doStrictWith_ensures {options : List CURLoption}
    (hoptions : memberOptions request = options) :
    (doStrictWith options reply request).Ensures fun trace response =>
      settings.Given trace → Handled settings request reply trace response := by
  intro curl_
  apply Ensures.bind (init_ensures settings curl_)
  rintro init ⟨ok, headers_⟩ ⟨hconf, hset⟩
  apply Ensures.bind (andPerform_ensures settings ok options)
  rintro body ⟨ok', responseCode⟩ hbody
  apply Ensures.bind (ensures_only (cleans_delete curl_ headers_))
  intro rest _ hrest hgiven
  rw [List.append_nil] at hgiven ⊢
  -- the `&&` has been cut off, or it has come to `perform`
  cases hbody with
  | inl hbody =>
    obtain ⟨hbody, rfl⟩ := hbody
    apply Handled.of_prepares
    · have hbefore : ∀ x ∈ (.curl_easy_init, curl_) :: (init ++ body), x.1.prepares = true :=
        prepares_cons (List.forall_mem_append.mpr ⟨hconf, hbody⟩) curl_
      intro x hx
      rw [← List.append_assoc, ← List.cons_append] at hx
      exact (List.mem_append.mp hx).imp (hbefore x) (hrest x)
    · rfl
    · rfl
  | inr hbody =>
    -- performed: so everything before went well, and the options are all there
    obtain ⟨rfl, pre, hperformed, hpre, hmember⟩ := hbody
    apply (handled_scope_iff responseCode hconf hperformed hpre hrest).mpr
    -- without a handle `init` would not have gone well
    have hinit := hset hgiven.tail.left
    cases curl_ with
    | false => cases hinit.2
    | true =>
      have hall : setopts init = _ := hinit
      rw [hall, hmember hgiven.tail.right.left, hoptions, List.map_append]

/-! ## A run of `doPut`

It goes on whatever the answers are, so `perform` is called in any case, with the null handle as
with a live one. All then depends on there being a handle and on no option having been rejected. -/

theorem setAll_ensures (options : List CURLoption) : (setAll options).Ensures fun trace _ =>
    (∀ x ∈ trace, x.1.configures = true) ∧ (setopts trace).map Prod.fst = options := by
  apply (ensures_only (configures_setAll options)).and
  induction options with
  | nil => exact rfl
  | cons option options ih =>
    intro answer
    apply Ensures.mono ih
    intro trace _ htrace
    rw [← htrace]
    rfl

theorem rejected_not_mem (option : CURLoption) (options : List CURLoption) :
    (option, false) ∉ options.map fun option => (option, true) := by
  intro hmem
  obtain ⟨option', _, hoption⟩ := List.mem_map.mp hmem
  cases hoption

/-- Where none was rejected all went well. -/
theorem all_set {l : List (CURLoption × Bool)} (hno : ∀ option, (option, false) ∉ l) :
    l = (l.map Prod.fst).map fun option => (option, true) := by
  rw [List.map_map]
  refine (List.map_id _).symm.trans (List.map_congr_left ?_)
  rintro ⟨option, answer⟩ hmem
  cases answer with
  | true => rfl
  | false => exact absurd hmem (hno option)

/-- What `init` and the member have set is what is wanted, unless one was rejected. -/
theorem all_configured_iff {member : List (CURLoption × Bool)} {options' : List CURLoption}
    (hne : options ≠ [])
    (hinit : if curl_ then Configured options ok init else init = [] ∧ ok = false)
    (hmember : member.map Prod.fst = options') :
    (setopts init ++ member = (options ++ options').map fun option => (option, true)) ↔
      curl_ = true ∧ ∀ option, (option, false) ∉ setopts init ++ member := by
  cases curl_ with
  | false =>
    obtain ⟨rfl, _⟩ := hinit
    refine ⟨fun heq => ?_, fun h => by cases h.1⟩
    -- none of the options of `init` were set
    have hlength := congrArg List.length heq
    rw [List.length_map, List.length_append, ← hmember] at hlength
    simp [hne] at hlength
  | true =>
    constructor
    · intro heq
      rw [heq]
      exact ⟨rfl, fun option => rejected_not_mem option _⟩
    · rintro ⟨_, hno⟩
      cases ok with
      | true =>
        have hset : setopts init = options.map fun option => (option, true) := hinit
        have hno' : ∀ option, (option, false) ∉ member :=
          fun option hmem => hno option (List.mem_append_right _ hmem)
        rw [List.map_append, ← hset, ← hmember, ← all_set hno']
      | false =>
        obtain ⟨option, hmem⟩ := hinit
        exact absurd (List.mem_append_left _ hmem) (hno option)

theorem initOptions_ne_nil : initOptions settings request ≠ [] := by
  simp [initOptions]

theorem not_prepares {i : Instr} (h : i.concludes = true ∨ i.cleans = true) :
    i.prepares = false := by
  cases i with
  | curl_easy_perform => rfl
  | curl_easy_getinfo => rfl
  | curl_easy_strerror => rfl
  | curl_easy_cleanup => rfl
  | curl_slist_free_all => rfl
  | _ => simp [Instr.concludes, Instr.cleans] at h

theorem Performed.not_prepares (h : Performed reply [] body ok) :
    ∀ x ∈ body, x.1.prepares = false := by
  obtain ⟨answer, rest, rfl, hrest, _⟩ := h
  exact List.forall_mem_cons.mpr ⟨rfl, fun x hx => HttpClient.not_prepares (hrest x hx)⟩

/-- What prepares a transfer is found before it. -/
theorem mem_prepared {tail : List (Instr × Bool)} (htail : ∀ x ∈ tail, x.1.prepares = false)
    {x : Instr × Bool} (hx : x.1.prepares = true) :
    x ∈ (.curl_easy_init, curl_) :: (pre ++ tail) ↔ x = (.curl_easy_init, curl_) ∨ x ∈ pre := by
  have hno : x ∉ tail := by
    intro hmem
    rw [htail x hmem] at hx
    cases hx
  rw [List.mem_cons, List.mem_append, or_iff_left hno]

/-! ### From the options to the end

What a run of `doPut` is like from the constructor on: with a handle or without, it performs,
whatever became of the options. -/

/-- What `doPut` does once the options of the member are set. -/
theorem performed_ensures {set : List (Instr × Bool)} (headers_ : Bool)
    (hinit : ∀ x ∈ init, x.1.configures = true)
    (hconfigured : settings.Given init →
      if curl_ then Configured (initOptions settings request) ok init else init = [] ∧ ok = false)
    (hset : ∀ x ∈ set, x.1.configures = true)
    (hmember : (setopts set).map Prod.fst = memberOptions request) :
    ((Curl.performWith reply).bind fun r => (Curl.delete curl_ headers_).bind fun _ =>
      .ret (HttpResponse.new.finish reply r.1 r.2)).Ensures fun trace response =>
        settings.Given ((.curl_easy_init, curl_) :: (init ++ (set ++ trace))) →
          (Handled settings request reply ((.curl_easy_init, curl_) :: (init ++ (set ++ trace)))
            response ↔ Accepted ((.curl_easy_init, curl_) :: (init ++ (set ++ trace)))) := by
  apply Ensures.bind performWith_ensures
  intro body r hperformed
  apply Ensures.bind (ensures_only (cleans_delete curl_ headers_))
  intro rest _ hrest hgiven
  -- `perform` is reached whatever became of the options
  have hafter := hperformed.after set
  rw [List.append_nil] at hafter hgiven ⊢
  have hbefore : ∀ x ∈ init ++ set, x.1.configures = true :=
    List.forall_mem_append.mpr ⟨hinit, hset⟩
  have htail : ∀ x ∈ body ++ rest, x.1.prepares = false :=
    List.forall_mem_append.mpr
      ⟨hperformed.not_prepares, fun x hx => not_prepares (Or.inr (hrest x hx))⟩
  -- the handle is asked for once, and first
  have hhandle : (.curl_easy_init, true) ∈
      (.curl_easy_init, curl_) :: (init ++ set ++ (body ++ rest)) ↔ curl_ = true := by
    have hno : (.curl_easy_init, true) ∉ init ++ set := by
      intro hmem
      cases hbefore _ hmem
    rw [mem_prepared htail rfl, or_iff_left hno]
    simp [eq_comm]
  -- a rejected option is one of `init` or one of the member
  have hrejected : ∀ option, (.curl_easy_setopt option, false) ∈
      (.curl_easy_init, curl_) :: (init ++ set ++ (body ++ rest)) ↔
        (option, false) ∈ setopts init ++ setopts set := by
    intro option
    rw [mem_prepared htail rfl, ← setopts_append, mem_setopts]
    simp
  unfold Accepted
  rw [← List.append_assoc init, hhandle]
  simp only [hrejected]
  rw [← all_configured_iff initOptions_ne_nil (hconfigured hgiven.tail.left) hmember,
    List.append_assoc init, ← List.append_assoc set]
  exact handled_scope_iff r.2 hinit hafter hset hrest

/-- `doPut` performs whatever became of the options. -/
theorem putWith_ensures (hrequest : request.requestType_ = .PUT) :
    (putWith reply request).Ensures fun trace response => settings.Given trace →
      (Handled settings request reply trace response ↔ Accepted trace) := by
  intro curl_
  apply Ensures.bind (init_ensures settings curl_)
  rintro init ⟨ok, headers_⟩ ⟨hinit, hconfigured⟩
  apply Ensures.bind (setAll_ensures _)
  rintro set _ ⟨hset, hmember⟩
  dsimp only
  split
  · next hupload =>
    apply Ensures.bind (setAll_ensures _)
    rintro upload _ ⟨hset', hmember'⟩
    have hall : ∀ x ∈ set ++ upload, x.1.configures = true :=
      List.forall_mem_append.mpr ⟨hset, hset'⟩
    have hmembers : (setopts (set ++ upload)).map Prod.fst = memberOptions request := by
      rw [setopts_append, List.map_append, hmember, hmember']
      simp [memberOptions, hrequest, hupload]
    apply Ensures.mono (performed_ensures headers_ hinit hconfigured hall hmembers)
    intro trace response h
    rw [List.append_assoc] at h
    exact h
  · next hupload =>
    apply performed_ensures headers_ hinit hconfigured hset
    rw [hmember]
    simp [memberOptions, hrequest, hupload]

/-- The upload file is opened once, before all else. -/
theorem putWith_opens_nothing : (putWith reply request).Only fun i => i ≠ .fopen := by
  -- neither setting options nor cleaning up opens a file, nor does `perform`
  have hconfigures : ∀ i : Instr, i.configures = true → decide (i ≠ .fopen) = true := by
    rintro i hi
    apply decide_eq_true
    rintro rfl
    cases hi
  have hcleans : ∀ i : Instr, i.cleans = true → decide (i ≠ .fopen) = true := by
    rintro i hi
    apply decide_eq_true
    rintro rfl
    cases hi
  have hperform : (Curl.performWith reply).Only fun i => i ≠ .fopen := by
    refine ⟨rfl, fun answer => ?_⟩
    cases answer with
    | false => trivial
    | true =>
      refine ⟨rfl, fun code => ?_⟩
      cases code with
      | false => exact ⟨rfl, fun _ => trivial⟩
      | true =>
        show Only _ (if (!true || !(decide (reply.responseCode ≥ 200) &&
          decide (reply.responseCode < 300))) = true then _ else _)
        split
        · exact ⟨rfl, fun _ => trivial⟩
        · trivial
  have hend : ∀ curl_ headers_, ((Curl.performWith reply).bind fun r =>
      (Curl.delete curl_ headers_).bind fun _ =>
        .ret (HttpResponse.new.finish reply r.1 r.2)).Only fun i => i ≠ .fopen :=
    fun curl_ headers_ => hperform.bind fun _ =>
      ((cleans_delete curl_ headers_).mono hcleans).bind fun _ => trivial
  refine ⟨rfl, fun curl_ => ?_⟩
  refine ((configures_init curl_).mono hconfigures).bind fun a => ?_
  refine ((configures_setAll _).mono hconfigures).bind fun _ => ?_
  dsimp only
  split
  · exact ((configures_setAll _).mono hconfigures).bind fun _ => hend curl_ a.2
  · exact hend curl_ a.2

theorem handled_opened : Handled settings request reply ((.fopen, true) :: trace) response ↔
    Handled settings request reply trace response := by
  have hset : setopts (beforePerform ((.fopen, true) :: trace)) = setopts (beforePerform trace) :=
    rfl
  have hother : ∀ {x : Instr × Bool}, x.1 ≠ .fopen → (x ∈ (.fopen, true) :: trace ↔ x ∈ trace) := by
    intro x hx
    rw [List.mem_cons, or_iff_right]
    rintro rfl
    exact hx rfl
  constructor
  · rintro ⟨configured, succeed_iff, failed⟩
    rw [hother (by simp), hother (by simp)] at succeed_iff
    exact ⟨fun answer hmem => configured answer (List.mem_cons_of_mem _ hmem), succeed_iff, failed⟩
  · rintro ⟨configured, succeed_iff, failed⟩
    refine ⟨fun answer hmem => configured answer ((hother (by simp)).mp hmem), ?_, failed⟩
    rw [hother (by simp), hother (by simp)]
    exact succeed_iff

theorem allSet_opened (hno : ∀ x ∈ trace, x.1 ≠ .fopen) :
    AllSet ((.fopen, true) :: trace) ↔ Accepted trace := by
  have hopened : (.fopen, false) ∉ (.fopen, true) :: trace := by
    intro hmem
    rcases List.mem_cons.mp hmem with heq | hmem
    · cases heq
    · exact hno _ hmem rfl
  unfold AllSet Accepted
  simp [hopened]

/-- A response there is only of an upload file that could be opened. -/
theorem doPutWith_ensures (hrequest : request.requestType_ = .PUT) :
    (doPutWith reply request).Ensures fun trace response => settings.Given trace →
      ((∃ marked ∈ response, Handled settings request reply trace marked) ↔ AllSet trace) := by
  have hiff : (putWith reply request).Ensures fun trace response => settings.Given trace →
      (Handled settings request reply trace response ↔ Accepted trace) := putWith_ensures hrequest
  have hput := hiff.and (ensures_only putWith_opens_nothing)
  unfold doPutWith openUpload
  split
  · intro opened
    cases opened with
    | false =>
      -- the code goes on with `fseek` of a null pointer
      intro _
      refine ⟨?_, fun hall => ?_⟩
      · rintro ⟨marked, hnone, -⟩
        cases hnone
      · exact absurd List.mem_cons_self hall.1
    | true =>
      apply Ensures.map (g := some)
      apply hput.mono
      rintro trace response ⟨hiff, hno⟩ hgiven
      rw [allSet_opened fun x hx => of_decide_eq_true (hno x hx), ← hiff hgiven.tail]
      simp [handled_opened]
  · apply Ensures.map (g := some)
    apply hput.mono
    rintro trace response ⟨hiff, hno⟩ hgiven
    have hclosed : (.fopen, false) ∉ trace :=
      fun hmem => of_decide_eq_true (hno _ hmem) rfl
    unfold AllSet
    rw [and_iff_right hclosed, ← hiff hgiven]
    simp

/-! ## The same calls

The functions here and those of `Transfer` are two texts of the same code, one with the response and
one without. A run of the first, its code judged, is a run of the second. -/

/-- A code that is no success counts as none. -/
def Reply.judge (reply : Reply) : Instr → Bool → Bool
  | .curl_easy_getinfo, code =>
    code && (decide (reply.responseCode ≥ 200) && decide (reply.responseCode < 300))
  | _, answer => answer

theorem judge_configures (i : Instr) (h : i.configures = true) (answer : Bool) :
    reply.judge i answer = answer := by
  cases i with
  | curl_easy_getinfo => cases h
  | _ => rfl

theorem judge_cleans (i : Instr) (h : i.cleans = true) (answer : Bool) :
    reply.judge i answer = answer := by
  cases i with
  | curl_easy_getinfo => cases h
  | _ => rfl

theorem performWith_follows :
    (Curl.performWith reply).Follows reply.judge (fun _ _ => True) Curl.perform := by
  refine ⟨rfl, fun answer => ?_⟩
  cases answer with
  | false => trivial
  | true =>
    refine ⟨rfl, fun code => ?_⟩
    cases code with
    | false => exact ⟨rfl, fun _ => trivial⟩
    | true =>
      show Follows _ _ (if (!true || !(decide (reply.responseCode ≥ 200) &&
        decide (reply.responseCode < 300))) = true then _ else _)
        (if (!(true && (decide (reply.responseCode ≥ 200) &&
        decide (reply.responseCode < 300)))) = true then _ else _)
      cases decide (reply.responseCode ≥ 200) && decide (reply.responseCode < 300) with
      | false => exact ⟨rfl, fun _ => trivial⟩
      | true => trivial

theorem delete_follows (curl_ headers_ : Bool) (response : HttpResponse) :
    ((Curl.delete curl_ headers_).bind fun _ => .ret response).Follows reply.judge
      (fun _ _ => True) (Curl.delete curl_ headers_) :=
  (Follows.refl judge_cleans (cleans_delete curl_ headers_)).map fun _ _ _ => trivial

/-- `perform` and what is behind it. -/
theorem end_follows (curl_ headers_ : Bool) (response : Bool × Int → HttpResponse) :
    ((Curl.performWith reply).bind fun r =>
      (Curl.delete curl_ headers_).bind fun _ => .ret (response r)).Follows reply.judge
        (fun _ _ => True) (Curl.perform.bind fun _ => Curl.delete curl_ headers_) :=
  performWith_follows.bind fun r _ _ => delete_follows curl_ headers_ (response r)

theorem doStrictWith_follows (options : List CURLoption) :
    (doStrictWith options reply request).Follows reply.judge (fun _ _ => True)
      (doStrict options request) := by
  refine ⟨rfl, fun curl_ => ?_⟩
  show Follows _ _ (Program.bind (Curl.init curl_ request) _)
    (Program.bind (Program.bind (Curl.init curl_ request) _) _)
  rw [bind_assoc]
  apply (Follows.refl judge_configures (configures_init curl_)).bind
  rintro ⟨ok, headers_⟩ _ rfl
  cases ok with
  | false => exact delete_follows curl_ headers_ _
  | true =>
    show Follows _ _ (Program.bind (Program.bind (Curl.setOptions options) _) _)
      (Program.bind (Program.bind (Curl.setOptions options) _) _)
    rw [bind_assoc, bind_assoc]
    apply (Follows.refl judge_configures (configures_setOptions options)).bind
    rintro answer _ rfl
    cases answer with
    | false => exact delete_follows curl_ headers_ _
    | true =>
      show Follows _ _ (Program.bind (Curl.performWith reply) _)
        (Program.bind (Program.bind Curl.perform _) _)
      rw [bind_assoc]
      exact end_follows curl_ headers_ _

theorem putWith_follows : (putWith reply request).Follows reply.judge (fun _ _ => True)
    (Curl.scope (put request)) := by
  refine ⟨rfl, fun curl_ => ?_⟩
  show Follows _ _ (Program.bind (Curl.init curl_ request) _)
    (Program.bind (Program.bind (Curl.init curl_ request) _) _)
  rw [bind_assoc]
  apply (Follows.refl judge_configures (configures_init curl_)).bind
  rintro ⟨ok, headers_⟩ _ rfl
  have hend : ((Curl.performWith reply).bind fun r => (Curl.delete curl_ headers_).bind fun _ =>
      .ret (HttpResponse.new.finish reply r.1 r.2)).Follows reply.judge (fun _ _ => True)
        ((Curl.perform.bind fun _ => .ret headers_).bind (Curl.delete curl_)) := by
    rw [bind_assoc]
    exact end_follows curl_ headers_ _
  show Follows _ _ (Program.bind (setAll _) _) (Program.bind (Program.bind (setAll _) _) _)
  rw [bind_assoc]
  apply (Follows.refl judge_configures (configures_setAll _)).bind
  intro _ _ _
  dsimp only
  split
  · show Follows _ _ (Program.bind (setAll _) _) (Program.bind (Program.bind (setAll _) _) _)
    rw [bind_assoc]
    apply (Follows.refl judge_configures (configures_setAll _)).bind
    intro _ _ _
    exact hend
  · exact hend

theorem doPutWith_follows :
    (doPutWith reply request).Follows reply.judge (fun _ _ => True) (doPut request) := by
  have hput : ((putWith reply request).bind fun marked => .ret (some marked)).Follows
      reply.judge (fun _ _ => True) (Curl.scope (put request)) :=
    putWith_follows.map fun _ _ _ => trivial
  unfold doPutWith doPut openUpload
  split
  · refine ⟨rfl, fun opened => ?_⟩
    cases opened with
    | false => trivial
    | true => exact hput
  · exact hput

/-- The response is filled in along the calls of `Transfer`. -/
theorem processResponseWith_follows (reply : Reply) (request : HttpRequest) :
    (processResponseWith reply request).Follows reply.judge (fun _ _ => True)
      (processResponse request) := by
  unfold processResponseWith processResponse
  cases request.requestType_ with
  | GET => exact (doStrictWith_follows _).map fun _ _ _ => trivial
  | POST => exact (doStrictWith_follows _).map fun _ _ _ => trivial
  | PUT => exact doPutWith_follows
  | DELETE => exact (doStrictWith_follows _).map fun _ _ _ => trivial
  | UNKNOWN => trivial

/-- With the code judged the run is one of `Transfer`. -/
theorem processResponse_ran {response : Option HttpResponse}
    (hrun : (processResponseWith reply request).Ran trace response) :
    (processResponse request).Ran (trace.map fun x => (x.1, reply.judge x.1 x.2)) () := by
  obtain ⟨_, hran, _⟩ := (processResponseWith_follows reply request).ran hrun
  exact hran

/-! ## All requests

The four members together, by the type of the request. The last run is the one that goes wrong: an
option is rejected and the upload is performed without it. -/

/-- **What a request comes to.** Whatever the settings, the headers and the answers of the library,
a transfer is performed only with all of its options set, and the response tells how it went. Of a
PUT request this is so just when nothing goes wrong before `perform`: the upload file is opened, if
there is one, there is a handle, and no option is rejected. -/
theorem requests_handled_iff (settings : Settings) (request : HttpRequest) (reply : Reply)
    (hrequest : request.requestType_ ≠ .UNKNOWN) (trace : List (Instr × Bool))
    (response : Option HttpResponse)
    (hrun : (processResponseWith reply request).Ran trace response)
    (hgiven : settings.Given trace) :
    (∃ marked ∈ response, Handled settings request reply trace marked) ↔
      (request.requestType_ = .PUT → AllSet trace) := by
  -- `doGet`, `doPost` and `doDelete` differ in their options only
  have hstrict : ∀ options, memberOptions request = options → request.requestType_ ≠ .PUT →
      ((doStrictWith options reply request).bind fun marked => .ret (some marked)).Ran
        trace response →
      ((∃ marked ∈ response, Handled settings request reply trace marked) ↔
        (request.requestType_ = .PUT → AllSet trace)) := by
    intro options hoptions hput hran
    have hensures : ((doStrictWith options reply request).bind fun marked =>
        .ret (some marked)).Ensures fun trace response => settings.Given trace →
          ∃ marked ∈ response, Handled settings request reply trace marked := by
      apply Ensures.map
      apply (doStrictWith_ensures hoptions).mono
      exact fun trace marked h hgiven => ⟨marked, rfl, h hgiven⟩
    have hhandled := ensures_iff.mp hensures trace response hran hgiven
    exact ⟨fun _ h => absurd h hput, fun _ => hhandled⟩
  unfold processResponseWith at hrun
  split at hrun
  · next htype => exact hstrict _ (by rw [memberOptions, htype]) (by simp [htype]) hrun
  · next htype => exact hstrict _ (by rw [memberOptions, htype]) (by simp [htype]) hrun
  · next htype =>
    -- `doPut` is the one that goes on behind a rejected option
    rw [ensures_iff.mp (doPutWith_ensures htype) trace response hrun hgiven]
    exact ⟨fun h _ => h, fun h => h htype⟩
  · next htype => exact hstrict _ (by rw [memberOptions, htype]) (by simp [htype]) hrun
  · next htype => exact absurd htype hrequest

/-- A client that has enabled cookies and the verification. -/
def verifyingSettings : Settings where
  cookieFilename_ := "cookies.txt"
  sslCaFilename_ := "ca.pem"

/-- A PUT request with a header and an upload file. -/
def uploadRequest : HttpRequest where
  requestType_ := .PUT
  headers_ := ["Accept: */*"]
  uploadFilePath_ := "upload.bin"

/-- A run of it, answered 201 if it comes so far. -/
def putRun (answers : Instr → Bool) : List (Instr × Bool) × Option HttpResponse :=
  (processResponseWith ⟨201, ""⟩ uploadRequest).answered answers

/-- With a library that does all it is asked, and a file that can be opened. -/
theorem requests_handled_put :
    ∃ marked ∈ (putRun fun _ => true).2, Handled verifyingSettings uploadRequest ⟨201, ""⟩
      (putRun fun _ => true).1 marked := by
  have hall : ∀ x ∈ (putRun fun _ => true).1, x.2 = true := by decide
  have hgiven : verifyingSettings.Given (putRun fun _ => true).1 := by
    intro answer
    exact ⟨fun hmem => hall _ hmem, fun hmem => hall _ hmem⟩
  apply (requests_handled_iff _ _ _ (by decide) _ _ (ran_answered _ _) hgiven).mpr
  intro _
  refine ⟨fun hmem => ?_, by decide, fun option hmem => ?_⟩
  · cases hall _ hmem
  · cases hall _ hmem

/-- The library rejects `CURLOPT_SSL_VERIFYPEER`, and performs nothing without a URL. -/
def unverified : Instr → Bool
  | .curl_easy_setopt .SSL_VERIFYPEER | .curl_easy_perform => false
  | _ => true

/-- **An option that is rejected.** `Curl::init` gives up at `CURLOPT_SSL_VERIFYPEER`, and `doPut`
calls `curl_easy_perform` all the same. -/
theorem requests_not_handled :
    ¬ ∀ settings request reply trace response, request.requestType_ ≠ .UNKNOWN →
      (processResponseWith reply request).Ran trace response → settings.Given trace →
      ∃ marked ∈ response, Handled settings request reply trace marked := by
  intro h
  have hasked : ∀ x ∈ (putRun unverified).1, x.2 = unverified x.1 := by decide
  have hgiven : verifyingSettings.Given (putRun unverified).1 := by
    intro answer
    exact ⟨fun hmem => hasked _ hmem, fun hmem => hasked _ hmem⟩
  obtain ⟨marked, -, hhandled⟩ := h verifyingSettings uploadRequest ⟨201, ""⟩
    (putRun unverified).1 (putRun unverified).2 (by decide) (ran_answered _ _) hgiven
  have hperform : (.curl_easy_perform, false) ∈ (putRun unverified).1 := by decide
  have hset := hhandled.configured false hperform
  revert hset
  decide

end CppDone.HttpClient
