import CppDone.Lib.Program

/-!
# Transfers

`processResponse` of `http_client.cpp` up to the callback: the class `Curl` and the functions
`doGet`, `doPost`, `doPut` and `doDelete` that use it, with one instruction for every call of the
library and for every reading of the client's own settings. The answer to a call says that it went
well.

What a call is given is left out, but for which option is set; so are the response's fields, which
no call reads. The upload file of `doPut` is opened before anything else, with `fopen`, whose answer
the code does not look at: it goes on with `fseek`, and of a null pointer nobody knows what that
does. A transfer whose file cannot be opened stops there, and it's for those who run it to say what
becomes of it (`Instr.goesOn`).
-/

set_option autoImplicit false

namespace CppDone.HttpClient

/-- `HttpRequest::Type`. -/
inductive RequestType where
  | GET
  | POST
  | PUT
  | DELETE
  | UNKNOWN
deriving DecidableEq, Repr

/-- What decides the calls a request makes. The headers and the path are here for what they are, not
for what they contain: a header is one append, and a path that is empty opens nothing. -/
structure HttpRequest where
  requestType_ : RequestType
  headers_ : List String
  uploadFilePath_ : String
deriving DecidableEq, Repr

inductive CURLoption where
  | NOSIGNAL
  | ACCEPT_ENCODING
  | COOKIEFILE
  | COOKIEJAR
  | TIMEOUT
  | CONNECTTIMEOUT
  | SSL_VERIFYPEER
  | SSL_VERIFYHOST
  | CAINFO
  | HTTPHEADER
  | URL
  | WRITEFUNCTION
  | WRITEDATA
  | HEADERFUNCTION
  | HEADERDATA
  | ERRORBUFFER
  | FOLLOWLOCATION
  | POST
  | POSTFIELDS
  | POSTFIELDSIZE
  | CUSTOMREQUEST
  | VERBOSE
  | UPLOAD
  | READFUNCTION
  | READDATA
  | INFILESIZE_LARGE
deriving DecidableEq, Repr

/-- The calls of the library and the readings of what is outside of the transfer. What is not in
this list has no part in how a transfer goes. -/
inductive Instr where
  | curl_easy_init
  | curl_easy_setopt (option : CURLoption)
  | curl_slist_append
  | curl_easy_perform
  | curl_easy_getinfo
  | curl_easy_strerror
  | curl_easy_cleanup
  | curl_slist_free_all
  | getCookieFilename  -- is it set?
  | getSSLVerification
  | fopen  -- with the `fseek` and `ftell` behind it
deriving DecidableEq, Repr

/-- A call of the library. -/
def Instr.curl : Instr → Bool
  | .getCookieFilename | .getSSLVerification | .fopen => false
  | _ => true

/-- The answers with which it is defined what comes next. For `fopen` this is that the file is open;
every other instruction goes on by either answer. -/
def Instr.goesOn : Instr → Bool → Prop
  | .fopen, answer => answer = true
  | _, _ => True

abbrev Transfer (α : Type) := Program Instr α

namespace Curl

def setOption (option : CURLoption) : Transfer Bool := Program.ask (.curl_easy_setopt option)

/-- Conditions joined by `&&`. -/
def setOptions : List CURLoption → Transfer Bool
  | [] => pure true
  | option :: options => do
    if ← setOption option then setOptions options else pure false

/-- The loop over the headers; the answer says whether `headers_` is set in the end. -/
def append (headers_ : Bool) : List String → Transfer Bool
  | [] => pure headers_
  | _ :: headers => do
    let headers_ ← Program.ask .curl_slist_append
    append headers_ headers

/-- The value, and whether `headers_` is set then. -/
def init (curl_ : Bool) (request : HttpRequest) : Transfer (Bool × Bool) := do
  if !curl_ then
    return (false, false)
  if !(← setOptions [.NOSIGNAL, .ACCEPT_ENCODING]) then
    return (false, false)
  if ← Program.ask .getCookieFilename then
    if !(← setOptions [.COOKIEFILE, .COOKIEJAR]) then
      return (false, false)
  if !(← setOptions [.TIMEOUT, .CONNECTTIMEOUT]) then
    return (false, false)
  if ← Program.ask .getSSLVerification then
    if !(← setOptions [.SSL_VERIFYPEER, .SSL_VERIFYHOST, .CAINFO]) then
      return (false, false)
  else
    if !(← setOptions [.SSL_VERIFYPEER, .SSL_VERIFYHOST]) then
      return (false, false)
  let mut headers_ := false
  if !request.headers_.isEmpty then
    headers_ ← append false request.headers_
    if !(← setOption .HTTPHEADER) then
      return (false, headers_)
  return (← setOptions [.URL, .WRITEFUNCTION, .WRITEDATA, .HEADERFUNCTION, .HEADERDATA,
    .ERRORBUFFER], headers_)

/-- A response code from 200 to 299 is part of the answer of `curl_easy_getinfo`. -/
def perform : Transfer Bool := do
  if !(← Program.ask .curl_easy_perform) then
    return false
  if !(← Program.ask .curl_easy_getinfo) then
    let _ ← Program.ask .curl_easy_strerror
    return false
  return true

/-- `~Curl`. -/
def delete (curl_ headers_ : Bool) : Transfer Unit := do
  if curl_ then
    let _ ← Program.ask .curl_easy_cleanup
  if headers_ then
    let _ ← Program.ask .curl_slist_free_all

/-- `Curl curl;` and what follows in its scope, with whether `headers_` is set in the end. -/
def scope (body : Bool → Transfer Bool) : Transfer Unit := do
  let curl_ ← Program.ask .curl_easy_init
  let headers_ ← body curl_
  delete curl_ headers_

end Curl

/-! ## The four functions

`doGet`, `doPost` and `doDelete` join their calls by `&&` and stop at the first that fails. `doPut`
does not look at what its calls return. -/

/-- `curl.init`, the options of the member and `curl.perform`, joined by `&&`. -/
def doStrict (options : List CURLoption) (request : HttpRequest) : Transfer Unit :=
  Curl.scope fun curl_ => do
    let (ok, headers_) ← Curl.init curl_ request
    if ok then
      if ← Curl.setOptions options then
        let _ ← Curl.perform
    return headers_

def doGet (request : HttpRequest) : Transfer Unit := doStrict [.FOLLOWLOCATION] request

def doPost (request : HttpRequest) : Transfer Unit :=
  doStrict [.POST, .POSTFIELDS, .POSTFIELDSIZE] request

def doDelete (request : HttpRequest) : Transfer Unit :=
  doStrict [.CUSTOMREQUEST, .FOLLOWLOCATION] request

/-- Options that are set whatever became of those before. -/
def setAll : List CURLoption → Transfer Unit
  | [] => pure ()
  | option :: options => do
    let _ ← Curl.setOption option
    setAll options

/-- The upload file, if there is to be one; the value says whether what follows is defined. -/
def openUpload (request : HttpRequest) : Transfer Bool :=
  if request.uploadFilePath_ ≠ "" then Program.ask .fopen else pure true

/-- Nothing is asked but the answer to `curl.perform`. -/
def put (request : HttpRequest) (curl_ : Bool) : Transfer Bool := do
  let (_, headers_) ← Curl.init curl_ request
  setAll [.CUSTOMREQUEST, .VERBOSE, .POSTFIELDS, .POSTFIELDSIZE]
  if request.uploadFilePath_ ≠ "" then  -- `fp`
    setAll [.UPLOAD, .READFUNCTION, .READDATA, .INFILESIZE_LARGE]
  let _ ← Curl.perform
  return headers_

def doPut (request : HttpRequest) : Transfer Unit := do
  if !(← openUpload request) then
    return ()  -- `fseek` of a null pointer
  Curl.scope (put request)

/-- `processResponse` as far as the callback. -/
def processResponse (request : HttpRequest) : Transfer Unit :=
  match request.requestType_ with
  | .GET => doGet request
  | .POST => doPost request
  | .PUT => doPut request
  | .DELETE => doDelete request
  | .UNKNOWN => pure ()

/-! ## The handle is given back

Every transfer begins with a call or with the opening of the upload file, and wherever it is before
its end there is a call still to come: `~Curl` gives back the handle that the constructor made, and
without a handle no setting is read. -/

open Program

variable {p : Instr → Bool}

theorem only_setAll (hp : ∀ option, p (.curl_easy_setopt option) = true)
    (options : List CURLoption) : (setAll options).Only p := by
  induction options with
  | nil => trivial
  | cons option options ih => exact ⟨hp option, fun _ => ih⟩

theorem only_perform : Curl.perform.Only Instr.curl := by
  refine ⟨rfl, fun answer => ?_⟩
  cases answer with
  | true =>
    refine ⟨rfl, fun answer => ?_⟩
    cases answer with
    | true => trivial
    | false => exact ⟨rfl, fun _ => trivial⟩
  | false => trivial

theorem only_delete (hcleanup : p .curl_easy_cleanup = true)
    (hfree : p .curl_slist_free_all = true) (curl_ headers_ : Bool) :
    (Curl.delete curl_ headers_).Only p := by
  cases curl_ with
  | true =>
    refine ⟨hcleanup, fun _ => ?_⟩
    cases headers_ with
    | true => exact ⟨hfree, fun _ => trivial⟩
    | false => trivial
  | false =>
    cases headers_ with
    | true => exact ⟨hfree, fun _ => trivial⟩
    | false => trivial

/-- A call of the library is still to come. -/
def Calls (t : Transfer Unit) : Prop := t.Awaits Instr.goesOn Instr.curl

/-- And so it is wherever the transfer gets to. -/
def KeepsCalling (t : Transfer Unit) : Prop := t.Steady Instr.goesOn Instr.curl

theorem calls_delete (headers_ : Bool) : Calls (Curl.delete true headers_) :=
  Or.inl rfl

theorem calls_scope (body : Bool → Transfer Bool) : Calls (Curl.scope body) :=
  Or.inl rfl

/-- What is between the constructor and the destructor may be anything, if there is a handle. -/
theorem keepsCalling_scope {body : Bool → Transfer Bool} (hnull : (body false).Only Instr.curl) :
    KeepsCalling (Curl.scope body) := by
  refine ⟨Or.inl rfl, fun curl_ _ => ?_⟩
  show KeepsCalling ((body curl_).bind fun headers_ => Curl.delete curl_ headers_)
  cases curl_ with
  | true =>
    apply Steady.bind calls_delete
    intro headers_
    exact (only_delete rfl rfl true headers_).steady
  | false => exact (hnull.bind (only_delete rfl rfl false)).steady

/-- Without a handle `init` answers at once, and all that is left are calls. -/
theorem only_put_null (request : HttpRequest) : (put request false).Only Instr.curl := by
  have hend : (Curl.perform.bind fun _ => .ret false).Only Instr.curl :=
    only_perform.bind fun _ => trivial
  refine (only_setAll (fun _ => rfl) _).bind fun _ => ?_
  dsimp only
  split
  · exact (only_setAll (fun _ => rfl) _).bind fun _ => hend
  · exact hend

/-- The upload file is opened or there is none, and then comes the constructor. -/
theorem calls_doPut (request : HttpRequest) : Calls (doPut request) := by
  unfold doPut openUpload
  split
  · refine Or.inr ?_
    rintro _ rfl
    exact calls_scope _
  · exact calls_scope _

theorem keepsCalling_doPut (request : HttpRequest) : KeepsCalling (doPut request) := by
  have hscope : KeepsCalling (Curl.scope (put request)) :=
    keepsCalling_scope (only_put_null request)
  unfold doPut openUpload
  split
  · refine ⟨Or.inr ?_, ?_⟩
    · rintro _ rfl
      exact calls_scope _
    · rintro _ rfl
      exact hscope
  · exact hscope

theorem keepsCalling_processResponse (request : HttpRequest) :
    KeepsCalling (processResponse request) := by
  have hstrict : ∀ options, KeepsCalling (doStrict options request) :=
    fun options => keepsCalling_scope trivial
  unfold processResponse
  split
  · exact hstrict _
  · exact hstrict _
  · exact keepsCalling_doPut request
  · exact hstrict _
  · exact trivial

/-- A request of a known type comes to a call. -/
theorem calls_processResponse {request : HttpRequest} (h : request.requestType_ ≠ .UNKNOWN) :
    Calls (processResponse request) := by
  unfold processResponse
  split
  · exact calls_scope _
  · exact calls_scope _
  · exact calls_doPut request
  · exact calls_scope _
  · next hunknown => exact absurd hunknown h

end CppDone.HttpClient
