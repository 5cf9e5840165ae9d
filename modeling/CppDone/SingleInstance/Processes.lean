import CppDone.Lib.Machine
import CppDone.SingleInstance.Pid

/-!
# Processes and the pid file

Any number of processes that run `CheckOnly`, one system call a step, over the part of the
operating system they share: the files there are, which of them `/tmp/my_pid_file` names, who
holds the `flock` of each, and which process ids are in use. A file that is removed is no longer
named but stays as it is for whoever has it open.

Where a process is says what it knows: the file behind `fd_`, the offset in it, and what
`CheckPidFile` read. `flock` blocks while another process has the lock. Every call but `kill` may
also fail, which ends the process by `exit(-1)`; the few bytes of a process id are written whole
or not at all. A process that returned from `CheckOnly` runs until a signal sends it into
`SigHandler`.
-/

set_option autoImplicit false

namespace CppDone.SingleInstance

/-- The lock is the one of `flock`, which belongs to who has opened the file and goes when he closes
it. -/
structure File where
  content : Bytes
  /-- The process that has the file locked. -/
  lock : Option Nat
deriving DecidableEq, Repr

/-- Where a process is. A place in front of a system call; what the process knows by then stands
beside it. -/
inductive Pc where
  | opening  -- at `open(kMyPidFile, O_RDWR)`
  | creating  -- at `open(kMyPidFile, O_WRONLY | O_CREAT | O_EXCL, 0666)`
  | lockNew (fd_ : Nat)  -- in `CreatePidFile`, at `flock(fd_, LOCK_EX)`
  | lock (fd_ : Nat)  -- in `CheckPidFile`, at `flock(fd_, LOCK_EX)`
  | reading (fd_ : Nat)
  | killing (fd_ offset : Nat) (old_pid : Int)  -- at `kill(old_pid, 0)`
  | writeNew (fd_ : Nat)  -- in `CreatePidFile`, at the `write` of `WritePidIntoFd`
  | write (fd_ offset : Nat)  -- in `CheckPidFile`, at the `write` of `WritePidIntoFd`
  | unlocking (fd_ : Nat)
  | closing
  | returned
  | removing  -- in `SigHandler`, at `remove(kMyPidFile)`
  | exiting  -- at `exit(-1)` or `_exit(0)`
  | gone
deriving DecidableEq, Repr

/-- `pid_` is what `getpid` returned. -/
structure Proc where
  pid_ : Nat
  pc : Pc
deriving DecidableEq, Repr

/-- Files are never taken out of the list, so a number is good for as long as somebody has the file
open. -/
structure State where
  files : List File
  /-- The file that `/tmp/my_pid_file` names. -/
  kMyPidFile : Option Nat
  procs : List Proc
deriving DecidableEq, Repr

/-- `ok` is whether the system call goes well. -/
inductive Action where
  | spawn (pid : Nat)
  | open (p : Nat) (ok : Bool)
  | create (p : Nat) (ok : Bool)
  | flock (p : Nat) (ok : Bool)
  | read (p : Nat) (ok : Bool)
  | kill (p : Nat)
  | write (p : Nat) (ok : Bool)
  | unlock (p : Nat)
  | close (p : Nat)
  | signal (p : Nat)
  | remove (p : Nat)
  | exit (p : Nat)
deriving DecidableEq, Repr

/-- `kBufLenForPid - 1`. -/
def bufLen : Nat := 63

/-- `kill(pid, 0)` succeeds; `0` is the caller's own group, and there is no other group here. -/
def live (procs : List Proc) (pid : Int) : Bool :=
  pid = 0 || procs.any fun proc => proc.pc ≠ .gone && (proc.pid_ : Int) = pid

/-- A `write` of `bytes` at an offset, over what is there and behind it. -/
def writeAt (content : Bytes) (offset : Nat) (bytes : Bytes) : Bytes :=
  content.take offset ++ List.replicate (offset - content.length) '\x00' ++ bytes ++
    content.drop (offset + bytes.length)

namespace State

variable (s : State)

/-- Process `p` goes on. -/
def goto (p : Nat) (pc : Pc) : State :=
  { s with procs := s.procs.modify p fun proc => { proc with pc := pc } }

def modifyFile (f : Nat) (g : File → File) : State :=
  { s with files := s.files.modify f g }

/-- A new process, at the start of `CheckOnly`. -/
def spawn (pid : Nat) : Option State :=
  if IsPid pid ∧ live s.procs pid = false then
    some { s with procs := s.procs ++ [{ pid_ := pid, pc := .opening }] }
  else none

def «open» (p : Nat) (ok : Bool) : Option State :=
  match s.procs[p]? with
  | some { pid_ := _, pc := .opening } =>
    if ok then
      match s.kMyPidFile with
      | some f => some (s.goto p (.lock f))
      | none => some (s.goto p .creating)  -- `ENOENT`
    else some (s.goto p .exiting)
  | _ => none

def create (p : Nat) (ok : Bool) : Option State :=
  match s.procs[p]? with
  | some { pid_ := _, pc := .creating } =>
    if ok && s.kMyPidFile.isNone then
      let s' : State := { s with files := s.files ++ [{ content := [], lock := none }],
                                 kMyPidFile := some s.files.length }
      some (s'.goto p (.lockNew s.files.length))
    else some (s.goto p .exiting)
  | _ => none

/-- `flock(fd_, LOCK_EX)`, then on to `next`. -/
def flockThen (p fd_ : Nat) (next : Pc) (ok : Bool) : Option State :=
  if ok then
    match s.files[fd_]? with
    | some { content := _, lock := none } =>
      some ((s.modifyFile fd_ fun file => { file with lock := some p }).goto p next)
    | _ => none
  else some (s.goto p .exiting)

def flock (p : Nat) (ok : Bool) : Option State :=
  match s.procs[p]? with
  | some { pid_ := _, pc := .lockNew fd_ } => s.flockThen p fd_ (.writeNew fd_) ok
  | some { pid_ := _, pc := .lock fd_ } => s.flockThen p fd_ (.reading fd_) ok
  | _ => none

/-- `read(fd_, buf, sizeof(buf) - 1)` from the start of the file. -/
def read (p : Nat) (ok : Bool) : Option State :=
  match s.procs[p]? with
  | some { pid_ := _, pc := .reading fd_ } =>
    match s.files[fd_]? with
    | some { content, lock := _ } =>
      if ok then
        let buf := content.take bufLen
        some (s.goto p (if buf = [] then .write fd_ 0 else .killing fd_ buf.length (oldPid buf)))
      else some (s.goto p .exiting)
    | none => none
  | _ => none

def kill (p : Nat) : Option State :=
  match s.procs[p]? with
  | some { pid_ := _, pc := .killing fd_ offset old_pid } =>
    if live s.procs old_pid then some (s.goto p .exiting)
    else some (s.goto p (.write fd_ offset))  -- `ESRCH`
  | _ => none

/-- The `write` of `WritePidIntoFd` at an offset. -/
def writeThen (p pid_ fd_ offset : Nat) (ok : Bool) : Option State :=
  if ok then
    some ((s.modifyFile fd_ fun file =>
      { file with content := writeAt file.content offset (decimal pid_) }).goto p (.unlocking fd_))
  else some (s.goto p .exiting)

def write (p : Nat) (ok : Bool) : Option State :=
  match s.procs[p]? with
  | some { pid_, pc := .writeNew fd_ } => s.writeThen p pid_ fd_ 0 ok
  | some { pid_, pc := .write fd_ offset } => s.writeThen p pid_ fd_ offset ok
  | _ => none

/-- `flock(fd_, LOCK_UN)`. -/
def unlock (p : Nat) : Option State :=
  match s.procs[p]? with
  | some { pid_ := _, pc := .unlocking fd_ } =>
    some ((s.modifyFile fd_ fun file => { file with lock := none }).goto p .closing)
  | _ => none

def close (p : Nat) : Option State :=
  match s.procs[p]? with
  | some { pid_ := _, pc := .closing } => some (s.goto p .returned)
  | _ => none

def signal (p : Nat) : Option State :=
  match s.procs[p]? with
  | some { pid_ := _, pc := .returned } => some (s.goto p .removing)
  | _ => none

/-- `remove(kMyPidFile)`, which does nothing if there is no such file. -/
def remove (p : Nat) : Option State :=
  match s.procs[p]? with
  | some { pid_ := _, pc := .removing } =>
    let s' : State := { s with kMyPidFile := none }
    some (s'.goto p .exiting)
  | _ => none

/-- The process ends, and with it the locks it has. -/
def exit (p : Nat) : Option State :=
  match s.procs[p]? with
  | some { pid_ := _, pc := .exiting } =>
    let s' : State := { s with files := s.files.map fun file =>
                                 if file.lock = some p then { file with lock := none } else file }
    some (s'.goto p .gone)
  | _ => none

def step : Action → Option State
  | .spawn pid => s.spawn pid
  | .open p ok => s.open p ok
  | .create p ok => s.create p ok
  | .flock p ok => s.flock p ok
  | .read p ok => s.read p ok
  | .kill p => s.kill p
  | .write p ok => s.write p ok
  | .unlock p => s.unlock p
  | .close p => s.close p
  | .signal p => s.signal p
  | .remove p => s.remove p
  | .exit p => s.exit p

end State

def processes : Machine State Action where
  init := { files := [], kMyPidFile := none, procs := [] }
  step := State.step

/-! ## What each step does

A system call does what it is for, or fails and ends the process. Either way one process goes on and
the rest stay where they are. -/

section Steps

variable {s s' : State} {p : Nat}

theorem State.spawn_cases {pid : Nat} (h : s.spawn pid = some s') :
    IsPid pid ∧ live s.procs pid = false ∧
      s' = { s with procs := s.procs ++ [{ pid_ := pid, pc := .opening }] } := by
  unfold State.spawn at h
  split at h
  · next hc => exact ⟨hc.1, hc.2, (Option.some.inj h).symm⟩
  · cases h

theorem State.open_cases {ok : Bool} (h : s.open p ok = some s') :
    ∃ pid_ pc, s.procs[p]? = some { pid_, pc := .opening } ∧ s' = s.goto p pc ∧
      (pc = .exiting ∨ s.kMyPidFile = none ∧ pc = .creating ∨
        ∃ f, s.kMyPidFile = some f ∧ pc = .lock f) := by
  unfold State.open at h
  split at h
  · next pid_ hp =>
    split at h
    · split at h
      · next f hf =>
        exact ⟨pid_, _, hp, (Option.some.inj h).symm, Or.inr (Or.inr ⟨f, hf, rfl⟩)⟩
      · next hf => exact ⟨pid_, _, hp, (Option.some.inj h).symm, Or.inr (Or.inl ⟨hf, rfl⟩)⟩
    · exact ⟨pid_, _, hp, (Option.some.inj h).symm, Or.inl rfl⟩
  · cases h

theorem State.create_cases {ok : Bool} (h : s.create p ok = some s') :
    ∃ pid_, s.procs[p]? = some { pid_, pc := .creating } ∧
      (s' = s.goto p .exiting ∨
        s.kMyPidFile = none ∧
          s' = ({ s with files := s.files ++ [{ content := [], lock := none }],
                         kMyPidFile := some s.files.length } : State).goto p
                (.lockNew s.files.length)) := by
  unfold State.create at h
  split at h
  · next pid_ hp =>
    refine ⟨pid_, hp, ?_⟩
    split at h
    · next hc =>
      simp only [Bool.and_eq_true, Option.isNone_iff_eq_none] at hc
      exact Or.inr ⟨hc.2, (Option.some.inj h).symm⟩
    · exact Or.inl (Option.some.inj h).symm
  · cases h

/-- The lock is taken if it is free, in `CreatePidFile` or in `CheckPidFile`. -/
theorem State.flock_cases {ok : Bool} (h : s.flock p ok = some s') :
    ∃ pid_ pc fd_ next, s.procs[p]? = some { pid_, pc } ∧
      (pc = .lockNew fd_ ∧ next = .writeNew fd_ ∨ pc = .lock fd_ ∧ next = .reading fd_) ∧
      (s' = s.goto p .exiting ∨
        ∃ content, s.files[fd_]? = some { content, lock := none } ∧
          s' = (s.modifyFile fd_ fun file => { file with lock := some p }).goto p next) := by
  -- both callers do the same with the lock
  have hthen : ∀ {fd_ : Nat} {next : Pc}, s.flockThen p fd_ next ok = some s' →
      s' = s.goto p .exiting ∨
        ∃ content, s.files[fd_]? = some { content, lock := none } ∧
          s' = (s.modifyFile fd_ fun file => { file with lock := some p }).goto p next := by
    intro fd_ next h
    unfold State.flockThen at h
    split at h
    · split at h
      · next content hf => exact Or.inr ⟨content, hf, (Option.some.inj h).symm⟩
      · cases h
    · exact Or.inl (Option.some.inj h).symm
  unfold State.flock at h
  split at h
  · next pid_ fd_ hp => exact ⟨pid_, _, fd_, _, hp, Or.inl ⟨rfl, rfl⟩, hthen h⟩
  · next pid_ fd_ hp => exact ⟨pid_, _, fd_, _, hp, Or.inr ⟨rfl, rfl⟩, hthen h⟩
  · cases h

theorem State.read_cases {ok : Bool} (h : s.read p ok = some s') :
    ∃ pid_ fd_ file, s.procs[p]? = some { pid_, pc := .reading fd_ } ∧
      s.files[fd_]? = some file ∧
      (s' = s.goto p .exiting ∨
        file.content.take bufLen = [] ∧ s' = s.goto p (.write fd_ 0) ∨
        file.content.take bufLen ≠ [] ∧
          s' = s.goto p (.killing fd_ (file.content.take bufLen).length
                (oldPid (file.content.take bufLen)))) := by
  unfold State.read at h
  split at h
  · next pid_ fd_ hp =>
    split at h
    · next content lock hf =>
      refine ⟨pid_, fd_, _, hp, hf, ?_⟩
      split at h
      · dsimp only at h
        -- by what was read: nothing, or the bytes of some id
        split at h
        · next hnil => exact Or.inr (Or.inl ⟨hnil, (Option.some.inj h).symm⟩)
        · next hne => exact Or.inr (Or.inr ⟨hne, (Option.some.inj h).symm⟩)
      · exact Or.inl (Option.some.inj h).symm
    · cases h
  · cases h

theorem State.kill_cases (h : s.kill p = some s') :
    ∃ pid_ fd_ offset old_pid,
      s.procs[p]? = some { pid_, pc := .killing fd_ offset old_pid } ∧
      (live s.procs old_pid = true ∧ s' = s.goto p .exiting ∨
        live s.procs old_pid = false ∧ s' = s.goto p (.write fd_ offset)) := by
  unfold State.kill at h
  split at h
  · next pid_ fd_ offset old_pid hp =>
    refine ⟨pid_, fd_, offset, old_pid, hp, ?_⟩
    split at h
    · next hl => exact Or.inl ⟨hl, (Option.some.inj h).symm⟩
    · next hl => exact Or.inr ⟨Bool.eq_false_iff.mpr hl, (Option.some.inj h).symm⟩
  · cases h

theorem State.write_cases {ok : Bool} (h : s.write p ok = some s') :
    ∃ pid_ pc fd_ offset, s.procs[p]? = some { pid_, pc } ∧
      (pc = .writeNew fd_ ∧ offset = 0 ∨ pc = .write fd_ offset) ∧
      (s' = s.goto p .exiting ∨
        ok = true ∧ s' = (s.modifyFile fd_ fun file =>
          { file with content := writeAt file.content offset (decimal pid_) }).goto p
            (.unlocking fd_)) := by
  -- the new file is written from its beginning, the other one behind what was read
  have hthen : ∀ {pid_ fd_ offset : Nat}, s.writeThen p pid_ fd_ offset ok = some s' →
      s' = s.goto p .exiting ∨
        ok = true ∧ s' = (s.modifyFile fd_ fun file =>
          { file with content := writeAt file.content offset (decimal pid_) }).goto p
            (.unlocking fd_) := by
    intro pid_ fd_ offset h
    unfold State.writeThen at h
    split at h
    · next hok => exact Or.inr ⟨hok, (Option.some.inj h).symm⟩
    · exact Or.inl (Option.some.inj h).symm
  unfold State.write at h
  split at h
  · next pid_ fd_ hp => exact ⟨pid_, _, fd_, 0, hp, Or.inl ⟨rfl, rfl⟩, hthen h⟩
  · next pid_ fd_ offset hp => exact ⟨pid_, _, fd_, offset, hp, Or.inr rfl, hthen h⟩
  · cases h

theorem State.unlock_cases (h : s.unlock p = some s') :
    ∃ pid_ fd_, s.procs[p]? = some { pid_, pc := .unlocking fd_ } ∧
      s' = (s.modifyFile fd_ fun file => { file with lock := none }).goto p .closing := by
  unfold State.unlock at h
  split at h
  · next pid_ fd_ hp => exact ⟨pid_, fd_, hp, (Option.some.inj h).symm⟩
  · cases h

theorem State.close_cases (h : s.close p = some s') :
    ∃ pid_, s.procs[p]? = some { pid_, pc := .closing } ∧ s' = s.goto p .returned := by
  unfold State.close at h
  split at h
  · next pid_ hp => exact ⟨pid_, hp, (Option.some.inj h).symm⟩
  · cases h

theorem State.signal_cases (h : s.signal p = some s') :
    ∃ pid_, s.procs[p]? = some { pid_, pc := .returned } ∧ s' = s.goto p .removing := by
  unfold State.signal at h
  split at h
  · next pid_ hp => exact ⟨pid_, hp, (Option.some.inj h).symm⟩
  · cases h

theorem State.remove_cases (h : s.remove p = some s') :
    ∃ pid_, s.procs[p]? = some { pid_, pc := .removing } ∧
      s' = ({ s with kMyPidFile := none } : State).goto p .exiting := by
  unfold State.remove at h
  split at h
  · next pid_ hp => exact ⟨pid_, hp, (Option.some.inj h).symm⟩
  · cases h

theorem State.exit_cases (h : s.exit p = some s') :
    ∃ pid_, s.procs[p]? = some { pid_, pc := .exiting } ∧
      s' = ({ s with files := s.files.map fun file =>
                       if file.lock = some p then { file with lock := none } else file } :
              State).goto p .gone := by
  unfold State.exit at h
  split at h
  · next pid_ hp => exact ⟨pid_, hp, (Option.some.inj h).symm⟩
  · cases h

/-- Only the process that goes on is changed. -/
theorem procs_goto_self {pid_ : Nat} {pc : Pc} (hp : s.procs[p]? = some { pid_, pc }) (pc' : Pc) :
    (s.goto p pc').procs[p]? = some { pid_, pc := pc' } := by
  unfold State.goto
  rw [List.getElem?_modify_eq, hp]
  rfl

theorem procs_goto_ne {q : Nat} (hne : p ≠ q) (pc : Pc) :
    (s.goto p pc).procs[q]? = s.procs[q]? :=
  List.getElem?_modify_ne _ _ hne

end Steps

end CppDone.SingleInstance
