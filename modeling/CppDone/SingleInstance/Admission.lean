import CppDone.Lib.Progress
import CppDone.SingleInstance.Exclusion

/-!
# Every start is decided

`CheckOnly` waits in one place, the `flock`. Whoever has a lock gives it back within a few steps,
and a process that ends takes its locks with it, so that nobody waits for ever: every process comes
to run or to its end, in whatever order the processes go on.

A process may be turned away by another one that is turned away in its turn. The one that created
the file, though, is not asked anything more. So if no call fails and no signal comes, somebody
runs in the end.

The lock need not be on the file that `/tmp/my_pid_file` names: a removed one can still be held and
waited for, and the holder gives it back all the same.
-/

set_option autoImplicit false

namespace CppDone.SingleInstance

variable {s s₁ s' : State} {p q : Nat}

/-! ## How much there is to do

The code of a process runs straight on, so each place has a number, and each step lowers the number
of one process. -/

/-- The steps a process has before it, with those of its handler. -/
def Pc.effort : Pc → Nat
  | .gone => 0
  | .exiting => 1
  | .removing => 2
  | .returned => 3
  | .closing => 4
  | .unlocking _ => 5
  | .write _ _ | .writeNew _ => 6
  | .killing _ _ _ | .lockNew _ => 7
  | .reading _ | .creating => 8
  | .lock _ => 9
  | .opening => 10

def State.effort (s : State) : Nat := total (fun proc => proc.pc.effort) s.procs

def Action.spawns : Action → Bool
  | .spawn _ => true
  | _ => false

/-- A step of a process whose system call does not fail, and not a signal. -/
def Action.granted : Action → Bool
  | .spawn _ | .signal _ => false
  | .open _ ok | .create _ ok | .flock _ ok | .read _ ok | .write _ ok => ok
  | _ => true

theorem procs_goto_eq_set {pid_ : Nat} {pc : Pc} (hp : s.procs[p]? = some { pid_, pc })
    (pc' : Pc) : (s.goto p pc').procs = s.procs.set p { pid_, pc := pc' } := by
  apply List.ext_getElem?
  intro q
  by_cases hq : p = q
  · subst hq
    rw [procs_goto_self hp, List.getElem?_set_self (lt_length_of_getElem? hp)]
  · rw [procs_goto_ne hq, List.getElem?_set_ne hq]

theorem effort_goto {pid_ : Nat} {pc pc' : Pc} (hp : s.procs[p]? = some { pid_, pc })
    (hprocs : s'.procs = (s.goto p pc').procs) (hlt : pc'.effort < pc.effort) :
    s'.effort + 1 ≤ s.effort := by
  have hsum := total_set_add (fun proc : Proc => proc.pc.effort) hp { pid_, pc := pc' }
  unfold State.effort
  rw [hprocs, procs_goto_eq_set hp]
  dsimp only at hsum
  omega

/-- Every step of a process is one less to take. -/
theorem effort_step {a : Action} (ha : a.spawns = false) (h : s.step a = some s') :
    s'.effort + 1 ≤ s.effort := by
  -- `CheckOnly` has no loop, so the places have an order
  cases a with
  | spawn pid => cases ha
  | «open» p ok =>
    obtain ⟨pid_, pc, hp, rfl, rfl | ⟨-, rfl⟩ | ⟨f, -, rfl⟩⟩ := State.open_cases h
    · exact effort_goto hp rfl (by decide)
    · exact effort_goto hp rfl (by decide)
    · exact effort_goto hp rfl (Nat.lt_succ_self 9)
  | create p ok =>
    obtain ⟨pid_, hp, rfl | ⟨-, rfl⟩⟩ := State.create_cases h
    · exact effort_goto hp rfl (by decide)
    · exact effort_goto hp rfl (Nat.lt_succ_self 7)
  | flock p ok =>
    obtain ⟨pid_, pc, fd_, next, hp, hpc, hs'⟩ := State.flock_cases h
    -- the lock is taken, or its failure ends the process
    have hlt : next.effort < pc.effort ∧ Pc.exiting.effort < pc.effort := by
      rcases hpc with ⟨rfl, rfl⟩ | ⟨rfl, rfl⟩
      · exact ⟨Nat.lt_succ_self 6, Nat.le_add_left 2 5⟩
      · exact ⟨Nat.lt_succ_self 8, Nat.le_add_left 2 7⟩
    rcases hs' with rfl | ⟨content, -, rfl⟩
    · exact effort_goto hp rfl hlt.2
    · exact effort_goto hp rfl hlt.1
  | read p ok =>
    obtain ⟨pid_, fd_, file, hp, -, rfl | ⟨-, rfl⟩ | ⟨-, rfl⟩⟩ := State.read_cases h
    · exact effort_goto hp rfl (Nat.le_add_left 2 6)
    · exact effort_goto hp rfl (Nat.le_add_left 7 1)
    · exact effort_goto hp rfl (Nat.lt_succ_self 7)
  | kill p =>
    obtain ⟨pid_, fd_, offset, old_pid, hp, ⟨-, rfl⟩ | ⟨-, rfl⟩⟩ := State.kill_cases h
    · exact effort_goto hp rfl (Nat.le_add_left 2 5)
    · exact effort_goto hp rfl (Nat.lt_succ_self 6)
  | write p ok =>
    obtain ⟨pid_, pc, fd_, offset, hp, hpc, hs'⟩ := State.write_cases h
    have heffort : pc.effort = 6 := by
      rcases hpc with ⟨rfl, -⟩ | rfl
      · rfl
      · rfl
    rcases hs' with rfl | ⟨-, rfl⟩
    · exact effort_goto hp rfl (heffort ▸ Nat.le_add_left 2 4)
    · exact effort_goto hp rfl (heffort ▸ Nat.lt_succ_self 5)
  | unlock p =>
    obtain ⟨pid_, fd_, hp, rfl⟩ := State.unlock_cases h
    exact effort_goto hp rfl (Nat.lt_succ_self 4)
  | close p =>
    obtain ⟨pid_, hp, rfl⟩ := State.close_cases h
    exact effort_goto hp rfl (Nat.lt_succ_self 3)
  | signal p =>
    obtain ⟨pid_, hp, rfl⟩ := State.signal_cases h
    exact effort_goto hp rfl (Nat.lt_succ_self 2)
  | remove p =>
    obtain ⟨pid_, hp, rfl⟩ := State.remove_cases h
    exact effort_goto hp rfl (Nat.lt_succ_self 1)
  | exit p =>
    obtain ⟨pid_, hp, rfl⟩ := State.exit_cases h
    exact effort_goto hp rfl (Nat.lt_succ_self 0)

theorem effort_spawn {pid : Nat} (h : s.spawn pid = some s') : s'.effort = s.effort + 10 := by
  obtain ⟨-, -, rfl⟩ := State.spawn_cases h
  simp only [State.effort, total_append, total_cons, total_nil]
  rfl

/-! ## Who has the locks

Two things are needed of the locks: that they are on files that exist, and that whoever has one is
at a place from which it will be given back. -/

/-- The file that a process is about to use. -/
def Pc.file : Pc → Option Nat
  | .lockNew fd_ | .lock fd_ | .reading fd_ | .killing fd_ _ _ | .writeNew fd_ | .write fd_ _
  | .unlocking fd_ => some fd_
  | _ => none

/-- And that it has locked. -/
def Pc.locked : Pc → Option Nat
  | .reading fd_ | .killing fd_ _ _ | .writeNew fd_ | .write fd_ _ | .unlocking fd_ => some fd_
  | _ => none

/-- A process that ends may have a lock still. -/
def Pc.mayLock (pc : Pc) (f : Nat) : Prop := pc.locked = some f ∨ pc = .exiting

/-- Files are there that are used, and locks are with processes that give them back. A process that
has ended has no lock, and one that is about to gives back what it has. -/
structure Locks (s : State) : Prop where
  named : ∀ f, s.kMyPidFile = some f → f < s.files.length
  opened : ∀ (p : Nat) (proc : Proc) (f : Nat), s.procs[p]? = some proc → proc.pc.file = some f →
    f < s.files.length
  held : ∀ (f : Nat) (file : File) (p : Nat), s.files[f]? = some file → file.lock = some p →
    ∃ proc, s.procs[p]? = some proc ∧ proc.pc.mayLock f

theorem locks_init : Locks processes.init where
  named _ h := by cases h
  opened _ _ _ h := by cases h
  held _ _ _ h := by cases h

/-- What `Locks` says of the locks when process `p` is looked at. -/
theorem Locks.holder (h : Locks s) {proc : Proc} (hp : s.procs[p]? = some proc) {f : Nat}
    {file : File} (hf : s.files[f]? = some file) (hl : file.lock = some q) :
    q = p ∧ proc.pc.mayLock f ∨ q ≠ p := by
  obtain ⟨other, hq, hmay⟩ := h.held f file q hf hl
  by_cases hqp : q = p
  · subst hqp
    obtain rfl := Option.some.inj (hp.symm.trans hq)
    exact .inl ⟨rfl, hmay⟩
  · exact .inr hqp

/-- Process `p` goes on, and may have changed files before. -/
theorem Locks.move (h : Locks s) {pid_ : Nat} {pc pc' : Pc} (hp : s.procs[p]? = some { pid_, pc })
    (hprocs : s₁.procs = s.procs) (hlen : s.files.length ≤ s₁.files.length)
    (hnamed : ∀ f, s₁.kMyPidFile = some f → f < s₁.files.length)
    (hopened : ∀ f, pc'.file = some f → f < s₁.files.length)
    (hheld : ∀ (f : Nat) (file' : File) (q : Nat), s₁.files[f]? = some file' →
      file'.lock = some q → q = p ∧ pc'.mayLock f ∨
        q ≠ p ∧ ∃ file, s.files[f]? = some file ∧ file.lock = some q) :
    Locks (s₁.goto p pc') := by
  have hp₁ : s₁.procs[p]? = some { pid_, pc } := by rw [hprocs, hp]
  constructor
  · exact hnamed
  -- who goes on has its file open, and the others have theirs
  · intro r proc f hr hfile
    rcases procs_goto hp₁ hr with ⟨-, rfl⟩ | ⟨-, hr⟩
    · exact hopened f hfile
    · rw [hprocs] at hr
      exact Nat.lt_of_lt_of_le (h.opened r proc f hr hfile) hlen
  -- a lock is with the process that goes on, or with whom it was
  · intro f file' r hf hl
    rcases hheld f file' r hf hl with ⟨rfl, hmay⟩ | ⟨hne, file, hf, hl⟩
    · exact ⟨_, procs_goto_self hp₁ pc', hmay⟩
    · obtain ⟨proc, hr, hmay⟩ := h.held f file r hf hl
      refine ⟨proc, ?_, hmay⟩
      rw [procs_goto_ne (Ne.symm hne), hprocs, hr]

/-- The files stay as they are. -/
theorem Locks.goto (h : Locks s) {pid_ : Nat} {pc pc' : Pc}
    (hp : s.procs[p]? = some { pid_, pc }) (path : Option Nat)
    (hpath : ∀ f, path = some f → s.kMyPidFile = some f)
    (hopened : ∀ f, pc'.file = some f → pc.file = some f ∨ s.kMyPidFile = some f)
    (hmay : ∀ f, pc.mayLock f → pc'.mayLock f) :
    Locks (State.goto { s with kMyPidFile := path } p pc') := by
  refine h.move hp rfl (Nat.le_refl _) (fun f hf => h.named f (hpath f hf)) (fun f hf => ?_)
    (fun f file q hf hl => ?_)
  · rcases hopened f hf with hf | hf
    · exact h.opened p _ f hp hf
    · exact h.named f hf
  · rcases h.holder hp hf hl with ⟨hqp, hold⟩ | hne
    · exact .inl ⟨hqp, hmay f hold⟩
    · exact .inr ⟨hne, file, hf, hl⟩

/-- One file is changed. -/
theorem Locks.modifyFile (h : Locks s) {pid_ : Nat} {pc pc' : Pc}
    (hp : s.procs[p]? = some { pid_, pc }) {fd_ : Nat} {g : File → File}
    (hopened : ∀ f, pc'.file = some f → pc.file = some f)
    (hother : ∀ f, f ≠ fd_ → pc.mayLock f → pc'.mayLock f)
    (hthis : ∀ (file : File) (q : Nat), s.files[fd_]? = some file → (g file).lock = some q →
      q = p ∧ pc'.mayLock fd_ ∨ q ≠ p ∧ file.lock = some q) :
    Locks ((s.modifyFile fd_ g).goto p pc') := by
  have hlen : (s.modifyFile fd_ g).files.length = s.files.length := List.length_modify _ _ _
  refine h.move hp rfl hlen.ge (fun f hf => hlen ▸ h.named f hf)
    (fun f hf => hlen ▸ h.opened p _ f hp (hopened f hf)) (fun f file' q hf hl => ?_)
  -- the file that is changed, or another one
  by_cases hfd : fd_ = f
  · subst hfd
    obtain ⟨file, hf₀⟩ : ∃ file, s.files[fd_]? = some file := by
      refine ⟨_, List.getElem?_eq_getElem ?_⟩
      rw [← hlen]
      exact lt_length_of_getElem? hf
    rw [getElem?_modifyFile_self hf₀] at hf
    obtain rfl := Option.some.inj hf
    rcases hthis file q hf₀ hl with hself | ⟨hne, hl⟩
    · exact .inl hself
    · exact .inr ⟨hne, file, hf₀, hl⟩
  · rw [getElem?_modifyFile_ne hfd] at hf
    rcases h.holder hp hf hl with ⟨hqp, hold⟩ | hne
    · exact .inl ⟨hqp, hother f (Ne.symm hfd) hold⟩
    · exact .inr ⟨hne, file', hf, hl⟩

/-! ### One call after the other

A call may give a lock, give it back, or leave the locks as they are while its process goes on. -/

theorem not_mayLock {pc : Pc} (hlocked : pc.locked = none) (hpc : pc ≠ .exiting) (f : Nat) :
    ¬ pc.mayLock f := by
  rintro (h | h)
  · rw [hlocked] at h
    cases h
  · exact hpc h

/-- A process without a lock goes on without one. -/
theorem Locks.pass (h : Locks s) {pid_ : Nat} {pc pc' : Pc} (hp : s.procs[p]? = some { pid_, pc })
    (hlocked : pc.locked = none) (hpc : pc ≠ .exiting) (path : Option Nat)
    (hpath : ∀ f, path = some f → s.kMyPidFile = some f)
    (hopened : ∀ f, pc'.file = some f → pc.file = some f ∨ s.kMyPidFile = some f) :
    Locks (State.goto { s with kMyPidFile := path } p pc') :=
  h.goto hp path hpath hopened fun f hmay => absurd hmay (not_mayLock hlocked hpc f)

theorem no_file {pc : Pc} (hfile : pc.file = none) {P : Nat → Prop} (f : Nat)
    (h : pc.file = some f) : P f := by
  rw [hfile] at h
  cases h

/-- The file is new, so nobody can have it locked yet. The files before it are where they were. -/
theorem Locks.create (h : Locks s) {ok : Bool} (hs : s.create p ok = some s') : Locks s' := by
  obtain ⟨pid_, hp, rfl | ⟨-, rfl⟩⟩ := State.create_cases hs
  · exact h.pass hp rfl nofun _ (fun _ hf => hf) (no_file rfl)
  · let new : File := { content := [], lock := none }
    have hlen : (s.files ++ [new]).length = s.files.length + 1 := List.length_append
    have hlast : ∀ f, some s.files.length = some f → f < (s.files ++ [new]).length := by
      intro f hf
      obtain rfl := Option.some.inj hf
      rw [hlen]
      exact Nat.lt_succ_self _
    refine h.move hp rfl ?_ hlast hlast ?_
    · exact hlen ▸ Nat.le_succ _
    · -- nobody has locked the new file
      intro f file q hf hl
      rcases Nat.lt_or_ge f s.files.length with hlt | hge
      · have hold := (List.getElem?_append_left hlt).symm.trans hf
        rcases h.holder hp hold hl with ⟨-, hmay⟩ | hne
        · have hpc : Pc.creating ≠ .exiting := nofun
          exact absurd hmay (not_mayLock rfl hpc f)
        · exact .inr ⟨hne, file, hold, hl⟩
      · have hnew := (List.getElem?_append_right hge).symm.trans hf
        obtain rfl := List.mem_singleton.mp (List.mem_of_getElem? hnew)
        cases hl

/-- The process has the lock from now on, or the call has failed and it is about to end. -/
theorem Locks.flock (h : Locks s) {ok : Bool} (hs : s.flock p ok = some s') : Locks s' := by
  obtain ⟨pid_, pc, fd_, next, hp, hpc, hs'⟩ := State.flock_cases hs
  have hbefore : pc.locked = none ∧ pc ≠ .exiting := by
    rcases hpc with ⟨rfl, -⟩ | ⟨rfl, -⟩
    · exact ⟨rfl, nofun⟩
    · exact ⟨rfl, nofun⟩
  have hnext : next.file = pc.file ∧ next.locked = some fd_ := by
    rcases hpc with ⟨rfl, rfl⟩ | ⟨rfl, rfl⟩
    · exact ⟨rfl, rfl⟩
    · exact ⟨rfl, rfl⟩
  rcases hs' with rfl | ⟨content, hfree, rfl⟩
  · exact h.pass hp hbefore.1 hbefore.2 _ (fun _ hf => hf) (no_file rfl)
  · refine h.modifyFile hp (fun f hf => hnext.1 ▸ hf)
      (fun f _ hmay => absurd hmay (not_mayLock hbefore.1 hbefore.2 f)) (fun file q _ hl => ?_)
    exact .inl ⟨(Option.some.inj hl).symm, .inl hnext.2⟩

/-- What is read decides where the process goes on, and in either case it goes there with the lock.
So it does where the reading fails, since a process that ends may have one. -/
theorem Locks.read (h : Locks s) {ok : Bool} (hs : s.read p ok = some s') : Locks s' := by
  have hkeep : ∀ {fd_ : Nat} {pc' : Pc}, pc' = .exiting ∨ pc'.locked = some fd_ →
      ∀ f, (Pc.reading fd_).mayLock f → pc'.mayLock f := by
    rintro fd_ pc' hpc' f (hf | hf)
    · rcases hpc' with hpc' | hpc'
      · exact .inr hpc'
      · exact .inl (hpc'.trans hf)
    · cases hf
  obtain ⟨pid_, fd_, file, hp, -, rfl | ⟨-, rfl⟩ | ⟨-, rfl⟩⟩ := State.read_cases hs
  · exact h.goto hp _ (fun _ hf => hf) (no_file rfl) (hkeep (.inl rfl))
  · exact h.goto hp _ (fun _ hf => hf) (fun f hf => .inl hf) (hkeep (.inr rfl))
  · exact h.goto hp _ (fun _ hf => hf) (fun f hf => .inl hf) (hkeep (.inr rfl))

theorem Locks.kill (h : Locks s) (hs : s.kill p = some s') : Locks s' := by
  obtain ⟨pid_, fd_, offset, old_pid, hp, ⟨-, rfl⟩ | ⟨-, rfl⟩⟩ := State.kill_cases hs
  · exact h.goto hp _ (fun _ hf => hf) (no_file rfl) fun f _ => .inr rfl
  · refine h.goto hp _ (fun _ hf => hf) (fun f hf => .inl hf) fun f hmay => ?_
    rcases hmay with hf | hf
    · exact .inl hf
    · cases hf

/-- The process has the lock before the write and behind it, where it is about to give it back. -/
theorem Locks.write (h : Locks s) {ok : Bool} (hs : s.write p ok = some s') : Locks s' := by
  obtain ⟨pid_, pc, fd_, offset, hp, hpc, hs'⟩ := State.write_cases hs
  have hbefore : pc.file = some fd_ ∧ pc.locked = some fd_ ∧ pc ≠ .exiting := by
    rcases hpc with ⟨rfl, -⟩ | rfl
    · exact ⟨rfl, rfl, nofun⟩
    · exact ⟨rfl, rfl, nofun⟩
  have hkeep : ∀ f, pc.mayLock f → (Pc.unlocking fd_).mayLock f := by
    rintro f (hf | hf)
    · exact .inl (hbefore.2.1.symm.trans hf)
    · exact absurd hf hbefore.2.2
  rcases hs' with rfl | ⟨-, rfl⟩
  · exact h.goto hp _ (fun _ hf => hf) (no_file rfl) fun f _ => .inr rfl
  · refine h.modifyFile hp (fun f hf => hbefore.1.trans hf) (fun f _ hmay => hkeep f hmay)
      (fun file q hf hl => ?_)
    rcases h.holder hp hf hl with ⟨hqp, hmay⟩ | hne
    · exact .inl ⟨hqp, hkeep fd_ hmay⟩
    · exact .inr ⟨hne, hl⟩

theorem Locks.unlock (h : Locks s) (hs : s.unlock p = some s') : Locks s' := by
  obtain ⟨pid_, fd_, hp, rfl⟩ := State.unlock_cases hs
  refine h.modifyFile hp (no_file rfl) (fun f hne hmay => ?_) (fun file q _ hl => by cases hl)
  rcases hmay with hf | hf
  · exact absurd (Option.some.inj hf).symm hne
  · cases hf

/-- A process ends with its locks. -/
theorem Locks.exit (h : Locks s) (hs : s.exit p = some s') : Locks s' := by
  obtain ⟨pid_, hp, rfl⟩ := State.exit_cases hs
  have hlen : ∀ g : File → File, (s.files.map g).length = s.files.length :=
    fun g => List.length_map g
  refine h.move hp rfl (hlen _).ge
    (fun f hf => (hlen _).symm ▸ h.named f hf) (no_file rfl) (fun f file' q hf hl => ?_)
  obtain ⟨file, hf₀, rfl⟩ := Option.map_eq_some_iff.mp (List.getElem?_map.symm.trans hf)
  split at hl
  · cases hl
  · next hmine =>
    refine .inr ⟨?_, file, hf₀, hl⟩
    intro hqp
    subst hqp
    exact hmine hl

/-- A new process has no file and no lock. -/
theorem Locks.spawn (h : Locks s) {pid : Nat} (hs : s.spawn pid = some s') : Locks s' := by
  obtain ⟨-, -, rfl⟩ := State.spawn_cases hs
  constructor
  · exact h.named
  · intro r proc f hr hfile
    rcases Nat.lt_or_ge r s.procs.length with hlt | hge
    · exact h.opened r proc f ((List.getElem?_append_left hlt).symm.trans hr) hfile
    · have hnew := (List.getElem?_append_right hge).symm.trans hr
      obtain rfl := List.mem_singleton.mp (List.mem_of_getElem? hnew)
      cases hfile
  · intro f file r hf hl
    obtain ⟨proc, hr, hmay⟩ := h.held f file r hf hl
    exact ⟨proc, (List.getElem?_append_left (lt_length_of_getElem? hr)).trans hr, hmay⟩

/-- Whatever is done, a lock is with somebody who is going to give it back. -/
theorem Locks.step (h : Locks s) {a : Action} (hs : s.step a = some s') : Locks s' := by
  -- locks are taken in `flock`, and given back in `unlock` and at the end of the process
  cases a with
  | spawn pid => exact h.spawn hs
  | «open» p ok =>
    obtain ⟨pid_, pc, hp, rfl, hpc⟩ := State.open_cases hs
    refine h.pass hp rfl nofun _ (fun _ hf => hf) fun f hf => ?_
    rcases hpc with rfl | ⟨-, rfl⟩ | ⟨f', hnamed, rfl⟩
    · cases hf
    · cases hf
    · exact .inr (hnamed.trans hf)
  | create p ok => exact h.create hs
  | flock p ok => exact h.flock hs
  | read p ok => exact h.read hs
  | kill p => exact h.kill hs
  | write p ok => exact h.write hs
  | unlock p => exact h.unlock hs
  | close p =>
    obtain ⟨pid_, hp, rfl⟩ := State.close_cases hs
    exact h.pass hp rfl nofun _ (fun _ hf => hf) (no_file rfl)
  | signal p =>
    obtain ⟨pid_, hp, rfl⟩ := State.signal_cases hs
    exact h.pass hp rfl nofun _ (fun _ hf => hf) (no_file rfl)
  | remove p =>
    obtain ⟨pid_, hp, rfl⟩ := State.remove_cases hs
    exact h.pass hp rfl nofun none (fun _ hf => by cases hf) (no_file rfl)
  | exit p => exact h.exit hs

/-! ## Nobody waits for ever

A process waits only at `flock`, and only for one that does not wait. So where nobody can go on
nobody waits. -/

/-- No process can go on, unless a call fails or a signal comes. -/
def Still (s : State) : Prop := ∀ a, a.granted = true → processes.step s a = none

/-- Every process runs, or has ended. -/
def Decided (s : State) : Prop := ∀ proc ∈ s.procs, proc.pc = .returned ∨ proc.pc = .gone

instance (s : State) : Decidable (Decided s) :=
  inferInstanceAs (Decidable (∀ proc ∈ s.procs, proc.pc = .returned ∨ proc.pc = .gone))

/-- The file whose lock a process waits for. -/
def Pc.waits : Pc → Option Nat
  | .lockNew fd_ | .lock fd_ => some fd_
  | _ => none

/-- Everybody else can go on. -/
theorem Locks.goes (h : Locks s) {proc : Proc} (hp : s.procs[p]? = some proc)
    (hwaits : proc.pc.waits = none) (hpc : ¬ (proc.pc = .returned ∨ proc.pc = .gone)) :
    ∃ a, a.granted = true ∧ (s.step a).isSome = true := by
  obtain ⟨pid_, pc⟩ := proc
  -- every call can be made where the process comes to it; only the lock has to be free
  cases pc with
  | opening =>
    refine ⟨.open p true, rfl, ?_⟩
    cases hpath : s.kMyPidFile with
    | none => simp [State.step, State.open, hp, hpath]
    | some f => simp [State.step, State.open, hp, hpath]
  | creating =>
    refine ⟨.create p true, rfl, ?_⟩
    cases hpath : s.kMyPidFile with
    | none => simp [State.step, State.create, hp, hpath]
    | some f => simp [State.step, State.create, hp, hpath]
  | lockNew fd_ | lock fd_ => cases hwaits
  | reading fd_ =>
    obtain ⟨file, hf⟩ : ∃ file, s.files[fd_]? = some file :=
      ⟨_, List.getElem?_eq_getElem (h.opened p _ fd_ hp rfl)⟩
    exact ⟨.read p true, rfl, by simp [State.step, State.read, hp, hf]⟩
  | killing fd_ offset old_pid =>
    refine ⟨.kill p, rfl, ?_⟩
    cases hl : live s.procs old_pid with
    | true => simp [State.step, State.kill, hp, hl]
    | false => simp [State.step, State.kill, hp, hl]
  | writeNew fd_ =>
    exact ⟨.write p true, rfl, by simp [State.step, State.write, State.writeThen, hp]⟩
  | write fd_ offset =>
    exact ⟨.write p true, rfl, by simp [State.step, State.write, State.writeThen, hp]⟩
  | unlocking fd_ => exact ⟨.unlock p, rfl, by simp [State.step, State.unlock, hp]⟩
  | closing => exact ⟨.close p, rfl, by simp [State.step, State.close, hp]⟩
  | returned => exact absurd (.inl rfl) hpc
  | removing => exact ⟨.remove p, rfl, by simp [State.step, State.remove, hp]⟩
  | exiting => exact ⟨.exit p, rfl, by simp [State.step, State.exit, hp]⟩
  | gone => exact absurd (.inr rfl) hpc

theorem Still.none_goes (h : Still s) : ¬ ∃ a, a.granted = true ∧ (s.step a).isSome = true := by
  rintro ⟨a, ha, hsome⟩
  rw [show s.step a = none from h a ha] at hsome
  cases hsome

/-- **When nobody can go on, everything is decided**: a lock is with somebody who could. -/
theorem Still.decided (h : Still s) (hlocks : Locks s) : Decided s := by
  intro proc hproc
  obtain ⟨p, hp⟩ := List.mem_iff_getElem?.mp hproc
  by_contra hpc
  -- a process that does not wait could go on
  cases hwaits : proc.pc.waits with
  | none => exact h.none_goes (hlocks.goes hp hwaits hpc)
  | some f =>
    obtain ⟨pid_, pc⟩ := proc
    have hfile : pc.file = some f := by
      cases pc with
      | lockNew fd_ | lock fd_ => exact hwaits
      | _ => cases hwaits
    obtain ⟨file, hf⟩ : ∃ file, s.files[f]? = some file :=
      ⟨_, List.getElem?_eq_getElem (hlocks.opened p _ f hp hfile)⟩
    obtain ⟨content, lock⟩ := file
    cases lock with
    | none =>
      refine h.none_goes ⟨.flock p true, rfl, ?_⟩
      cases pc with
      | lockNew fd_ | lock fd_ =>
        obtain rfl : fd_ = f := Option.some.inj hwaits
        simp [State.step, State.flock, State.flockThen, hp, hf]
      | _ => cases hwaits
    -- it waits for `q`, who has the lock and does not wait
    | some q =>
      obtain ⟨holder, hq, hmay⟩ := hlocks.held f _ q hf rfl
      refine h.none_goes (hlocks.goes hq ?_ ?_)
      · obtain ⟨pid_, pc'⟩ := holder
        cases pc' with
        | lockNew fd_ | lock fd_ =>
          rcases hmay with hmay | hmay
          · cases hmay
          · cases hmay
        | _ => rfl
      · rintro (hend | hend)
        · exact not_mayLock (hend ▸ rfl) (hend ▸ nofun) f hmay
        · exact not_mayLock (hend ▸ rfl) (hend ▸ nofun) f hmay

/-! ## Somebody runs

The process that made the file is asked nothing any more. Without failures and signals it comes to
run, so if the file is there somebody runs or is about to. -/

/-- In front of everything that can refuse it but the file's being there. -/
def Pc.early : Pc → Bool
  | .opening | .creating => true
  | _ => false

/-- Past everything that can refuse it. -/
def Pc.sure : Pc → Bool
  | .lockNew _ | .writeNew _ | .unlocking _ | .closing | .returned => true
  | _ => false

/-- Whoever made the file runs or is going to. Without a file nobody is past its making; and nobody
removes it, since no signal comes. -/
structure Entered (s : State) : Prop where
  sure : s.kMyPidFile ≠ none →
    ∃ (p : Nat) (proc : Proc), s.procs[p]? = some proc ∧ proc.pc.sure = true
  early : s.kMyPidFile = none → ∀ (p : Nat) (proc : Proc), s.procs[p]? = some proc →
    proc.pc.early = true
  stays : ∀ (p : Nat) (proc : Proc), s.procs[p]? = some proc → proc.pc ≠ .removing

theorem entered_init : Entered processes.init where
  sure h := absurd rfl h
  early _ _ _ h := by cases h
  stays _ _ h := by cases h

/-! ### One call after the other

No call fails and no signal comes, so whoever was sure stays so. Before the file is there nobody is
past its making. -/

/-- Process `p` goes on, and the file stays. -/
theorem Entered.move (h : Entered s) {pid_ : Nat} {pc pc' : Pc}
    (hp : s.procs[p]? = some { pid_, pc }) (hprocs : s₁.procs = s.procs)
    (hpath : s₁.kMyPidFile = s.kMyPidFile)
    (hearly : s.kMyPidFile = none → pc.early = true → pc'.early = true)
    (hsure : pc.sure = true → pc'.sure = true) (hstays : pc' ≠ .removing) :
    Entered (s₁.goto p pc') := by
  have hp₁ : s₁.procs[p]? = some { pid_, pc } := by rw [hprocs, hp]
  constructor
  · intro hnamed
    obtain ⟨q, proc, hq, hproc⟩ := h.sure (hpath ▸ hnamed)
    -- the one that is sure to run is the one that goes on, or another
    by_cases hqp : p = q
    · subst hqp
      obtain rfl := Option.some.inj (hp.symm.trans hq)
      exact ⟨p, _, procs_goto_self hp₁ pc', hsure hproc⟩
    · exact ⟨q, proc, by rw [procs_goto_ne hqp, hprocs, hq], hproc⟩
  · intro hnone q proc hq
    have hnone : s.kMyPidFile = none := hpath ▸ hnone
    rcases procs_goto hp₁ hq with ⟨-, rfl⟩ | ⟨-, hq⟩
    · exact hearly hnone (h.early hnone p _ hp)
    · exact h.early hnone q proc (hprocs ▸ hq)
  · intro q proc hq
    rcases procs_goto hp₁ hq with ⟨-, rfl⟩ | ⟨-, hq⟩
    · exact hstays
    · exact h.stays q proc (hprocs ▸ hq)

/-- The file is made, and with it somebody who is sure. -/
theorem Entered.create (h : Entered s) (hs : s.create p true = some s') : Entered s' := by
  obtain ⟨pid_, hp, -⟩ := State.create_cases hs
  unfold State.create at hs
  rw [hp] at hs
  dsimp only at hs
  split at hs
  · obtain rfl := (Option.some.inj hs).symm
    constructor
    · exact fun _ => ⟨p, _, procs_goto_self hp _, rfl⟩
    · exact fun hnone => by cases hnone
    · intro q proc hq
      rcases procs_goto hp hq with ⟨-, rfl⟩ | ⟨-, hq⟩
      · exact nofun
      · exact h.stays q proc hq
  · next hnamed =>
    obtain rfl := (Option.some.inj hs).symm
    refine h.move hp rfl rfl (fun hnone _ => ?_) nofun nofun
    rw [hnone] at hnamed
    exact absurd rfl hnamed

/-- Whoever finds no file goes on to make it, and whoever finds one is behind its maker. -/
theorem Entered.open (h : Entered s) (hs : s.open p true = some s') : Entered s' := by
  obtain ⟨pid_, -, hp, -, -⟩ := State.open_cases hs
  unfold State.open at hs
  rw [hp] at hs
  dsimp only at hs
  rw [if_pos rfl] at hs
  split at hs
  · next f hf =>
    obtain rfl := (Option.some.inj hs).symm
    refine h.move hp rfl rfl (fun hnone _ => ?_) nofun nofun
    rw [hf] at hnone
    cases hnone
  · obtain rfl := (Option.some.inj hs).symm
    exact h.move hp rfl rfl (fun _ _ => rfl) nofun nofun

/-- The one who made the file goes on to write its id. The others go on to read, and nobody needs to
know what becomes of them. -/
theorem Entered.flock (h : Entered s) (hs : s.flock p true = some s') : Entered s' := by
  obtain ⟨pid_, pc, fd_, next, hp, hpc, -⟩ := State.flock_cases hs
  have hthen : s.flockThen p fd_ next true = some s' := by
    rcases hpc with ⟨rfl, rfl⟩ | ⟨rfl, rfl⟩
    · simpa [State.flock, hp] using hs
    · simpa [State.flock, hp] using hs
  unfold State.flockThen at hthen
  rw [if_pos rfl] at hthen
  split at hthen
  · obtain rfl := (Option.some.inj hthen).symm
    rcases hpc with ⟨rfl, rfl⟩ | ⟨rfl, rfl⟩
    · exact h.move hp rfl rfl nofun (fun _ => rfl) nofun
    · exact h.move hp rfl rfl nofun nofun nofun
  · cases hthen

/-- Behind the write there is nothing that could refuse the process. -/
theorem Entered.write (h : Entered s) (hs : s.write p true = some s') : Entered s' := by
  obtain ⟨pid_, pc, fd_, offset, hp, hpc, -⟩ := State.write_cases hs
  have hthen : s.writeThen p pid_ fd_ offset true = some s' := by
    rcases hpc with ⟨rfl, rfl⟩ | rfl
    · simpa [State.write, hp] using hs
    · simpa [State.write, hp] using hs
  unfold State.writeThen at hthen
  obtain rfl := (Option.some.inj hthen).symm
  have hlate : pc.early = false := by
    rcases hpc with ⟨rfl, -⟩ | rfl
    · rfl
    · rfl
  refine h.move hp rfl rfl (fun _ hearly => ?_) (fun _ => rfl) nofun
  rw [hlate] at hearly
  cases hearly

/-- A new process is in front of the making of the file. -/
theorem Entered.spawn (h : Entered s) {pid : Nat} (hs : s.spawn pid = some s') : Entered s' := by
  obtain ⟨-, -, rfl⟩ := State.spawn_cases hs
  -- the processes are those from before and one at its beginning
  have hcases : ∀ {q : Nat} {proc : Proc},
      (s.procs ++ [{ pid_ := pid, pc := .opening }])[q]? = some proc →
        s.procs[q]? = some proc ∨ proc = { pid_ := pid, pc := .opening } := by
    intro q proc hq
    rcases Nat.lt_or_ge q s.procs.length with hlt | hge
    · exact .inl ((List.getElem?_append_left hlt).symm.trans hq)
    · have hnew := (List.getElem?_append_right hge).symm.trans hq
      exact .inr (List.mem_singleton.mp (List.mem_of_getElem? hnew))
  constructor
  · intro hnamed
    obtain ⟨q, proc, hq, hproc⟩ := h.sure hnamed
    exact ⟨q, proc, (List.getElem?_append_left (lt_length_of_getElem? hq)).trans hq, hproc⟩
  · intro hnone q proc hq
    rcases hcases hq with hq | rfl
    · exact h.early hnone q proc hq
    · rfl
  · intro q proc hq
    rcases hcases hq with hq | rfl
    · exact h.stays q proc hq
    · exact nofun

/-- Nobody has made the file yet, or somebody is sure to come to run. A new process does not change
that, and neither does a call that succeeds. -/
theorem Entered.step (h : Entered s) {a : Action} (ha : a.spawns = true ∨ a.granted = true)
    (hs : s.step a = some s') : Entered s' := by
  -- no call fails, so that who has the lock gets through, and no signal takes the file away
  cases a with
  | spawn pid => exact h.spawn hs
  | «open» p ok =>
    obtain rfl : ok = true := ha.resolve_left nofun
    exact h.open hs
  | create p ok =>
    obtain rfl : ok = true := ha.resolve_left nofun
    exact h.create hs
  | flock p ok =>
    obtain rfl : ok = true := ha.resolve_left nofun
    exact h.flock hs
  | read p ok =>
    obtain ⟨pid_, fd_, file, hp, -, hs'⟩ := State.read_cases hs
    rcases hs' with rfl | ⟨-, rfl⟩ | ⟨-, rfl⟩
    · exact h.move hp rfl rfl nofun nofun nofun
    · exact h.move hp rfl rfl nofun nofun nofun
    · exact h.move hp rfl rfl nofun nofun nofun
  | kill p =>
    obtain ⟨pid_, fd_, offset, old_pid, hp, ⟨-, rfl⟩ | ⟨-, rfl⟩⟩ := State.kill_cases hs
    · exact h.move hp rfl rfl nofun nofun nofun
    · exact h.move hp rfl rfl nofun nofun nofun
  | write p ok =>
    obtain rfl : ok = true := ha.resolve_left nofun
    exact h.write hs
  | unlock p =>
    obtain ⟨pid_, fd_, hp, rfl⟩ := State.unlock_cases hs
    exact h.move hp rfl rfl nofun (fun _ => rfl) nofun
  | close p =>
    obtain ⟨pid_, hp, rfl⟩ := State.close_cases hs
    exact h.move hp rfl rfl nofun (fun _ => rfl) nofun
  | signal p => rcases ha with ha | ha <;> cases ha
  | remove p =>
    obtain ⟨pid_, hp, -⟩ := State.remove_cases hs
    exact absurd rfl (h.stays p _ hp)
  | exit p =>
    obtain ⟨pid_, hp, rfl⟩ := State.exit_cases hs
    exact h.move hp rfl rfl nofun nofun nofun

/-- When all is decided, whoever was sure has come to where he was going. -/
theorem Entered.running (h : Entered s) (hend : Decided s) (hprocs : s.procs ≠ []) :
    ∃ p, Running s p := by
  have hnamed : s.kMyPidFile ≠ none := by
    intro hnone
    obtain ⟨proc, hproc⟩ := List.exists_mem_of_ne_nil _ hprocs
    obtain ⟨p, hp⟩ := List.mem_iff_getElem?.mp hproc
    have hearly := h.early hnone p proc hp
    rcases hend proc hproc with hpc | hpc
    · rw [hpc] at hearly
      cases hearly
    · rw [hpc] at hearly
      cases hearly
  obtain ⟨p, ⟨pid_, pc⟩, hp, hsure⟩ := h.sure hnamed
  rcases hend _ (List.mem_of_getElem? hp) with hpc | hpc
  · obtain rfl : pc = .returned := hpc
    exact ⟨p, pid_, hp⟩
  · obtain rfl : pc = .gone := hpc
    cases hsure

/-- **Every start is decided, and one of them for the process that starts.** In every run a process
takes ten steps at most once it is there. As long as not every process runs or has ended, one of
them can go on without a failing call, so that all come to that without anybody's help; and if no
call has failed and no signal has come, somebody runs then. -/
theorem starts_are_decided (as : List Action) (s : State) (hrun : processes.run as = some s) :
    as.length ≤ 11 * as.countP Action.spawns ∧ (Still s → Decided s) ∧
    (∃ t, processes.Leads (fun a => a.granted = true) s t ∧ Decided t) ∧
    ((∀ a ∈ as, a.spawns = true ∨ a.granted = true) → Decided s → s.procs ≠ [] →
      ∃ p, Running s p) := by
  have hlocks : processes.Inductive Locks := ⟨locks_init, fun hI hs => hI.step hs⟩
  have hreach : processes.Reachable s := ⟨as, hrun⟩
  refine ⟨?_, fun hstill => hstill.decided (hreach.inv hlocks), ?_, fun hok hend hprocs => ?_⟩
  -- a new process brings eleven, and each step uses one
  · have hpaid : ∀ {s : State} {a : Action} {s' : State}, processes.step s a = some s' →
        s'.effort + (if (fun _ => true) a then 1 else 0) ≤
          s.effort + if a.spawns then 11 else 0 := by
      intro s a s' hs
      rw [if_pos rfl]
      cases ha : a.spawns with
      | true =>
        cases a with
        | spawn pid => rw [effort_spawn hs, if_pos rfl]
        | _ => cases ha
      | false => exact effort_step ha hs
    have hle := Machine.countP_le_of_paid (fun _ => true) _ State.effort hpaid hrun
    rw [List.countP_true, total_ite] at hle
    exact Nat.le_of_add_right_le (hle.trans_eq (Nat.zero_add _))
  -- left to themselves the processes come to where none can go on
  · have hstep : ∀ {t : State} {a : Action} {u : State}, processes.Reachable t →
        a.granted = true → processes.step t a = some u →
          processes.Reachable u ∧ u.effort < t.effort := by
      intro t a u ht hgranted hu
      have hspawns : a.spawns = false := by
        cases a with
        | spawn pid => cases hgranted
        | _ => rfl
      exact ⟨ht.step hu, effort_step hspawns hu⟩
    obtain ⟨t, hleads, -, hend⟩ := Machine.leads_of_still State.effort hstep
      (fun ht hstill => Still.decided hstill (ht.inv hlocks)) hreach
    exact ⟨t, hleads, hend⟩
  · have hentered : Entered s :=
      Machine.runFrom_inv_of (fun hI ha hs => hI.step ha hs) hok entered_init hrun
    exact hentered.running hend hprocs

theorem starts_are_decided_turnedAway :
    ∃ s, processes.run turnedAway = some s ∧ Decided s ∧ ∃ p, Running s p := by
  let s : State :=
    { files := [{ content := ['1', '0', '0'], lock := none }], kMyPidFile := some 0,
      procs := [{ pid_ := 100, pc := .returned }, { pid_ := 200, pc := .gone }] }
  have hrun : processes.run turnedAway = some s := by decide
  have hend : Decided s := by decide
  exact ⟨s, hrun, hend, (starts_are_decided turnedAway s hrun).2.2.2 (by decide) hend nofun⟩

end CppDone.SingleInstance
