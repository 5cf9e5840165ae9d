import CppDone.SingleInstance.Processes

/-!
# One instance at a time

`CheckOnly` excludes a second process as long as a process id is only ever written into a file
that is still the pid file and still without an owner. Two windows are left open: `CreatePidFile`
writes after it has waited for the lock without looking at what the file has become, and
`CheckPidFile` may have opened a file that its owner removed since. `writesOwnFile` says that
neither write happens, and the runs that meet it keep `Inv`: the file named holds the id of one
process, the process that wrote it.

What a process knows of its file while it has the lock stays true, whoever else goes on: the others
may remove the name, but neither write nor unlock (`Keeps`). So each step is looked at from the
process that takes it, and the rest of the state comes along.
-/

set_option autoImplicit false

namespace CppDone.SingleInstance

/-- `CheckOnly` returned in process `p`, and no signal has come. -/
def Running (s : State) (p : Nat) : Prop :=
  ∃ pid_, s.procs[p]? = some { pid_, pc := .returned }

/-- A write of `CreatePidFile` finds the file still empty, and a write of `CheckPidFile` goes to
the file that `/tmp/my_pid_file` still names. -/
def writesOwnFile (s : State) : Action → Bool
  | .write p true =>
    match s.procs[p]? with
    | some { pid_ := _, pc := .writeNew fd_ } => s.files[fd_]?.all fun file => file.content = []
    | some { pid_ := _, pc := .write fd_ _ } => s.kMyPidFile = some fd_
    | _ => true
  | _ => true

/-! ## The invariant

For every process what it may rely on where it is, and for the file named that its owner is the only
one and has its id in it. -/

/-- The file named has the id `pid` in it. -/
def Holds (s : State) (pid : Nat) : Prop :=
  ∃ f file, s.kMyPidFile = some f ∧ s.files[f]? = some file ∧ file.content = decimal pid

/-- The process wrote its id and has not removed the file. -/
def Pc.owns : Pc → Bool
  | .unlocking _ | .closing | .returned | .removing => true
  | _ => false

def Owner (s : State) (p : Nat) : Prop :=
  ∃ proc, s.procs[p]? = some proc ∧ proc.pc.owns = true

/-- What process `p` can rely on where it is. -/
def Fits (s : State) (p : Nat) (proc : Proc) : Prop :=
  match proc.pc with
  | .lockNew fd_ =>
    ∃ file, s.files[fd_]? = some file ∧ (file.content = [] → s.kMyPidFile = some fd_)
  | .reading fd_ => ∃ file, s.files[fd_]? = some file ∧ file.lock = some p
  | .killing fd_ _ old_pid =>
    ∃ file, s.files[fd_]? = some file ∧ file.lock = some p ∧ file.content ≠ [] ∧
      old_pid = oldPid (file.content.take bufLen)
  | .writeNew fd_ =>
    ∃ file, s.files[fd_]? = some file ∧ file.lock = some p ∧
      (file.content = [] → s.kMyPidFile = some fd_)
  | .write fd_ offset =>
    ∃ file, s.files[fd_]? = some file ∧ file.lock = some p ∧
      (file.content = [] ∧ offset = 0 ∨ s.kMyPidFile ≠ some fd_)
  | .unlocking fd_ =>
    (∃ file, s.files[fd_]? = some file ∧ file.lock = some p) ∧ Holds s proc.pid_
  | .closing | .returned | .removing => Holds s proc.pid_
  | _ => True

/-- Of two owners one would have written over the other, or into a file that is not the pid file. -/
structure Inv (s : State) : Prop where
  pids : ∀ (p : Nat) (proc : Proc), s.procs[p]? = some proc → IsPid proc.pid_
  fits : ∀ p proc, s.procs[p]? = some proc → Fits s p proc
  unique : ∀ p q, Owner s p → Owner s q → p = q
  /-- Only an owner can have written into the file named. -/
  owned : ∀ f file, s.kMyPidFile = some f → s.files[f]? = some file → file.content ≠ [] →
    ∃ p, Owner s p

theorem Inv.init : Inv processes.init where
  pids p proc h := by cases h
  fits p proc h := by cases h
  unique p q h := by obtain ⟨_, h, _⟩ := h; cases h
  owned f file h := by cases h

section Facts

variable {s : State} {p : Nat}

/-- An owner's id is in the file. -/
theorem Fits.holds {proc : Proc} (h : Fits s p proc) (ho : proc.pc.owns = true) :
    Holds s proc.pid_ := by
  obtain ⟨pid_, pc⟩ := proc
  cases pc with
  | unlocking fd_ => exact h.2
  | closing => exact h
  | returned => exact h
  | removing => exact h
  | _ => cases ho

theorem Inv.owner_holds (hI : Inv s) (ho : Owner s p) :
    ∃ proc, s.procs[p]? = some proc ∧ proc.pc.owns = true ∧ Holds s proc.pid_ := by
  obtain ⟨proc, hp, hpc⟩ := ho
  exact ⟨proc, hp, hpc, (hI.fits p proc hp).holds hpc⟩

/-- With nothing in the file named, no process owns it. -/
theorem Inv.no_owner (hI : Inv s)
    (hempty : ∀ f file, s.kMyPidFile = some f → s.files[f]? = some file → file.content = []) :
    ¬ Owner s p := by
  intro ho
  obtain ⟨proc, -, -, f, file, hf, hfile, hcontent⟩ := hI.owner_holds ho
  apply decimal_ne_nil proc.pid_
  rw [← hcontent]
  exact hempty f file hf hfile

theorem live_of_getElem? {proc : Proc} (hp : s.procs[p]? = some proc) (hpc : proc.pc ≠ .gone) :
    live s.procs proc.pid_ = true := by
  unfold live
  rw [Bool.or_eq_true, List.any_eq_true]
  refine Or.inr ⟨proc, List.mem_of_getElem? hp, ?_⟩
  simp [hpc]

/-- What is read from the file named is the id of its owner, who is alive. -/
theorem Inv.live_oldPid (hI : Inv s) {f : Nat} {file : File} (hf : s.kMyPidFile = some f)
    (hfile : s.files[f]? = some file) (hne : file.content ≠ []) :
    live s.procs (oldPid (file.content.take bufLen)) = true := by
  obtain ⟨q, ho⟩ := hI.owned f file hf hfile hne
  obtain ⟨proc, hq, hpc, f', file', hf', hfile', hcontent⟩ := hI.owner_holds ho
  obtain rfl : f = f' := Option.some.inj (hf.symm.trans hf')
  obtain rfl : file = file' := Option.some.inj (hfile.symm.trans hfile')
  have hpid : IsPid proc.pid_ := hI.pids q proc hq
  have hlen : (decimal proc.pid_).length ≤ bufLen :=
    (length_decimal_le hpid).trans (by decide)
  rw [hcontent, List.take_of_length_le hlen, oldPid_decimal hpid]
  apply live_of_getElem? hq
  intro hgone
  rw [hgone] at hpc
  cases hpc

end Facts

/-! ## What a step of one process leaves to the others

`Keeps` is all that the other processes rely on, whichever step it is: what is in a file they
have locked, that nothing written disappears, and that a file no longer named stays so. -/

structure Keeps (s s₁ : State) (q : Nat) : Prop where
  file : ∀ (f : Nat) (file : File), s.files[f]? = some file → ∃ file', s₁.files[f]? = some file' ∧
    (file'.content = [] → file.content = [] ∧ (s.kMyPidFile = some f → s₁.kMyPidFile = some f)) ∧
    (file.lock = some q → file'.lock = some q ∧ file'.content = file.content)
  path : ∀ f, f < s.files.length → s₁.kMyPidFile = some f → s.kMyPidFile = some f

section Frame

variable {s s₁ : State} {p q : Nat}

theorem Keeps.locked (hk : Keeps s s₁ q) {f : Nat} {file : File} (hf : s.files[f]? = some file)
    (hl : file.lock = some q) :
    ∃ file', s₁.files[f]? = some file' ∧ file'.lock = some q ∧ file'.content = file.content := by
  obtain ⟨file', hf', -, hlock⟩ := hk.file f file hf
  exact ⟨file', hf', hlock hl⟩

theorem Keeps.named (hk : Keeps s s₁ q) {f : Nat} {file : File} (hf : s.files[f]? = some file)
    (hnamed : file.content = [] → s.kMyPidFile = some f) {file' : File}
    (hf' : s₁.files[f]? = some file') : file'.content = [] → s₁.kMyPidFile = some f := by
  intro hnil
  obtain ⟨file'', hf'', hempty, -⟩ := hk.file f file hf
  obtain rfl : file' = file'' := Option.some.inj (hf'.symm.trans hf'')
  obtain ⟨hnil', hpath⟩ := hempty hnil
  exact hpath (hnamed hnil')

/-- What a process relies on is about the file that it has open and about the one that is named, so
it is enough that these two are kept. -/
theorem Fits.keeps {proc : Proc} (h : Fits s q proc) (hk : Keeps s s₁ q)
    (ho : proc.pc.owns = true → Holds s₁ proc.pid_) : Fits s₁ q proc := by
  obtain ⟨pid_, pc⟩ := proc
  -- what is known is about the file behind `fd_`, and `Keeps` is about that
  cases pc with
  | lockNew fd_ =>
    obtain ⟨file, hf, hnamed⟩ := h
    obtain ⟨file', hf', -⟩ := hk.file fd_ file hf
    exact ⟨file', hf', hk.named hf hnamed hf'⟩
  | reading fd_ =>
    obtain ⟨file, hf, hl⟩ := h
    obtain ⟨file', hf', hl', -⟩ := hk.locked hf hl
    exact ⟨file', hf', hl'⟩
  | killing fd_ offset old_pid =>
    obtain ⟨file, hf, hl, hne, hold⟩ := h
    obtain ⟨file', hf', hl', hcontent⟩ := hk.locked hf hl
    exact ⟨file', hf', hl', hcontent ▸ hne, hcontent ▸ hold⟩
  | writeNew fd_ =>
    obtain ⟨file, hf, hl, hnamed⟩ := h
    obtain ⟨file', hf', hl', -⟩ := hk.locked hf hl
    exact ⟨file', hf', hl', hk.named hf hnamed hf'⟩
  -- empty and still the pid file, or no longer the pid file
  | write fd_ offset =>
    obtain ⟨file, hf, hl, hempty | hpath⟩ := h
    · obtain ⟨file', hf', hl', hcontent⟩ := hk.locked hf hl
      exact ⟨file', hf', hl', Or.inl ⟨hcontent.trans hempty.1, hempty.2⟩⟩
    · obtain ⟨file', hf', hl', -⟩ := hk.locked hf hl
      have hlt : fd_ < s.files.length := (List.getElem?_eq_some_iff.mp hf).1
      exact ⟨file', hf', hl', Or.inr fun hnew => hpath (hk.path fd_ hlt hnew)⟩
  | unlocking fd_ =>
    obtain ⟨⟨file, hf, hl⟩, -⟩ := h
    obtain ⟨file', hf', hl', -⟩ := hk.locked hf hl
    exact ⟨⟨file', hf', hl'⟩, ho rfl⟩
  | closing => exact ho rfl
  | returned => exact ho rfl
  | removing => exact ho rfl
  | _ => trivial

/-- Where the processes are after one of them went on. -/
theorem procs_goto {pid_ : Nat} {pc pc' : Pc} {proc : Proc}
    (hp : s.procs[p]? = some { pid_, pc }) (h : (s.goto p pc').procs[q]? = some proc) :
    q = p ∧ proc = { pid_, pc := pc' } ∨ q ≠ p ∧ s.procs[q]? = some proc := by
  by_cases hq : q = p
  · subst hq
    rw [procs_goto_self hp] at h
    exact Or.inl ⟨rfl, (Option.some.inj h).symm⟩
  · rw [procs_goto_ne (Ne.symm hq)] at h
    exact Or.inr ⟨hq, h⟩

/-- A process that goes on is the only one whose ownership may be different. -/
theorem owner_goto {pid_ : Nat} {pc pc' : Pc} (hp : s.procs[p]? = some { pid_, pc }) :
    Owner (s.goto p pc') q ↔ q = p ∧ pc'.owns = true ∨ q ≠ p ∧ Owner s q := by
  constructor
  · rintro ⟨proc, hq, ho⟩
    rcases procs_goto hp hq with ⟨rfl, rfl⟩ | ⟨hne, hq⟩
    · exact Or.inl ⟨rfl, ho⟩
    · exact Or.inr ⟨hne, proc, hq, ho⟩
  · intro h
    rcases h with ⟨rfl, ho⟩ | ⟨hne, proc, hq, ho⟩
    · exact ⟨_, procs_goto_self hp pc', ho⟩
    · exact ⟨proc, (procs_goto_ne (Ne.symm hne) pc').trans hq, ho⟩

/-- The frame of every step that takes process `p` on: what is left to show is about `p`, and
who the owners are. -/
theorem Inv.goto (hI : Inv s) {pid_ : Nat} {pc pc' : Pc} (hp : s.procs[p]? = some { pid_, pc })
    (hprocs : s₁.procs = s.procs) (hkeeps : ∀ q, q ≠ p → Keeps s s₁ q)
    (hself : Fits s₁ p { pid_, pc := pc' })
    (hothers : ∀ q, q ≠ p → Owner s q →
      pc'.owns = false ∧ ∀ pid, Holds s pid → Holds s₁ pid)
    (howned : ∀ f file, s₁.kMyPidFile = some f → s₁.files[f]? = some file → file.content ≠ [] →
      pc'.owns = true ∨ ∃ q, q ≠ p ∧ Owner s q) :
    Inv (s₁.goto p pc') := by
  have hp₁ : s₁.procs[p]? = some { pid_, pc } := hprocs ▸ hp
  -- only the process that goes on can become an owner or cease to be one
  have howner : ∀ {q}, Owner s₁ q ↔ Owner s q := by
    intro q
    unfold Owner
    rw [hprocs]
  refine ⟨?_, ?_, ?_, ?_⟩
  · intro q proc hq
    rcases procs_goto hp₁ hq with ⟨rfl, rfl⟩ | ⟨-, hq⟩
    · exact hI.pids q { pid_, pc } hp
    · exact hI.pids q proc (hprocs ▸ hq)
  · intro q proc hq
    rcases procs_goto hp₁ hq with ⟨rfl, rfl⟩ | ⟨hne, hq⟩
    · exact hself
    · have hq' : s.procs[q]? = some proc := hprocs ▸ hq
      have hfits : Fits s q proc := hI.fits q proc hq'
      apply hfits.keeps (hkeeps q hne)
      intro ho
      exact (hothers q hne ⟨proc, hq', ho⟩).2 _ (hfits.holds ho)
  -- two owners: both are old, or the new one has just become the only one
  · intro q r hq hr
    rcases (owner_goto hp₁).mp hq with ⟨rfl, hown⟩ | ⟨hqne, hq₁⟩
    · rcases (owner_goto hp₁).mp hr with ⟨rfl, -⟩ | ⟨hrne, hr₁⟩
      · rfl
      · have hno := (hothers r hrne (howner.mp hr₁)).1
        rw [hown] at hno
        cases hno
    · rcases (owner_goto hp₁).mp hr with ⟨rfl, hown⟩ | ⟨-, hr₁⟩
      · have hno := (hothers q hqne (howner.mp hq₁)).1
        rw [hown] at hno
        cases hno
      · exact hI.unique q r (howner.mp hq₁) (howner.mp hr₁)
  · intro f file hf hfile hne
    rcases howned f file hf hfile hne with ho | ⟨q, hq, ho⟩
    · exact ⟨p, (owner_goto hp₁).mpr (Or.inl ⟨rfl, ho⟩)⟩
    · exact ⟨q, (owner_goto hp₁).mpr (Or.inr ⟨hq, howner.mpr ho⟩)⟩

end Frame

/-! ## Steps that write nothing

Opening, locking, reading and closing change locks and places. No id comes into a file by them, and
none goes. -/

/-- Only the locks of process `p` are different. Content and name stay, so nobody's ownership is
touched. -/
structure Relocked (p : Nat) (s s₁ : State) : Prop where
  procs : s₁.procs = s.procs
  path : s₁.kMyPidFile = s.kMyPidFile
  length : s₁.files.length = s.files.length
  file : ∀ (f : Nat) (file : File), s.files[f]? = some file → ∃ file', s₁.files[f]? = some file' ∧
    file'.content = file.content ∧ ∀ q, q ≠ p → file.lock = some q → file'.lock = some q

section Steps

variable {s s₁ s' : State} {p : Nat}

theorem getElem?_modifyFile_self {f : Nat} {file : File} (hf : s.files[f]? = some file)
    (g : File → File) : (s.modifyFile f g).files[f]? = some (g file) := by
  unfold State.modifyFile
  rw [List.getElem?_modify_eq, hf]
  rfl

theorem getElem?_modifyFile_ne {f f' : Nat} (hne : f ≠ f') (g : File → File) :
    (s.modifyFile f g).files[f']? = s.files[f']? :=
  List.getElem?_modify_ne _ _ hne

theorem Relocked.refl : Relocked p s s :=
  ⟨rfl, rfl, rfl, fun _ file hf => ⟨file, hf, rfl, fun _ _ hl => hl⟩⟩

/-- One file is locked or unlocked, and its content stays. -/
theorem Relocked.modifyFile {fd_ : Nat} {file : File} {g : File → File}
    (hf : s.files[fd_]? = some file) (hcontent : (g file).content = file.content)
    (hlock : ∀ q, q ≠ p → file.lock = some q → (g file).lock = some q) :
    Relocked p s (s.modifyFile fd_ g) := by
  refine ⟨rfl, rfl, List.length_modify _ _ _, ?_⟩
  intro f file₂ hf₂
  by_cases hfd : fd_ = f
  · subst hfd
    obtain rfl : file = file₂ := Option.some.inj (hf.symm.trans hf₂)
    exact ⟨g file, getElem?_modifyFile_self hf g, hcontent, hlock⟩
  · exact ⟨file₂, (getElem?_modifyFile_ne hfd g).trans hf₂, rfl, fun _ _ hl => hl⟩

/-- The locks of a process go with it. -/
theorem Relocked.exit :
    Relocked p s { s with files := s.files.map fun file =>
                            if file.lock = some p then { file with lock := none } else file } := by
  refine ⟨rfl, rfl, List.length_map _, ?_⟩
  intro f file hf
  refine ⟨if file.lock = some p then { file with lock := none } else file, ?_, ?_, ?_⟩
  · show (s.files.map _)[f]? = _
    rw [List.getElem?_map, hf]
    rfl
  · split <;> rfl
  · intro q hq hl
    have hne : file.lock ≠ some p := by
      rw [hl]
      simpa using hq
    rw [if_neg hne]
    exact hl

theorem Relocked.before (hr : Relocked p s s₁) {f : Nat} {file' : File}
    (hf' : s₁.files[f]? = some file') :
    ∃ file, s.files[f]? = some file ∧ file'.content = file.content := by
  have hlt : f < s.files.length := by
    rw [← hr.length]
    exact (List.getElem?_eq_some_iff.mp hf').1
  have hf : s.files[f]? = some s.files[f] := List.getElem?_eq_getElem hlt
  obtain ⟨file'', hf'', hcontent, -⟩ := hr.file f _ hf
  obtain rfl : file' = file'' := Option.some.inj (hf'.symm.trans hf'')
  exact ⟨_, hf, hcontent⟩

theorem Relocked.keeps (hr : Relocked p s s₁) {q : Nat} (hq : q ≠ p) : Keeps s s₁ q where
  file f file hf := by
    obtain ⟨file', hf', hcontent, hlock⟩ := hr.file f file hf
    refine ⟨file', hf', fun hnil => ⟨hcontent ▸ hnil, fun hpath => hr.path.trans hpath⟩, ?_⟩
    intro hl
    exact ⟨hlock q hq hl, hcontent⟩
  path f _ hpath := hr.path ▸ hpath

theorem Relocked.holds (hr : Relocked p s s₁) {pid : Nat} (h : Holds s pid) : Holds s₁ pid := by
  obtain ⟨f, file, hpath, hf, hcontent⟩ := h
  obtain ⟨file', hf', hcontent', -⟩ := hr.file f file hf
  exact ⟨f, file', hr.path.trans hpath, hf', hcontent'.trans hcontent⟩

/-- A step that writes nothing and changes nobody's ownership. -/
theorem Inv.relock (hI : Inv s) {pid_ : Nat} {pc pc' : Pc} (hp : s.procs[p]? = some { pid_, pc })
    (hr : Relocked p s s₁) (howns : pc'.owns = pc.owns) (hself : Fits s₁ p { pid_, pc := pc' }) :
    Inv (s₁.goto p pc') := by
  apply hI.goto hp hr.procs (fun q hq => hr.keeps hq) hself
  · intro q hq ho
    refine ⟨?_, fun pid hpid => hr.holds hpid⟩
    -- a second owner beside `p` there is not
    by_contra hown
    apply hq
    apply hI.unique q p ho
    exact ⟨_, hp, howns ▸ eq_true_of_ne_false hown⟩
  · intro f file' hpath hf' hne
    obtain ⟨file, hf, hcontent⟩ := hr.before hf'
    obtain ⟨q, ho⟩ := hI.owned f file (hr.path ▸ hpath) hf (hcontent ▸ hne)
    by_cases hq : q = p
    · subst hq
      obtain ⟨proc, hproc, hown⟩ := ho
      obtain rfl : { pid_, pc } = proc := Option.some.inj (hp.symm.trans hproc)
      exact Or.inl (howns.trans hown)
    · exact Or.inr ⟨q, hq, ho⟩

/-! ### Calls

With the locks and the places as the only things that change, what is left to show is what the
process may rely on at its next place. -/

theorem Inv.open (hI : Inv s) {ok : Bool} (h : s.open p ok = some s') : Inv s' := by
  obtain ⟨pid_, pc, hp, rfl, hpc⟩ := State.open_cases h
  rcases hpc with rfl | ⟨-, rfl⟩ | ⟨f, -, rfl⟩
  · exact hI.relock hp Relocked.refl rfl trivial
  · exact hI.relock hp Relocked.refl rfl trivial
  · exact hI.relock hp Relocked.refl rfl trivial

/-- With the lock a process knows that nobody else writes into its file. -/
theorem Inv.flock (hI : Inv s) {ok : Bool} (h : s.flock p ok = some s') : Inv s' := by
  obtain ⟨pid_, pc, fd_, next, hp, hpc, hs'⟩ := State.flock_cases h
  have hfits : Fits s p { pid_, pc } := hI.fits p _ hp
  rcases hs' with rfl | ⟨content, hf, rfl⟩
  · rcases hpc with ⟨rfl, -⟩ | ⟨rfl, -⟩
    · exact hI.relock hp Relocked.refl rfl trivial
    · exact hI.relock hp Relocked.refl rfl trivial
  · have hr : Relocked p s (s.modifyFile fd_ fun file => { file with lock := some p }) := by
      apply Relocked.modifyFile hf rfl
      intro q _ hl
      cases hl
    have hf' := getElem?_modifyFile_self hf fun file => { file with lock := some p }
    rcases hpc with ⟨rfl, rfl⟩ | ⟨rfl, rfl⟩
    · obtain ⟨file, hf₂, hnamed⟩ := hfits
      obtain rfl : { content, lock := none } = file := Option.some.inj (hf.symm.trans hf₂)
      exact hI.relock hp hr rfl ⟨_, hf', rfl, hnamed⟩
    · exact hI.relock hp hr rfl ⟨_, hf', rfl⟩

/-- What is read is what the file has in it for as long as the process has the lock. -/
theorem Inv.read (hI : Inv s) {ok : Bool} (h : s.read p ok = some s') : Inv s' := by
  obtain ⟨pid_, fd_, file, hp, hf, hs'⟩ := State.read_cases h
  obtain ⟨file₂, hf₂, hl⟩ : ∃ file, s.files[fd_]? = some file ∧ file.lock = some p :=
    hI.fits p _ hp
  obtain rfl : file = file₂ := Option.some.inj (hf.symm.trans hf₂)
  rcases hs' with rfl | ⟨hnil, rfl⟩ | ⟨hne, rfl⟩
  · exact hI.relock hp Relocked.refl rfl trivial
  · have hempty : file.content = [] := by
      rcases List.take_eq_nil_iff.mp hnil with h0 | hempty
      · cases h0
      · exact hempty
    exact hI.relock hp Relocked.refl rfl ⟨file, hf, hl, Or.inl ⟨hempty, rfl⟩⟩
  · have hne' : file.content ≠ [] := by
      intro hempty
      apply hne
      rw [hempty]
      rfl
    exact hI.relock hp Relocked.refl rfl ⟨file, hf, hl, hne', rfl⟩

/-- `ESRCH` says that the file was removed: the owner of the file named is alive. -/
theorem Inv.kill (hI : Inv s) (h : s.kill p = some s') : Inv s' := by
  obtain ⟨pid_, fd_, offset, old_pid, hp, hs'⟩ := State.kill_cases h
  rcases hs' with ⟨-, rfl⟩ | ⟨hdead, rfl⟩
  · exact hI.relock hp Relocked.refl rfl trivial
  · obtain ⟨file, hf, hl, hne, rfl⟩ : ∃ file, s.files[fd_]? = some file ∧ file.lock = some p ∧
        file.content ≠ [] ∧ old_pid = oldPid (file.content.take bufLen) := hI.fits p _ hp
    have hpath : s.kMyPidFile ≠ some fd_ := by
      intro hpath
      rw [hI.live_oldPid hpath hf hne] at hdead
      cases hdead
    exact hI.relock hp Relocked.refl rfl ⟨file, hf, hl, Or.inr hpath⟩

theorem Inv.unlock (hI : Inv s) (h : s.unlock p = some s') : Inv s' := by
  obtain ⟨pid_, fd_, hp, rfl⟩ := State.unlock_cases h
  obtain ⟨⟨file, hf, hl⟩, hholds⟩ : (∃ file, s.files[fd_]? = some file ∧ file.lock = some p) ∧
      Holds s pid_ := hI.fits p _ hp
  have hr : Relocked p s (s.modifyFile fd_ fun file => { file with lock := none }) := by
    apply Relocked.modifyFile hf rfl
    intro q hq hlq
    rw [hl] at hlq
    exact absurd (Option.some.inj hlq).symm hq
  exact hI.relock hp hr rfl (hr.holds hholds)

theorem Inv.close (hI : Inv s) (h : s.close p = some s') : Inv s' := by
  obtain ⟨pid_, hp, rfl⟩ := State.close_cases h
  have hholds : Holds s pid_ := hI.fits p _ hp
  exact hI.relock hp Relocked.refl rfl hholds

theorem Inv.signal (hI : Inv s) (h : s.signal p = some s') : Inv s' := by
  obtain ⟨pid_, hp, rfl⟩ := State.signal_cases h
  have hholds : Holds s pid_ := hI.fits p _ hp
  exact hI.relock hp Relocked.refl rfl hholds

theorem Inv.exit (hI : Inv s) (h : s.exit p = some s') : Inv s' := by
  obtain ⟨pid_, hp, rfl⟩ := State.exit_cases h
  exact hI.relock hp Relocked.exit rfl trivial

/-! ## The steps that change the file named

Creating it, removing it, and writing into it. The writing is where the condition comes in. -/

/-- The new process has an id that no living one has. -/
theorem Inv.spawn (hI : Inv s) {pid : Nat} (h : s.spawn pid = some s') : Inv s' := by
  obtain ⟨hpid, -, rfl⟩ := State.spawn_cases h
  -- a process at its beginning knows nothing and owns nothing
  have hprocs : ∀ {q : Nat} {proc : Proc},
      (s.procs ++ [{ pid_ := pid, pc := .opening }])[q]? = some proc →
        s.procs[q]? = some proc ∨ proc = { pid_ := pid, pc := .opening } := by
    intro q proc hq
    rcases getElem?_snoc.mp hq with hq | ⟨-, hq⟩
    · exact Or.inl hq
    · exact Or.inr hq.symm
  have howner : ∀ {q : Nat}, Owner s q →
      Owner { s with procs := s.procs ++ [{ pid_ := pid, pc := .opening }] } q := by
    rintro q ⟨proc, hq, ho⟩
    exact ⟨proc, getElem?_snoc.mpr (Or.inl hq), ho⟩
  have howner' : ∀ {q : Nat},
      Owner { s with procs := s.procs ++ [{ pid_ := pid, pc := .opening }] } q → Owner s q := by
    rintro q ⟨proc, hq, ho⟩
    rcases hprocs hq with hq | rfl
    · exact ⟨proc, hq, ho⟩
    · cases ho
  refine ⟨?_, ?_, ?_, ?_⟩
  · intro q proc hq
    rcases hprocs hq with hq | rfl
    · exact hI.pids q proc hq
    · exact hpid
  · intro q proc hq
    rcases hprocs hq with hq | rfl
    · have hfits : Fits s q proc := hI.fits q proc hq
      exact hfits
    · trivial
  · intro q r hq hr
    exact hI.unique q r (howner' hq) (howner' hr)
  · intro f file hf hfile hne
    obtain ⟨q, ho⟩ := hI.owned f file hf hfile hne
    exact ⟨q, howner ho⟩

/-- A file is only created when there is none, and then no process owns one. -/
theorem Inv.create (hI : Inv s) {ok : Bool} (h : s.create p ok = some s') : Inv s' := by
  obtain ⟨pid_, hp, rfl | ⟨hnone, rfl⟩⟩ := State.create_cases h
  · exact hI.relock hp Relocked.refl rfl trivial
  -- without a file there is no owner
  · have hno : ∀ q, ¬ Owner s q := by
      intro q
      apply hI.no_owner
      intro f file hf
      rw [hnone] at hf
      cases hf
    -- the new file is empty and is the one named
    have hnew : (s.files ++ [{ content := [], lock := none }])[s.files.length]? =
        some ({ content := [], lock := none } : File) := List.getElem?_concat_length
    refine hI.goto hp rfl ?_ ?_ ?_ ?_
    · intro q _
      refine ⟨?_, ?_⟩
      · intro f file hf
        refine ⟨file, getElem?_snoc.mpr (Or.inl hf), ?_, fun hl => ⟨hl, rfl⟩⟩
        intro hnil
        refine ⟨hnil, fun hpath => ?_⟩
        rw [hnone] at hpath
        cases hpath
      · intro f hlt hpath
        exact absurd (Option.some.inj hpath) (Nat.ne_of_gt hlt)
    · exact ⟨_, hnew, fun _ => rfl⟩
    · intro q _ ho
      exact absurd ho (hno q)
    · intro f file hpath hf hne
      obtain rfl : s.files.length = f := Option.some.inj hpath
      obtain rfl : { content := [], lock := none } = file := Option.some.inj (hnew.symm.trans hf)
      exact absurd rfl hne

/-- The owner removes the file, and there is no other. -/
theorem Inv.remove (hI : Inv s) (h : s.remove p = some s') : Inv s' := by
  obtain ⟨pid_, hp, rfl⟩ := State.remove_cases h
  have hown : Owner s p := ⟨_, hp, rfl⟩
  obtain ⟨f₀, file₀, hf₀, hfile₀, hcontent₀⟩ : Holds s pid_ := hI.fits p _ hp
  refine hI.goto hp rfl ?_ ?_ ?_ ?_
  · intro q _
    refine ⟨?_, ?_⟩
    · intro f file hf
      refine ⟨file, hf, fun hnil => ⟨hnil, fun hpath => ?_⟩, fun hl => ⟨hl, rfl⟩⟩
      -- the file removed has an id in it
      obtain rfl : f₀ = f := Option.some.inj (hf₀.symm.trans hpath)
      obtain rfl : file₀ = file := Option.some.inj (hfile₀.symm.trans hf)
      rw [hcontent₀] at hnil
      exact absurd hnil (decimal_ne_nil pid_)
    · intro f _ hpath
      cases hpath
  · trivial
  · intro q hq ho
    exact absurd (hI.unique q p ho hown) hq
  · intro f file hpath
    cases hpath

theorem writeAt_nil (bytes : Bytes) : writeAt [] 0 bytes = bytes := by
  simp [writeAt]

/-! ### Writing the id

The step that makes an owner. The file is the one named and has nothing in it, and its lock is with
the process, so there is no other owner. -/

/-- The id goes into the file named while that is empty and locked. -/
theorem Inv.write_own (hI : Inv s) {pid_ fd_ : Nat} {pc : Pc}
    (hp : s.procs[p]? = some { pid_, pc }) {file : File} (hf : s.files[fd_]? = some file)
    (hl : file.lock = some p) (hempty : file.content = []) (hpath : s.kMyPidFile = some fd_) :
    Inv ((s.modifyFile fd_ fun file =>
      { file with content := writeAt file.content 0 (decimal pid_) }).goto p (.unlocking fd_)) := by
  -- the file named is empty, so nobody has written an id
  have hno : ∀ q, ¬ Owner s q := by
    intro q
    apply hI.no_owner
    intro f file₂ hpath₂ hf₂
    obtain rfl : fd_ = f := Option.some.inj (hpath.symm.trans hpath₂)
    obtain rfl : file = file₂ := Option.some.inj (hf.symm.trans hf₂)
    exact hempty
  have hwrite : writeAt file.content 0 (decimal pid_) = decimal pid_ := by
    rw [hempty]
    exact writeAt_nil _
  have hf' := getElem?_modifyFile_self hf fun file =>
    { file with content := writeAt file.content 0 (decimal pid_) }
  refine hI.goto hp rfl ?_ ?_ ?_ ?_
  · intro q hq
    refine ⟨?_, fun f _ h => h⟩
    intro f file₂ hf₂
    -- nobody else knows of this file that it is locked by him
    by_cases hfd : fd_ = f
    · subst hfd
      obtain rfl : file = file₂ := Option.some.inj (hf.symm.trans hf₂)
      refine ⟨_, hf', fun hnil => ?_, fun hlq => ?_⟩
      · exact absurd (hwrite.symm.trans hnil) (decimal_ne_nil pid_)
      · exact absurd (Option.some.inj (hlq.symm.trans hl)) hq
    · exact ⟨file₂, (getElem?_modifyFile_ne hfd _).trans hf₂, fun hnil => ⟨hnil, id⟩,
        fun hlq => ⟨hlq, rfl⟩⟩
  · exact ⟨⟨_, hf', hl⟩, fd_, _, hpath, hf', hwrite⟩
  · intro q _ ho
    exact absurd ho (hno q)
  · intro _ _ _ _ _
    exact Or.inl rfl

/-- By the assumption a file that was just made is still empty, and one that was found is still the
one named. So it is the pid file that gets the id, from the process that has its lock. -/
theorem Inv.write (hI : Inv s) {ok : Bool} (hok : writesOwnFile s (.write p ok) = true)
    (h : s.write p ok = some s') : Inv s' := by
  obtain ⟨pid_, pc, fd_, offset, hp, hpc, rfl | ⟨rfl, rfl⟩⟩ := State.write_cases h
  · rcases hpc with ⟨rfl, -⟩ | rfl
    · exact hI.relock hp Relocked.refl rfl trivial
    · exact hI.relock hp Relocked.refl rfl trivial
  · have hfits : Fits s p { pid_, pc } := hI.fits p _ hp
    simp only [writesOwnFile, hp] at hok
    rcases hpc with ⟨rfl, rfl⟩ | rfl
    · obtain ⟨file, hf, hl, hnamed⟩ := hfits
      have hempty : file.content = [] := by simpa [hf] using hok
      exact hI.write_own hp hf hl hempty (hnamed hempty)
    · obtain ⟨file, hf, hl, ⟨hempty, rfl⟩ | hgone⟩ := hfits
      · exact hI.write_own hp hf hl hempty (of_decide_eq_true hok)
      · exact absurd (of_decide_eq_true hok) hgone

end Steps

/-- The assumption is about the writes. All other steps keep the invariant without it. -/
theorem Inv.step {s s' : State} {a : Action} (hI : Inv s) (hok : writesOwnFile s a = true)
    (h : processes.step s a = some s') : Inv s' := by
  cases a with
  | spawn pid => exact hI.spawn h
  | «open» p ok => exact hI.open h
  | create p ok => exact hI.create h
  | flock p ok => exact hI.flock h
  | read p ok => exact hI.read h
  | kill p => exact hI.kill h
  | write p ok => exact hI.write hok h
  | unlock p => exact hI.unlock h
  | close p => exact hI.close h
  | signal p => exact hI.signal h
  | remove p => exact hI.remove h
  | exit p => exact hI.exit h

/-! ## Single instance

The condition and its use, and the run that it excludes. -/

/-- **At most one process runs**, in every run in which each process writes its id into a file
that is still the pid file and still empty. -/
theorem single_instance (as : List Action) (s : State) (hrun : processes.run as = some s)
    (hok : processes.Meets (fun s a => writesOwnFile s a = true) as) (p q : Nat)
    (hp : Running s p) (hq : Running s q) : p = q := by
  have hI : Inv s := hok.inv Inv.init (fun hI hok hs => hI.step hok hs) hrun
  obtain ⟨_, hp⟩ := hp
  obtain ⟨_, hq⟩ := hq
  exact hI.unique p q ⟨_, hp, rfl⟩ ⟨_, hq, rfl⟩

/-- Process 0 writes its id, returns and runs; process 1 reads the id and gives up. -/
def turnedAway : List Action :=
  [.spawn 100, .spawn 200, .open 0 true, .create 0 true, .flock 0 true, .write 0 true, .unlock 0,
   .close 0, .open 1 true, .flock 1 true, .read 1 true, .kill 1, .exit 1]

theorem single_instance_turnedAway :
    ∃ s, processes.run turnedAway = some s ∧ Running s 0 ∧ ∀ q, Running s q → 0 = q := by
  let s : State :=
    { files := [{ content := ['1', '0', '0'], lock := none }], kMyPidFile := some 0,
      procs := [{ pid_ := 100, pc := .returned }, { pid_ := 200, pc := .gone }] }
  have hrun : processes.run turnedAway = some s := by decide
  have hok : processes.Meets (fun s a => writesOwnFile s a = true) turnedAway := by decide
  have hrunning : Running s 0 := ⟨100, rfl⟩
  exact ⟨s, hrun, hrunning, fun q => single_instance turnedAway s hrun hok 0 q hrunning⟩

/-- Process 0 creates the file; before it locks it, process 1 finds it empty and writes its id. -/
def overtaken : List Action :=
  [.spawn 100, .spawn 200, .open 0 true, .create 0 true, .open 1 true, .flock 1 true, .read 1 true,
   .write 1 true, .unlock 1, .close 1, .flock 0 true, .write 0 true, .unlock 0, .close 0]

/-- **Two processes run** when the creator of the file is overtaken between `open` and `flock`. -/
theorem single_instance_overtaken :
    ¬ ∀ as s, processes.run as = some s → ∀ p q, Running s p → Running s q → p = q := by
  intro h
  let s : State :=
    { files := [{ content := ['1', '0', '0'], lock := none }], kMyPidFile := some 0,
      procs := [{ pid_ := 100, pc := .returned }, { pid_ := 200, pc := .returned }] }
  have hrun : processes.run overtaken = some s := by decide
  have hsame : 0 = 1 := h overtaken s hrun 0 1 ⟨100, rfl⟩ ⟨200, rfl⟩
  cases hsame

end CppDone.SingleInstance
