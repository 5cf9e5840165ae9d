import CppDone.SingleInstance.Exclusion
import CppDone.SingleInstance.Starts

/-!
# An undisturbed `CheckOnly`

`Starts.checkOnly` makes the calls of a process in one go, as a function of the file it finds. Here
it is what comes of the machine of `Processes` when nobody else takes a step meanwhile: where the
process is says what is behind it (`Stage`), and every call of its own leads from one stage to the
next. A call that fails decides what failed, so up to there nothing is said about `fail`.
-/

set_option autoImplicit false

namespace CppDone.SingleInstance

open Starts (Call checkOnly checkPidFile createPidFile found writePidIntoFd)

variable {s t t' : State} {p pid_ : Nat}

/-- The bytes of `/tmp/my_pid_file`, if there is such a file. -/
def State.content (s : State) : Option Bytes :=
  s.kMyPidFile.bind fun f => s.files[f]?.map File.content

/-- A call that process `p` makes in `CheckOnly`. -/
def Action.checks (p : Nat) : Action → Bool
  | .open q _ | .create q _ | .flock q _ | .read q _ | .kill q | .write q _ | .unlock q
  | .close q => q = p
  | .spawn _ | .signal _ | .remove _ | .exit _ => false

/-- `/tmp/my_pid_file` is the file `fd_`, with these bytes and this lock. -/
def State.Names (s : State) (fd_ : Nat) (content : Bytes) (lock : Option Nat) : Prop :=
  s.kMyPidFile = some fd_ ∧ s.files[fd_]? = some { content, lock }

/-- `CheckOnly` may come to this, if it starts in `s`. -/
def Comes (s : State) (pid_ : Nat) (result : Option Bytes × Bool) : Prop :=
  ∃ fail, checkOnly fail (live s.procs) pid_ s.content = result

/-- What is known in `t` of a process that started `CheckOnly` in `s`. -/
def Stage (s : State) (p pid_ : Nat) (t : State) : Pc → Prop
  | .opening => t.content = s.content ∧ ∀ fd_, t.kMyPidFile = some fd_ →
      ∃ content, t.Names fd_ content none
  | .creating => s.content = none ∧ t.kMyPidFile = none
  | .lockNew fd_ => s.content = none ∧ t.Names fd_ [] none
  | .writeNew fd_ => s.content = none ∧ t.Names fd_ [] (some p)
  | .lock fd_ => ∃ content, s.content = some content ∧ t.Names fd_ content none
  | .reading fd_ => ∃ content, s.content = some content ∧ t.Names fd_ content (some p)
  | .killing fd_ offset old_pid => ∃ content, s.content = some content ∧
      t.Names fd_ content (some p) ∧ content.take bufLen ≠ [] ∧
      offset = (content.take bufLen).length ∧ old_pid = oldPid (content.take bufLen)
  | .write fd_ offset => ∃ content, s.content = some content ∧ t.Names fd_ content (some p) ∧
      (content.take bufLen = [] ∧ offset = 0 ∨
        content.take bufLen ≠ [] ∧
          found (live s.procs) pid_ (oldPid (content.take bufLen)) = false ∧
          offset = (content.take bufLen).length)
  | .unlocking fd_ => ∃ content, t.Names fd_ content (some p) ∧ Comes s pid_ (some content, true)
  | .closing | .returned => Comes s pid_ (t.content, true)
  | .exiting => Comes s pid_ (t.content, false)
  | .removing | .gone => False

/-- Only process `p` has gone on since `s`. The stage says where it is, and what the file has in it
by now. -/
structure Undisturbed (s : State) (p pid_ : Nat) (t : State) : Prop where
  others : ∀ q, q ≠ p → t.procs[q]? = s.procs[q]?
  stage : ∃ pc, t.procs[p]? = some { pid_, pc } ∧ Stage s p pid_ t pc

theorem State.Names.content {fd_ : Nat} {content : Bytes} {lock : Option Nat}
    (h : s.Names fd_ content lock) : s.content = some content := by
  unfold State.content
  rw [h.1, Option.bind_some, h.2]
  rfl

theorem State.Names.modify {fd_ : Nat} {content content' : Bytes} {lock lock' : Option Nat}
    (h : s.Names fd_ content lock) {g : File → File}
    (hg : g { content, lock } = { content := content', lock := lock' }) :
    (s.modifyFile fd_ g).Names fd_ content' lock' :=
  ⟨h.1, hg ▸ getElem?_modifyFile_self h.2 g⟩

/-- The stage is a matter of the file, not of the processes. -/
theorem Stage.goto {pc : Pc} (h : Stage s p pid_ t pc) (pc' : Pc) :
    Stage s p pid_ (t.goto p pc') pc := by
  cases pc <;> exact h

/-- The process goes on to a place at which it is known what the file has in it. -/
theorem Undisturbed.goto (h : Undisturbed s p pid_ t) {t₁ : State} {pc : Pc}
    (hstage : Stage s p pid_ t₁ pc) (hprocs : t₁.procs = t.procs := by rfl) :
    Undisturbed s p pid_ (t₁.goto p pc) := by
  obtain ⟨pc₀, hp, -⟩ := h.stage
  rw [← hprocs] at hp
  refine ⟨fun q hq => ?_, pc, procs_goto_self hp pc, hstage.goto pc⟩
  rw [procs_goto_ne (Ne.symm hq), hprocs]
  exact h.others q hq

/-! ## Who is found

`kill` is asked about the processes there are. The only one that has changed is the process itself,
and it is asked for separately. -/

theorem live_iff {procs : List Proc} {old_pid : Int} : live procs old_pid = true ↔
    old_pid = 0 ∨ ∃ (q : Nat) (proc : Proc), procs[q]? = some proc ∧ proc.pc ≠ .gone ∧
      proc.pid_ = old_pid := by
  unfold live
  simp only [Bool.or_eq_true, decide_eq_true_eq, List.any_eq_true, Bool.and_eq_true]
  refine or_congr_right ⟨fun ⟨proc, hmem, hproc⟩ => ?_, fun ⟨q, proc, hq, hproc⟩ => ?_⟩
  · obtain ⟨q, hq⟩ := List.mem_iff_getElem?.mp hmem
    exact ⟨q, proc, hq, hproc⟩
  · exact ⟨proc, List.mem_of_getElem? hq, hproc⟩

/-- `kill` finds who was there when the process started, and the process itself. -/
theorem Undisturbed.live (h : Undisturbed s p pid_ t) (hp : s.procs[p]? = some ⟨pid_, .opening⟩)
    {pc : Pc} (ht : t.procs[p]? = some ⟨pid_, pc⟩) (hpc : pc ≠ .gone) (old_pid : Int) :
    live t.procs old_pid = found (SingleInstance.live s.procs) pid_ old_pid := by
  rw [Bool.eq_iff_iff, live_iff]
  unfold found
  simp only [Bool.or_eq_true, decide_eq_true_eq, live_iff]
  -- the others are as at the start, and the process itself is not gone
  constructor
  · rintro (hzero | ⟨q, proc, hq, hproc⟩)
    · exact .inl (.inl hzero)
    · by_cases hqp : q = p
      · subst hqp
        obtain rfl := Option.some.inj (ht.symm.trans hq)
        exact .inl (.inr hproc.2.symm)
      · rw [h.others q hqp] at hq
        exact .inr (.inr ⟨q, proc, hq, hproc⟩)
  · rintro ((hzero | rfl) | hzero | ⟨q, proc, hq, hproc⟩)
    · exact .inl hzero
    · exact .inr ⟨p, _, ht, hpc, rfl⟩
    · exact .inl hzero
    · by_cases hqp : q = p
      · subst hqp
        obtain rfl := Option.some.inj (hp.symm.trans hq)
        exact .inr ⟨q, _, ht, hpc, hproc.2⟩
      · exact .inr ⟨q, proc, (h.others q hqp).trans hq, hproc⟩

/-! ## One call after the other

From stage to stage. Where a call fails, this call is the one that `fail` has to name, and the
content stays. -/

/-- A call that fails where the file has these bytes. -/
theorem Comes.failed (fail : Option Call) {content : Bytes} (hs : s.content = some content)
    (hfail : checkPidFile fail (live s.procs) pid_ content = (some content, false))
    (hopen : fail ≠ some .open) : Comes s pid_ (some content, false) :=
  ⟨fail, by simp [checkOnly, hs, hopen, hfail]⟩

/-- The same for a file that the process has just created. -/
theorem Comes.failedNew (fail : Option Call) {result : Option Bytes × Bool}
    (hs : s.content = none) (hfail : createPidFile fail pid_ = result)
    (hopen : fail ≠ some .open) : Comes s pid_ result :=
  ⟨fail, by simp [checkOnly, hs, hopen, hfail]⟩

/-- Whether there is a file decides which of the two functions is entered. -/
theorem Undisturbed.open (h : Undisturbed s p pid_ t) {ok : Bool} (hs : t.open p ok = some t') :
    Undisturbed s p pid_ t' := by
  obtain ⟨pid₁, pc, hp₁, rfl, hcases⟩ := State.open_cases hs
  obtain ⟨pc₀, hp, hstage⟩ := h.stage
  cases hp.symm.trans hp₁
  obtain ⟨hcontent, hfree⟩ := hstage
  refine h.goto ?_
  rcases hcases with rfl | ⟨hnone, rfl⟩ | ⟨f, hf, rfl⟩
  · exact ⟨some .open, by simp [checkOnly, hcontent]⟩
  · exact ⟨by rw [← hcontent, State.content, hnone, Option.bind_none], hnone⟩
  · obtain ⟨content, hnames⟩ := hfree f hf
    exact ⟨content, by rw [← hcontent, hnames.content], hnames⟩

/-- `CreatePidFile` begins, with a file that is empty. -/
theorem Undisturbed.create (h : Undisturbed s p pid_ t) {ok : Bool}
    (hs : t.create p ok = some t') : Undisturbed s p pid_ t' := by
  obtain ⟨pid₁, hp₁, hcases⟩ := State.create_cases hs
  obtain ⟨pc₀, hp, hstage⟩ := h.stage
  cases hp.symm.trans hp₁
  obtain ⟨hcontent, hnone⟩ := hstage
  rcases hcases with rfl | ⟨-, rfl⟩
  · refine h.goto ?_
    have hsame : t.content = none := by rw [State.content, hnone, Option.bind_none]
    show Comes s pid_ (t.content, false)
    rw [hsame]
    exact Comes.failedNew (some .create) hcontent rfl nofun
  · refine h.goto ?_
    exact ⟨hcontent, rfl, List.getElem?_concat_length⟩

/-- Nobody else has the lock, so the call comes back at once, in `CreatePidFile` as in
`CheckPidFile`. -/
theorem Undisturbed.flock (h : Undisturbed s p pid_ t) {ok : Bool}
    (hs : t.flock p ok = some t') : Undisturbed s p pid_ t' := by
  obtain ⟨pid₁, pc, fd_, next, hp₁, hnext, hcases⟩ := State.flock_cases hs
  obtain ⟨pc₀, hp, hstage⟩ := h.stage
  cases hp.symm.trans hp₁
  rcases hnext with ⟨rfl, rfl⟩ | ⟨rfl, rfl⟩
  · obtain ⟨hcontent, hnames⟩ := hstage
    rcases hcases with rfl | ⟨-, -, rfl⟩
    · refine h.goto ?_
      show Comes s pid_ (t.content, false)
      rw [hnames.content]
      exact Comes.failedNew (some .flock) hcontent rfl nofun
    · exact h.goto ⟨hcontent, hnames.modify rfl⟩
  · obtain ⟨content, hcontent, hnames⟩ := hstage
    rcases hcases with rfl | ⟨-, -, rfl⟩
    · refine h.goto ?_
      show Comes s pid_ (t.content, false)
      rw [hnames.content]
      exact Comes.failed (some .flock) hcontent rfl nofun
    · exact h.goto ⟨content, hcontent, hnames.modify rfl⟩

/-- Nothing read sends the process to the write at once, as the source does with a length of 0. -/
theorem Undisturbed.read (h : Undisturbed s p pid_ t) {ok : Bool} (hs : t.read p ok = some t') :
    Undisturbed s p pid_ t' := by
  obtain ⟨pid₁, fd_, file, hp₁, hfile, hcases⟩ := State.read_cases hs
  obtain ⟨pc₀, hp, hstage⟩ := h.stage
  cases hp.symm.trans hp₁
  obtain ⟨content, hcontent, hnames⟩ := hstage
  obtain rfl := Option.some.inj (hnames.2.symm.trans hfile)
  rcases hcases with rfl | ⟨hnil, rfl⟩ | ⟨hne, rfl⟩
  · refine h.goto ?_
    show Comes s pid_ (t.content, false)
    rw [hnames.content]
    exact Comes.failed (some .read) hcontent rfl nofun
  · exact h.goto ⟨content, hcontent, hnames, .inl ⟨hnil, rfl⟩⟩
  · exact h.goto ⟨content, hcontent, hnames, hne, rfl, rfl⟩

/-- Here the process may find itself. `found` asks for that apart, since `CheckOnly` is started with
the processes there were. -/
theorem Undisturbed.kill (h : Undisturbed s p pid_ t) (hstart : s.procs[p]? = some ⟨pid_, .opening⟩)
    (hs : t.kill p = some t') : Undisturbed s p pid_ t' := by
  obtain ⟨pid₁, fd_, offset, old_pid, hp₁, hcases⟩ := State.kill_cases hs
  obtain ⟨pc₀, hp, hstage⟩ := h.stage
  cases hp.symm.trans hp₁
  obtain ⟨content, hcontent, hnames, hne, rfl, rfl⟩ := hstage
  have hfound := h.live hstart hp nofun (oldPid (content.take bufLen))
  rcases hcases with ⟨hlive, rfl⟩ | ⟨hdead, rfl⟩
  · refine h.goto ?_
    show Comes s pid_ (t.content, false)
    rw [hnames.content]
    refine Comes.failed none hcontent ?_ nofun
    rw [hlive] at hfound
    simp [checkPidFile, hne, ← hfound]
  · exact h.goto ⟨content, hcontent, hnames, .inr ⟨hne, hfound.symm.trans hdead, rfl⟩⟩

/-- The bytes go behind those that were read. This is the last call that can fail. -/
theorem Undisturbed.write (h : Undisturbed s p pid_ t) {ok : Bool}
    (hs : t.write p ok = some t') : Undisturbed s p pid_ t' := by
  obtain ⟨pid₁, pc, fd_, offset, hp₁, hpc, hcases⟩ := State.write_cases hs
  obtain ⟨pc₀, hp, hstage⟩ := h.stage
  cases hp.symm.trans hp₁
  rcases hpc with ⟨rfl, rfl⟩ | rfl
  · obtain ⟨hcontent, hnames⟩ := hstage
    rcases hcases with rfl | ⟨-, rfl⟩
    · refine h.goto ?_
      show Comes s pid_ (t.content, false)
      rw [hnames.content]
      exact Comes.failedNew (some .write) hcontent rfl nofun
    · refine h.goto ⟨_, hnames.modify rfl, ?_⟩
      exact Comes.failedNew none hcontent rfl nofun
  · obtain ⟨content, hcontent, hnames, hoffset⟩ := hstage
    -- nothing was read, or nobody was found
    have hpasses : ∀ fail, fail = none ∨ fail = some .write →
        checkPidFile fail (SingleInstance.live s.procs) pid_ content =
          writePidIntoFd fail pid_ content offset := by
      rintro fail (rfl | rfl) <;> rcases hoffset with ⟨hnil, rfl⟩ | ⟨hne, hdead, rfl⟩
      · simp [checkPidFile, hnil]
      · simp [checkPidFile, hne, hdead]
      · simp [checkPidFile, hnil]
      · simp [checkPidFile, hne, hdead]
    rcases hcases with rfl | ⟨-, rfl⟩
    · refine h.goto ?_
      show Comes s pid_ (t.content, false)
      rw [hnames.content]
      exact Comes.failed (some .write) hcontent (hpasses _ (.inr rfl)) nofun
    · refine h.goto ⟨_, hnames.modify rfl, none, ?_⟩
      simp [checkOnly, hcontent, hpasses none (.inl rfl), writePidIntoFd]

/-- From here on only the file counts, and the answer is fixed. -/
theorem Undisturbed.unlock (h : Undisturbed s p pid_ t) (hs : t.unlock p = some t') :
    Undisturbed s p pid_ t' := by
  obtain ⟨pid₁, fd_, hp₁, rfl⟩ := State.unlock_cases hs
  obtain ⟨pc₀, hp, hstage⟩ := h.stage
  cases hp.symm.trans hp₁
  obtain ⟨content, hnames, hcomes⟩ := hstage
  have hfree : (t.modifyFile fd_ fun file => { file with lock := none }).Names fd_ content none :=
    hnames.modify rfl
  refine h.goto ?_
  show Comes s pid_ (State.content _, true)
  rw [hfree.content]
  exact hcomes

theorem Undisturbed.close (h : Undisturbed s p pid_ t) (hs : t.close p = some t') :
    Undisturbed s p pid_ t' := by
  obtain ⟨pid₁, hp₁, rfl⟩ := State.close_cases hs
  obtain ⟨pc₀, hp, hstage⟩ := h.stage
  cases hp.symm.trans hp₁
  exact h.goto hstage

/-- A call of `p`, by which one it is. -/
theorem Undisturbed.step (h : Undisturbed s p pid_ t)
    (hstart : s.procs[p]? = some ⟨pid_, .opening⟩) {a : Action} (ha : a.checks p = true)
    (hs : t.step a = some t') : Undisturbed s p pid_ t' := by
  -- its own calls only
  cases a with
  | «open» q ok =>
    obtain rfl := of_decide_eq_true ha
    exact h.open hs
  | create q ok =>
    obtain rfl := of_decide_eq_true ha
    exact h.create hs
  | flock q ok =>
    obtain rfl := of_decide_eq_true ha
    exact h.flock hs
  | read q ok =>
    obtain rfl := of_decide_eq_true ha
    exact h.read hs
  | kill q =>
    obtain rfl := of_decide_eq_true ha
    exact h.kill hstart hs
  | write q ok =>
    obtain rfl := of_decide_eq_true ha
    exact h.write hs
  | unlock q =>
    obtain rfl := of_decide_eq_true ha
    exact h.unlock hs
  | close q =>
    obtain rfl := of_decide_eq_true ha
    exact h.close hs
  | spawn | signal | remove | exit => cases ha

/-- **`Starts.checkOnly` is `CheckOnly` undisturbed.** Let a process start where the file, if there
is one, is not locked, and go on while nobody else does: where it has returned, or is about to
exit, the file and the answer are those of the function, for some call that failed or none. -/
theorem checkOnly_undisturbed (hstart : s.procs[p]? = some ⟨pid_, .opening⟩)
    (hfree : ∀ fd_, s.kMyPidFile = some fd_ → ∃ content, s.Names fd_ content none)
    {as : List Action} (hrun : processes.runFrom s as = some t)
    (has : ∀ a ∈ as, a.checks p = true) :
    (∀ q, q ≠ p → t.procs[q]? = s.procs[q]?) ∧
    (t.procs[p]? = some ⟨pid_, .returned⟩ →
      ∃ fail, checkOnly fail (live s.procs) pid_ s.content = (t.content, true)) ∧
    (t.procs[p]? = some ⟨pid_, .exiting⟩ →
      ∃ fail, checkOnly fail (live s.procs) pid_ s.content = (t.content, false)) := by
  have hfirst : Undisturbed s p pid_ s := ⟨fun _ _ => rfl, .opening, hstart, rfl, hfree⟩
  have h : Undisturbed s p pid_ t :=
    Machine.runFrom_inv_of (I := Undisturbed s p pid_) (fun hI ha hs => hI.step hstart ha hs) has
      hfirst hrun
  obtain ⟨pc, hp, hstage⟩ := h.stage
  refine ⟨h.others, fun hret => ?_, fun hexit => ?_⟩
  · cases hp.symm.trans hret
    exact hstage
  · cases hp.symm.trans hexit
    exact hstage

end CppDone.SingleInstance
