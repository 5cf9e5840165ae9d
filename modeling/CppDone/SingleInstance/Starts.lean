import CppDone.SingleInstance.Processes

/-!
# One start after the other

`CheckOnly` of a process whom nobody disturbs, as a function of the file it finds and of the
processes there are. The machine starts such processes one after the other, lets them die and lets
them stop.

`CheckPidFile` reads before it writes, through the same descriptor, so `WritePidIntoFd` appends to
what a dead process left. What is read from the file then is the new id only where the old bytes
do no harm to it, and that is an accident of arithmetic: `Harmless` says which.
-/

set_option autoImplicit false

namespace CppDone.SingleInstance.Starts

/-- The calls that may fail, and end the process. -/
inductive Call where
  | open
  | create
  | flock
  | read
  | write
deriving DecidableEq, Repr

section CheckOnly

variable (fail : Option Call) (live : Int → Bool) (pid_ : Nat)

/-- `kill(old_pid, 0)` does not say `ESRCH`. The process itself and its group are always there. -/
def found (old_pid : Int) : Bool := old_pid = 0 || old_pid = pid_ || live old_pid

/-- What is in the file afterwards, and whether the process goes on. -/
def writePidIntoFd (content : Bytes) (offset : Nat) : Option Bytes × Bool :=
  if fail = some .write then (some content, false)
  else (some (writeAt content offset (decimal pid_)), true)

def createPidFile : Option Bytes × Bool :=
  if fail = some .create then (none, false)
  else if fail = some .flock then (some [], false)
  else writePidIntoFd fail pid_ [] 0

/-- The bytes read are behind the offset when the id is written. -/
def checkPidFile (content : Bytes) : Option Bytes × Bool :=
  if fail = some .flock || fail = some .read then (some content, false)
  else
    let buf := content.take bufLen
    if buf = [] then writePidIntoFd fail pid_ content 0
    else if found live pid_ (oldPid buf) then (some content, false)
    else writePidIntoFd fail pid_ content buf.length  -- `ESRCH`

def checkOnly (file : Option Bytes) : Option Bytes × Bool :=
  if fail = some .open then (file, false)
  else
    match file with
    | none => createPidFile fail pid_
    | some content => checkPidFile fail live pid_ content

end CheckOnly

/-- What `CheckPidFile` would make of the file. -/
def readPid (file : Option Bytes) : Option Int :=
  file.map fun content => oldPid (content.take bufLen)

/-! ## What a start leaves to read

The new id comes behind the old bytes. Read together they are some number, and this section says
when it is the number that was meant. -/

/-- The number that the bytes are with the digits of `pid` behind them, as far as the buffer
reaches. -/
def spelled (pid : Nat) (content : Bytes) : Nat :=
  Nat.ofDigitChars 10 (number content ++ (decimal pid).take (bufLen - content.length)) 0

/-- The bytes are a number to their end, and it makes no difference before the digits of `pid`. -/
def Harmless (pid : Nat) (content : Bytes) : Prop :=
  content.length < bufLen ∧ (number content).all Char.isDigit = true ∧
    spelled pid content < 2 ^ 63 ∧
    ((if negative content then -(spelled pid content : Int) else spelled pid content) - pid) %
      2 ^ 32 = 0

instance (pid : Nat) (content : Bytes) : Decidable (Harmless pid content) :=
  inferInstanceAs (Decidable (_ ∧ _ ∧ _ ∧ _))

/-- The file has nothing in it, or the id of a process that is found, or bytes that do no
harm. -/
def clean (live : Int → Bool) (pid_ : Nat) : Option Bytes → Bool
  | none => true
  | some content =>
    let buf := content.take bufLen
    decide (buf = []) || found live pid_ (oldPid buf) || decide (Harmless pid_ content)

section Append

variable {content : Bytes} {pid : Nat}

theorem decimal_take_all (n : Nat) : ((decimal pid).take n).all Char.isDigit = true :=
  List.all_eq_true.mpr fun _ hc => isDigit_of_mem_decimal (List.mem_of_mem_take hc)

/-- A buffer that was full is read again as it was. -/
theorem take_writeAt_of_le (h : bufLen ≤ content.length) (bytes : Bytes) :
    (writeAt content (content.take bufLen).length bytes).take bufLen = content.take bufLen := by
  have hlen : (content.take bufLen).length = bufLen := by
    rw [List.length_take]
    exact Nat.min_eq_left h
  rw [writeAt, hlen, List.append_assoc, List.append_assoc, List.take_append_of_le_length hlen.ge,
    List.take_take, Nat.min_self]

/-- What did not fill the buffer has the new bytes behind it. -/
theorem take_writeAt_of_lt (h : content.length < bufLen) (bytes : Bytes) :
    (writeAt content (content.take bufLen).length bytes).take bufLen
      = content ++ bytes.take (bufLen - content.length) := by
  have hall : content.take bufLen = content := List.take_of_length_le h.le
  rw [writeAt, hall, List.take_length, Nat.sub_self, List.replicate_zero, List.append_nil,
    List.drop_eq_nil_of_le (Nat.le_add_right _ _), List.append_nil, List.take_append, hall]

/-- **What stale bytes do to the id behind them.** -/
theorem oldPid_writeAt_iff (h : IsPid pid) (hold : oldPid (content.take bufLen) ≠ pid) :
    oldPid ((writeAt content (content.take bufLen).length (decimal pid)).take bufLen) = pid ↔
      Harmless pid content := by
  by_cases hlen : content.length < bufLen
  · rw [take_writeAt_of_lt hlen]
    have he : ((decimal pid).take (bufLen - content.length)).all Char.isDigit = true :=
      decimal_take_all _
    cases hdigits : (number content).all Char.isDigit with
    | true =>
      rw [oldPid_eq_iff h, number_append he, negative_append he, digits_append_of_all he hdigits]
      exact ⟨fun hread => ⟨hlen, hdigits, hread⟩, fun hharm => hharm.2.2⟩
    | false =>
      -- the digits are not reached, and the old id is read again
      rw [List.take_of_length_le hlen.le, Ne, oldPid_eq_iff h] at hold
      rw [oldPid_eq_iff h, number_append he, negative_append he, digits_append_of_not_all hdigits]
      refine ⟨fun hread => absurd hread hold, fun hharm => ?_⟩
      rw [hharm.2.1] at hdigits
      cases hdigits
  · rw [take_writeAt_of_le (Nat.le_of_not_lt hlen)]
    exact ⟨fun hread => absurd hread hold, fun hharm => absurd hharm.1 hlen⟩

end Append

section Returns

variable {fail : Option Call} {live : Int → Bool} {pid_ : Nat} {file file' : Option Bytes}

/-! ### When `CheckOnly` returns

In a start that is let in nothing has failed, and nobody was found. So what the file has in it then
is its old bytes, with the id behind those that were read. -/

theorem writePidIntoFd_returns {content : Bytes} {offset : Nat}
    (h : writePidIntoFd fail pid_ content offset = (file', true)) :
    file' = some (writeAt content offset (decimal pid_)) := by
  unfold writePidIntoFd at h
  split at h
  · cases h
  · exact (Prod.mk.inj h).1.symm

theorem take_bufLen_eq_nil_iff {content : Bytes} : content.take bufLen = [] ↔ content = [] := by
  rw [List.take_eq_nil_iff]
  exact ⟨fun h => h.resolve_left (by decide), Or.inr⟩

theorem writeAt_nil (bytes : Bytes) : writeAt [] 0 bytes = bytes := by
  simp [writeAt]

/-- The process goes on over an empty file, or over the bytes of a process that is not found. -/
theorem checkOnly_returns (h : checkOnly fail live pid_ file = (file', true)) :
    (file = none ∨ file = some []) ∧ file' = some (decimal pid_) ∨
      ∃ content, file = some content ∧ content ≠ [] ∧
        found live pid_ (oldPid (content.take bufLen)) = false ∧
        file' = some (writeAt content (content.take bufLen).length (decimal pid_)) := by
  unfold checkOnly at h
  split at h
  · cases h
  -- no file, so it is made; or there is one, which is read first
  · split at h
    · unfold createPidFile at h
      split at h
      · cases h
      · split at h
        · cases h
        · refine Or.inl ⟨Or.inl rfl, ?_⟩
          rw [writePidIntoFd_returns h, writeAt_nil]
    · next content =>
      unfold checkPidFile at h
      split at h
      · cases h
      · dsimp only at h
        split at h
        -- read as empty, it is written like a new one
        · next hnil =>
          obtain rfl := take_bufLen_eq_nil_iff.mp hnil
          refine Or.inl ⟨Or.inr rfl, ?_⟩
          rw [writePidIntoFd_returns h, writeAt_nil]
        -- bytes of a dead process, and the id goes behind them
        · next hne =>
          split at h
          · cases h
          · next hdead =>
            refine Or.inr ⟨content, rfl, mt take_bufLen_eq_nil_iff.mpr hne, ?_, ?_⟩
            · exact Bool.eq_false_iff.mpr hdead
            · exact writePidIntoFd_returns h

/-- A process that is not found is another one. -/
theorem ne_of_not_found {old_pid : Int} (h : found live pid_ old_pid = false) :
    old_pid ≠ pid_ := by
  rintro rfl
  simp [found] at h

/-- **The exact condition for one start**: if the process goes on, its id is what is read from the
file. -/
theorem readPid_checkOnly_iff (hpid : IsPid pid_) :
    (∀ fail file', checkOnly fail live pid_ file = (file', true) → readPid file' = some ↑pid_) ↔
      clean live pid_ file = true := by
  constructor
  · intro h
    cases file with
    | none => rfl
    | some content =>
      by_cases hnil : content.take bufLen = []
      · simp [clean, hnil]
      -- a process that is found refuses the start, and then there is nothing to show
      · cases hdead : found live pid_ (oldPid (content.take bufLen)) with
        | true => simp [clean, hdead]
        | false =>
          have hreturns : checkOnly none live pid_ (some content)
              = (some (writeAt content (content.take bufLen).length (decimal pid_)), true) := by
            simp [checkOnly, checkPidFile, hnil, hdead, writePidIntoFd]
          have hread := Option.some.inj (h none _ hreturns)
          have hharm := (oldPid_writeAt_iff hpid (ne_of_not_found hdead)).mp hread
          simp [clean, hharm]
  · intro hclean fail file' h
    -- written into an empty file, or behind bytes that do no harm
    rcases checkOnly_returns h with ⟨-, rfl⟩ | ⟨content, rfl, hne, hdead, rfl⟩
    · have hlen : (decimal pid_).length ≤ bufLen := (length_decimal_le hpid).trans (by decide)
      rw [readPid, Option.map_some, List.take_of_length_le hlen, oldPid_decimal hpid]
    · have hharm : Harmless pid_ content := by
        have hnil : content.take bufLen ≠ [] := mt take_bufLen_eq_nil_iff.mp hne
        simpa [clean, hdead, hnil] using hclean
      rw [readPid, Option.map_some]
      exact congrArg some ((oldPid_writeAt_iff hpid (ne_of_not_found hdead)).mpr hharm)

/-- A process that is refused leaves what was in the file. -/
theorem checkOnly_refused {content : Bytes}
    (h : (checkOnly fail live pid_ (some content)).2 = false) :
    (checkOnly fail live pid_ (some content)).1 = some content := by
  -- a write that fails writes nothing
  have hwrite : ∀ offset, (writePidIntoFd fail pid_ content offset).2 = false →
      (writePidIntoFd fail pid_ content offset).1 = some content := by
    intro offset hw
    unfold writePidIntoFd at hw ⊢
    split at hw
    · next hfail => rw [if_pos hfail]
    · cases hw
  unfold checkOnly at h ⊢
  split
  · rfl
  · next hopen =>
    rw [if_neg hopen] at h
    show (checkPidFile fail live pid_ content).1 = some content
    have h : (checkPidFile fail live pid_ content).2 = false := h
    unfold checkPidFile at h ⊢
    split
    · rfl
    · next hcalls =>
      rw [if_neg hcalls] at h
      dsimp only at h ⊢
      split
      · next hnil =>
        rw [if_pos hnil] at h
        exact hwrite 0 h
      · next hne =>
        rw [if_neg hne] at h
        split
        · rfl
        · next hdead =>
          rw [if_neg hdead] at h
          exact hwrite _ h

end Returns

/-! ## Sequences of starts

One process after the other, each as a whole. Between the starts a process may die, which leaves its
id in the file, or stop, which removes the file. -/

/-- What is left when each start is one step. -/
structure State where
  /-- `/tmp/my_pid_file`, if there is one. -/
  file : Option Bytes
  /-- The processes that came back from `CheckOnly` and live. -/
  owners : List Nat
deriving DecidableEq, Repr

/-- A start comes with what the system has for it: who else is there, and which call fails. -/
inductive Action where
  /-- `others` is what else `kill` finds at the time, processes and groups. -/
  | start (pid_ : Nat) (others : List Int) (fail : Option Call)
  | die (pid_ : Nat)
  | stop (pid_ : Nat)  -- it removes the file first
deriving DecidableEq, Repr

namespace State

variable (s : State)

def live (others : List Int) (pid : Int) : Bool :=
  s.owners.any (fun owner => (owner : Int) = pid) || others.contains pid

def start (pid_ : Nat) (others : List Int) (fail : Option Call) : Option State :=
  if IsPid pid_ ∧ pid_ ∉ s.owners then
    let r := checkOnly fail (s.live others) pid_ s.file
    some { file := r.1, owners := if r.2 then s.owners ++ [pid_] else s.owners }
  else none

def die (pid_ : Nat) : Option State :=
  if pid_ ∈ s.owners then some { s with owners := s.owners.erase pid_ } else none

def stop (pid_ : Nat) : Option State :=
  if pid_ ∈ s.owners then some { file := none, owners := s.owners.erase pid_ } else none

def step : Action → Option State
  | .start pid_ others fail => s.start pid_ others fail
  | .die pid_ => s.die pid_
  | .stop pid_ => s.stop pid_

end State

/-- The first process starts over whatever is there. -/
def starts (file : Option Bytes) : Machine State Action where
  init := { file, owners := [] }
  step := State.step

/-- A start finds a clean file. -/
def cleanStart (s : State) : Action → Bool
  | .start pid_ others _ => clean (s.live others) pid_ s.file
  | _ => true

/-- A start while another process lives is refused. -/
def Refused (s : State) : Action → Prop
  | .start pid_ others fail =>
    s.owners ≠ [] → (checkOnly fail (s.live others) pid_ s.file).2 = false
  | _ => True

/-- There is at most one owner, and it is what is read from the file. -/
def Owned (s : State) : Prop :=
  s.owners = [] ∨ ∃ p, s.owners = [p] ∧ IsPid p ∧ readPid s.file = some ↑p

section Runs

variable {s s' : State}

/-! ### Runs of starts

Whoever was let in wrote its id, and is there until it ends. The next start reads that id, as long
as what it was written behind does no harm. -/

theorem State.start_cases {pid_ : Nat} {others : List Int} {fail : Option Call}
    (h : s.start pid_ others fail = some s') :
    IsPid pid_ ∧ ((checkOnly fail (s.live others) pid_ s.file).2 = true ∧
        s' = { file := (checkOnly fail (s.live others) pid_ s.file).1,
               owners := s.owners ++ [pid_] } ∨
      (checkOnly fail (s.live others) pid_ s.file).2 = false ∧
        s' = { s with file := (checkOnly fail (s.live others) pid_ s.file).1 }) := by
  unfold State.start at h
  split at h
  · next hc =>
    refine ⟨hc.1, ?_⟩
    obtain rfl := (Option.some.inj h).symm
    cases hreturns : (checkOnly fail (s.live others) pid_ s.file).2 with
    | true => exact Or.inl ⟨rfl, rfl⟩
    | false => exact Or.inr ⟨rfl, rfl⟩
  · cases h

theorem State.die_cases {pid_ : Nat} (h : s.die pid_ = some s') :
    pid_ ∈ s.owners ∧ s' = { s with owners := s.owners.erase pid_ } := by
  unfold State.die at h
  split at h
  · next hmem => exact ⟨hmem, (Option.some.inj h).symm⟩
  · cases h

theorem State.stop_cases {pid_ : Nat} (h : s.stop pid_ = some s') :
    pid_ ∈ s.owners ∧ s' = { file := none, owners := s.owners.erase pid_ } := by
  unfold State.stop at h
  split at h
  · next hmem => exact ⟨hmem, (Option.some.inj h).symm⟩
  · cases h

theorem Owned.erase_eq_nil (h : Owned s) {pid_ : Nat} (hmem : pid_ ∈ s.owners) :
    s.owners.erase pid_ = [] := by
  obtain hnil | ⟨p, hp, -, -⟩ := h
  · rw [hnil] at hmem
    cases hmem
  · rw [hp] at hmem ⊢
    obtain rfl := List.mem_singleton.mp hmem
    exact List.erase_cons_head _ _

theorem Owned.refused (h : Owned s) (pid_ : Nat) (others : List Int) (fail : Option Call)
    (hne : s.owners ≠ []) :
    (checkOnly fail (s.live others) pid_ s.file).2 = false := by
  obtain hnil | ⟨p, hp, hpid, hread⟩ := h
  · exact absurd hnil hne
  · obtain ⟨content, hfile, hold⟩ := Option.map_eq_some_iff.mp hread
    refine Bool.eq_false_iff.mpr fun hok => ?_
    have hpos := hpid.1
    -- the owner is found
    rcases checkOnly_returns (Prod.ext rfl hok) with ⟨hempty, -⟩ | ⟨content', hfile', -, hdead, -⟩
    · rw [hfile] at hempty
      obtain rfl := Option.some.inj (hempty.resolve_left nofun)
      rw [show oldPid (List.take bufLen []) = 0 by decide] at hold
      omega
    · obtain rfl := Option.some.inj (hfile.symm.trans hfile')
      rw [hold] at hdead
      simp [found, State.live, hp] at hdead

theorem Owned.step (h : Owned s) {a : Action} (hok : cleanStart s a = true)
    (hs : s.step a = some s') : Owned s' := by
  -- at most one owner: a start is refused while there is one
  cases a with
  | start pid_ others fail =>
    obtain ⟨hpid, ⟨hreturns, rfl⟩ | ⟨hrefused, rfl⟩⟩ := State.start_cases hs
    · right
      have hnil : s.owners = [] := by
        by_contra hne
        rw [h.refused pid_ others fail hne] at hreturns
        cases hreturns
      refine ⟨pid_, by rw [hnil]; rfl, hpid, ?_⟩
      exact (readPid_checkOnly_iff hpid).mpr hok fail _ (Prod.ext rfl hreturns)
    -- refused: the file stays, and with it the id of the owner
    · obtain hnil | ⟨p, hp, hpidp, hread⟩ := h
      · exact Or.inl hnil
      · obtain ⟨content, hfile, -⟩ := Option.map_eq_some_iff.mp hread
        rw [hfile] at hrefused
        refine Or.inr ⟨p, hp, hpidp, ?_⟩
        show readPid (checkOnly fail (s.live others) pid_ s.file).1 = _
        rw [hfile, checkOnly_refused hrefused, ← hfile, hread]
  | die pid_ =>
    obtain ⟨hmem, rfl⟩ := State.die_cases hs
    exact Or.inl (h.erase_eq_nil hmem)
  | stop pid_ =>
    obtain ⟨hmem, rfl⟩ := State.stop_cases hs
    exact Or.inl (h.erase_eq_nil hmem)

end Runs

/-- **The pid file decodes to its owner exactly if the start found it clean.** Whatever is in the
file and whoever lives: every process that comes back from `CheckOnly` can be read from the file,
if and only if the file was clean. And in a run whose starts all find a clean file, every start
while another process lives is refused, and who lives is read from the file. -/
theorem pid_file_decodes (file : Option Bytes) :
    (∀ (live : Int → Bool) (pid_ : Nat), IsPid pid_ →
      ((∀ fail file', checkOnly fail live pid_ file = (file', true) →
        readPid file' = some ↑pid_) ↔ clean live pid_ file = true)) ∧
    ∀ (as : List Action) (s : State), (starts file).run as = some s →
      (starts file).Meets (fun s a => cleanStart s a = true) as →
      (starts file).Meets Refused as ∧ ∀ p ∈ s.owners, readPid s.file = some ↑p := by
  -- one start for itself, and then the runs by the invariant
  refine ⟨fun live pid_ hpid => readPid_checkOnly_iff hpid, fun as s hrun hok => ⟨?_, ?_⟩⟩
  · refine hok.imp (I := Owned) (Or.inl rfl) (fun h hok hs => h.step hok hs) ?_
    intro s a h _
    cases a with
    | start pid_ others fail => exact h.refused pid_ others fail
    | die | stop => exact trivial
  · intro p hp
    have howned : Owned s :=
      hok.inv (I := Owned) (Or.inl rfl) (fun h hok hs => h.step hok hs) hrun
    obtain hnil | ⟨q, hq, -, hread⟩ := howned
    · rw [hnil] at hp
      cases hp
    · rw [hq] at hp
      obtain rfl := List.mem_singleton.mp hp
      exact hread

/-- The second start is refused, and the third one comes after an orderly end. -/
def cleanStarts : List Action :=
  [.start 100 [] none, .start 200 [] none, .stop 100, .start 300 [] (some .write),
    .start 400 [] none]

/-- `2 ^ 27` makes no difference before a process id of five digits. -/
def stalePow : Bytes := ['1', '3', '4', '2', '1', '7', '7', '2', '8']

theorem pid_file_decodes_cleanStarts :
    readPid (checkOnly none (fun _ => false) 12345 (some stalePow)).1 = some 12345 ∧
      ∃ s, (starts none).run cleanStarts = some s ∧ (starts none).Meets Refused cleanStarts ∧
        s.owners = [400] ∧ readPid s.file = some 400 := by
  constructor
  · have hreturns : (checkOnly none (fun _ => false) 12345 (some stalePow)).2 = true := by decide
    exact ((pid_file_decodes (some stalePow)).1 (fun _ => false) 12345 (by decide)).mpr (by decide)
      none _ (Prod.ext rfl hreturns)
  · obtain ⟨s, hs⟩ := Option.isSome_iff_exists.mp
      (show ((starts none).run cleanStarts).isSome = true by decide)
    have hend : ((starts none).run cleanStarts).map State.owners = some [400] := by decide
    rw [hs, Option.map_some, Option.some.injEq] at hend
    obtain ⟨hrefused, hread⟩ := (pid_file_decodes none).2 cleanStarts s hs (by decide)
    exact ⟨s, hs, hrefused, hend, hread 400 (hend ▸ List.mem_singleton.mpr rfl)⟩

/-- **The id of a dead process stays in front**: the first process wrote 100 and died, the second
leaves 100200 to read, and the third one is not refused. -/
theorem stale_id_kept :
    readPid (checkOnly none (fun _ => false) 200 (some (decimal 100))).1 = some 100200 ∧
      (checkOnly none (fun _ => false) 200 (some (decimal 100))).2 = true ∧
      (starts none).run [.start 100 [] none, .die 100, .start 200 [] none, .start 300 [] none]
        = some { file := some (decimal 100 ++ decimal 200 ++ decimal 300),
                 owners := [200, 300] } := by
  decide

end CppDone.SingleInstance.Starts
