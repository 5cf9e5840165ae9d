import CppDone.CrashHandler.CrashFiles
import CppDone.Lib.Machine

/-!
# The limit of crash reports

A program writes reports when it crashes, and cleans up when it starts the next time. A clean-up
of a kind that has reached its limit comes to half of the limit, however far it is over it. So it
gets back below the limit only from less than one and a half times the limit, and from less than
that if it does not find what it comes to.
-/

set_option autoImplicit false

namespace CppDone.CrashHandler

open Directory

/-- What the lives of a program do to the directory: it cleans up when it starts, and writes its
reports when it crashes, a file for each. -/
inductive Action where
  -- `ClearCrashFiles`, the first thing in `Init`, with what `access` answers then
  | start (accesses : Directory → Str → Bool)
  | report (kind : CrashKind) (t : Tm)

namespace Directory

/-- `open` with `O_CREAT`. -/
def create (d : Directory) (name : Str) : Directory :=
  if h : d.names.contains name then d
  else { names := name :: d.names, nodup := List.nodup_cons.mpr ⟨by simpa using h, d.nodup⟩ }

end Directory

/-- Starts and crashes of the program, from a log directory with any content. -/
def crashLog (kCrashLogPath_ : LogPath) (unlinks : Str → Bool) (content : Directory) :
    Machine Directory Action where
  init := content
  step d
    | .start accesses => some (clearCrashFiles kCrashLogPath_ accesses unlinks d)
    | .report kind t => some (d.create (kind.filename t))

/-- A start leaves less than the limit of each kind. -/
def EndsBelow (kCrashLogPath_ : LogPath) (unlinks : Str → Bool) (d : Directory) (a : Action) :
    Prop :=
  ∀ accesses, a = .start accesses → ∀ kind,
    ((clearCrashFiles kCrashLogPath_ accesses unlinks d).files kind).length <
      ALOG_CRASH_FILE_MAX_NUM

/-- A start finds less than what one clean-up can get below the limit: the limit, and as many more
as `access` finds of the three oldest. -/
def FindsFew (kCrashLogPath_ : LogPath) (d : Directory) (a : Action) : Prop :=
  ∀ accesses, a = .start accesses → ∀ kind,
    (d.files kind).length <
      ALOG_CRASH_FILE_MAX_NUM + (foundOf kCrashLogPath_ accesses d kind).length

variable {kCrashLogPath_ : LogPath} {accesses : Directory → Str → Bool} {unlinks : Str → Bool}
  {d : Directory}

theorem length_files_clearCrashFiles (hunlinks : ∀ p, unlinks p = true) (kind : CrashKind) :
    ((clearCrashFiles kCrashLogPath_ accesses unlinks d).files kind).length =
      (d.files kind).length - (foundOf kCrashLogPath_ accesses d kind).length := by
  rw [files_clearCrashFiles hunlinks, ← length_filter_not_mem (nodup_files d kind)
    (nodup_foundOf kind) fun _ h => mem_of_mem_oldest (mem_oldest_of_mem_foundOf h)]
  congr 1
  apply List.filter_congr
  intro name hmem
  apply decide_eq_decide.mpr
  rw [mem_foundOf hmem]

theorem endsBelow_iff (hunlinks : ∀ p, unlinks p = true) (a : Action) :
    EndsBelow kCrashLogPath_ unlinks d a ↔ FindsFew kCrashLogPath_ d a := by
  unfold EndsBelow FindsFew
  apply forall_congr'
  intro accesses
  apply imp_congr_right
  intro _
  apply forall_congr'
  intro kind
  rw [length_files_clearCrashFiles hunlinks, ALOG_CRASH_FILE_MAX_NUM]
  omega

/-- Where each is found, there are three more: the limit and a half. -/
theorem findsFew_of_findsOldest (hfind : FindsOldest kCrashLogPath_ accesses d)
    (h : ∀ kind, (d.files kind).length < ALOG_CRASH_FILE_MAX_NUM + ALOG_CRASH_FILE_MAX_NUM / 2) :
    FindsFew kCrashLogPath_ d (.start accesses) := by
  rintro _ ⟨⟩ kind
  by_cases hmany : ALOG_CRASH_FILE_MAX_NUM ≤ (d.files kind).length
  · rw [length_foundOf hfind hmany]
    exact h kind
  · omega

/-- **Crash reports stay within their limit** exactly as long as no start finds too many: from any
content of the directory, over any starts and reports, each start leaves less than the limit of
each kind if and only if each finds less than the limit and what it gets at of the oldest three. -/
theorem crash_files_within_limit_iff (kCrashLogPath_ : LogPath) (unlinks : Str → Bool)
    (hunlinks : ∀ p, unlinks p = true) (content : Directory) (as : List Action) :
    (crashLog kCrashLogPath_ unlinks content).Meets (EndsBelow kCrashLogPath_ unlinks) as ↔
      (crashLog kCrashLogPath_ unlinks content).Meets (FindsFew kCrashLogPath_) as := by
  constructor
  · intro h pre a post d he hd
    exact (endsBelow_iff hunlinks a).mp (h pre a post d he hd)
  · intro h pre a post d he hd
    exact (endsBelow_iff hunlinks a).mpr (h pre a post d he hd)

/-- Six reports, one more, and a start that finds all but the newest. -/
theorem crash_files_within_limit_seven :
    (crashLog root (fun _ => true) atLimit).Meets (EndsBelow root fun _ => true)
      [.report .trace (newYear 6), .start (dangling (CrashKind.trace.filename (newYear 6)))] := by
  refine (crash_files_within_limit_iff root (fun _ => true) (fun _ => rfl) atLimit _).mpr ?_
  refine Machine.meets_iff_meetsFrom.mpr ⟨fun _ h => (nomatch h), fun d hd => ?_⟩
  obtain rfl := Option.some.inj hd
  refine ⟨?_, fun _ _ => trivial⟩
  refine findsFew_of_findsOldest (found_eq_self_iff.mp (by decide)) fun kind => ?_
  cases kind with
  | trace => decide
  | maps => decide

def nineReports : Directory where
  names := reports .trace 9
  nodup := by decide

/-- **Nine reports**: three are removed, and the limit of six is not below. -/
theorem crash_files_over_limit :
    ¬ (crashLog root (fun _ => true) nineReports).Meets (EndsBelow root fun _ => true)
      [.start fun _ _ => true] := by
  intro h
  have hfew := (endsBelow_iff (fun _ => rfl) _).mp (h [] (.start _) [] _ rfl rfl)
  exact absurd (hfew _ rfl .trace) (by decide)

end CppDone.CrashHandler
