import CppDone.HttpClient.Cookie
import CppDone.Lib.Numerals
import CppDone.Lib.Smallest

/-!
# `ClearCrashFiles`

What is done about the reports of earlier crashes when the program starts. The names in the log
directory are sorted into two lists by their beginnings, and of each list that has reached its
limit the first half of the limit, in the order of the names, is removed.

The name of a report ends with the time at which it was written, the fields from the year down and
each with leading zeros. So the order of the names is the order of the times (`text_lt_iff`), as
long as the years have four digits.

A directory is the list of its names as `directory_iterator` gives them. What the system answers
about an entry is a parameter. `access` goes through links and needs the right to search the
directory, so it need not find an entry although the iterator has named it: `accesses` says which
it finds, with the names that are there at the time, and what it does not find is left where it is
by `removeSingleFile`. Whether an `unlink` succeeds is up to `unlinks`. An exception of the
iterator, for a directory that is not there, leaves everything as it is and is left out.
-/

set_option autoImplicit false

namespace CppDone.CrashHandler

def CRASH_FILE_NAME : Str := "crash_trace".toList

def CRASH_PROCESS_MAPS : Str := "crash_process_maps".toList

def ALOG_CRASH_FILE_MAX_NUM : Nat := 6

def strstartswith (a b : Str) : Bool := b.isPrefixOf a

/-! ## The names of reports

A beginning that tells the kind and the time at which the report was written. The time has a fixed
form, so a name can be read as a time and compared as a text. -/

/-- A `struct tm` whose year has four digits. A leap second is allowed. -/
structure Tm where
  tm_year : Int  -- since 1900
  tm_mon : Nat
  tm_mday : Nat
  tm_hour : Nat
  tm_min : Nat
  tm_sec : Nat
  year : 1000 ≤ tm_year + 1900 ∧ tm_year + 1900 ≤ 9999
  mon : tm_mon ≤ 11
  mday : 1 ≤ tm_mday ∧ tm_mday ≤ 31
  hour : tm_hour ≤ 23
  min : tm_min ≤ 59
  sec : tm_sec ≤ 60

namespace Tm

/-- `%04d-%02d-%02d_%02d_%02d_%02d`. -/
def text (t : Tm) : Str :=
  numeral 4 (t.tm_year + 1900).toNat ++ '-' :: (numeral 2 (t.tm_mon + 1) ++ '-' ::
    (numeral 2 t.tm_mday ++ '_' :: (numeral 2 t.tm_hour ++ '_' ::
      (numeral 2 t.tm_min ++ '_' :: numeral 2 t.tm_sec))))

def fields (t : Tm) : List Int :=
  [t.tm_year, t.tm_mon, t.tm_mday, t.tm_hour, t.tm_min, t.tm_sec]

/-- The first fields that differ decide. -/
def Before (t u : Tm) : Prop := t.fields < u.fields

end Tm

/-- The two kinds of reports. Each has its own limit and its own beginning of a name. -/
inductive CrashKind where
  | trace  -- `CrashFileOpenAndWriteCommon`
  | maps  -- `SaveProcessMapsToLog`
deriving DecidableEq, Repr

def CrashKind.start : CrashKind → Str
  | .trace => CRASH_FILE_NAME
  | .maps => CRASH_PROCESS_MAPS

def CrashKind.filename (kind : CrashKind) (t : Tm) : Str := kind.start ++ '.' :: t.text

/-! ## The log directory

A set of names, none of them twice. The functions go through lists of names, ask for each whether it
is there, and remove it. -/

/-- `kCrashLogPath_`. It ends with a slash, so that a name can be put behind it. -/
structure LogPath where
  text : Str
  absolute : text.head? = some '/'
  ended : text.getLast? = some '/'

/-- The order of the names is that of the iterator, which may be any. -/
@[ext]
structure Directory where
  names : List Str
  nodup : names.Nodup

namespace Directory

def files (d : Directory) (kind : CrashKind) : List Str :=
  d.names.filter fun name => strstartswith name kind.start

/-- The names that are not in `d'` any more. -/
def removed (d d' : Directory) (kind : CrashKind) : List Str :=
  (d.files kind).filter (· ∉ d'.names)

/-- The names of reports have the form in which they are written. -/
def Written (d : Directory) : Prop :=
  ∀ kind, ∀ name ∈ d.files kind, ∃ t, name = CrashKind.filename kind t

/-- The directory once these names are gone. -/
def without (d : Directory) (names : List Str) : Directory where
  names := d.names.filter (· ∉ names)
  nodup := d.nodup.filter _

end Directory

section

variable (kCrashLogPath_ : LogPath) (accesses : Directory → Str → Bool) (unlinks : Str → Bool)

/-- `access(filepath, F_OK) == 0`. There has to be an entry, and what it stands for has to be
found: nothing, for a link that leads nowhere. -/
def access (d : Directory) (filepath : Str) : Bool :=
  (d.names.any fun name => kCrashLogPath_.text ++ name = filepath) && accesses d filepath

def unlink (d : Directory) (filepath : Str) : Directory where
  names := d.names.filter fun name => kCrashLogPath_.text ++ name ≠ filepath
  nodup := d.nodup.filter _

def removeSingleFile (d : Directory) (filepath : Str) : Bool × Directory :=
  if filepath = ['/'] then (false, d)
  else if filepath.head? ≠ some '/' then (false, d)
  else if access kCrashLogPath_ accesses d filepath then
    if unlinks filepath then (true, unlink kCrashLogPath_ d filepath) else (false, d)
  else (true, d)  -- also where there is an entry, which then stays

/-- The loop over the names of the directory: `crashFiles` and `crashProcessMaps`. -/
def collect : List Str → List Str × List Str
  | [] => ([], [])
  | name :: names =>
    let (crashFiles, crashProcessMaps) := collect names
    if strstartswith name CRASH_FILE_NAME then (name :: crashFiles, crashProcessMaps)
    else if strstartswith name CRASH_PROCESS_MAPS then (crashFiles, name :: crashProcessMaps)
    else (crashFiles, crashProcessMaps)

/-- The loop over the sorted names, which are more than it has turns. -/
def removeOldest (files : List Str) (d : Directory) : Directory :=
  if files.length ≥ ALOG_CRASH_FILE_MAX_NUM then
    (smallest (ALOG_CRASH_FILE_MAX_NUM / 2) files).foldl
      (fun d name =>
        (removeSingleFile kCrashLogPath_ accesses unlinks d (kCrashLogPath_.text ++ name)).2) d
  else d

def clearCrashFiles (d : Directory) : Directory :=
  let (crashFiles, crashProcessMaps) := collect d.names
  removeOldest kCrashLogPath_ accesses unlinks crashProcessMaps
    (removeOldest kCrashLogPath_ accesses unlinks crashFiles d)

end

/-! ## The order of the names

The comparison of the texts is the comparison of the times. -/

/-- **The text of a time** comes first if the time does. -/
theorem text_lt_iff (t u : Tm) : t.text < u.text ↔ t.Before u := by
  have hyear := t.year
  have hyear' := u.year
  have hmday := t.mday
  have hmday' := u.mday
  have hmon := t.mon
  have hmon' := u.mon
  have hhour := t.hour
  have hhour' := u.hour
  have hmin := t.min
  have hmin' := u.min
  have hsec := t.sec
  have hsec' := u.sec
  -- field by field, each of its own width
  unfold Tm.text Tm.Before Tm.fields
  rw [numeral_append_lt_iff (by decide) (by omega) (by omega),
    numeral_append_lt_iff (by decide) (by omega) (by omega),
    numeral_append_lt_iff (by decide) (by omega) (by omega),
    numeral_append_lt_iff (by decide) (by omega) (by omega),
    numeral_append_lt_iff (by decide) (by omega) (by omega),
    numeral_lt_iff (by decide) (by omega) (by omega)]
  simp only [List.cons_lt_cons_iff, List.not_lt_nil, and_false, or_false]
  omega

theorem filename_lt_iff (kind : CrashKind) (t u : Tm) :
    kind.filename t < kind.filename u ↔ t.Before u := by
  unfold CrashKind.filename
  rw [append_lt_append_iff rfl, List.cons_lt_cons_iff, text_lt_iff]
  simp

/-! ## What is removed

The two loops over sorted names become a filter of the directory: gone are those of the first three
of a kind at its limit which `access` finds. Each name is looked for in the directory as the earlier
ones have left it. -/

theorem ne_nil_of_startswith {kind : CrashKind} {name : Str}
    (h : strstartswith name kind.start = true) : name ≠ [] := by
  rintro rfl
  cases kind with
  | trace => cases h
  | maps => cases h

/-- The two beginnings exclude each other. -/
theorem kind_eq_of_startswith {kind kind' : CrashKind} {name : Str}
    (h : strstartswith name kind.start = true) (h' : strstartswith name kind'.start = true) :
    kind = kind' := by
  have hprefix : kind.start <+: name := List.isPrefixOf_iff_prefix.mp h
  have hprefix' : kind'.start <+: name := List.isPrefixOf_iff_prefix.mp h'
  have hone := List.prefix_or_prefix_of_prefix hprefix hprefix'
  cases kind with
  | trace =>
    cases kind' with
    | trace => rfl
    | maps => exact absurd hone (by decide)
  | maps =>
    cases kind' with
    | trace => exact absurd hone (by decide)
    | maps => rfl

/-- The loop over the names sorts them by their beginnings, and no name has both. -/
theorem collect_eq (names : List Str) :
    collect names =
      (names.filter fun name => strstartswith name CRASH_FILE_NAME,
        names.filter fun name => strstartswith name CRASH_PROCESS_MAPS) := by
  induction names with
  | nil => rfl
  | cons name names ih =>
    rw [collect, ih]
    dsimp only
    split
    · next htrace =>
      have hmaps : strstartswith name CRASH_PROCESS_MAPS = false := by
        apply Bool.eq_false_iff.mpr
        intro hmaps
        have hsame : CrashKind.trace = .maps := kind_eq_of_startswith htrace hmaps
        cases hsame
      simp [htrace, hmaps]
    · next htrace =>
      split
      · next hmaps => simp [htrace, hmaps]
      · next hmaps => simp [htrace, hmaps]

/-! ### The names that are due

For each kind the first three in the order of the names, if there are so many that something has to
be done. All other names stay where they are. -/

/-- The names of one kind that a clean-up comes to. -/
def oldest (files : List Str) : List Str :=
  if files.length ≥ ALOG_CRASH_FILE_MAX_NUM then smallest (ALOG_CRASH_FILE_MAX_NUM / 2) files
  else []

theorem mem_of_mem_oldest {files : List Str} {name : Str} (h : name ∈ oldest files) :
    name ∈ files := by
  unfold oldest at h
  split at h
  · exact mem_of_mem_smallest h
  · cases h

/-- A clean-up comes to three of a kind that has reached its limit. -/
theorem length_oldest {files : List Str} (h : ALOG_CRASH_FILE_MAX_NUM ≤ files.length) :
    (oldest files).length = 3 := by
  unfold oldest
  rw [if_pos h]
  apply length_smallest
  exact Nat.le_trans (by decide) h

theorem oldest_of_lt {files : List Str} (h : files.length < ALOG_CRASH_FILE_MAX_NUM) :
    oldest files = [] := by
  unfold oldest
  exact if_neg (Nat.not_le_of_lt h)

theorem nodup_oldest {files : List Str} (h : files.Nodup) : (oldest files).Nodup := by
  unfold oldest
  split
  · exact nodup_smallest h
  · exact List.nodup_nil

/-- What is kept is no older than what is due. -/
theorem le_of_mem_oldest {files : List Str} {old kept : Str} (hold : old ∈ oldest files)
    (hkept : kept ∈ files) (hnot : kept ∉ oldest files) : old ≤ kept := by
  unfold oldest at hold hnot
  split at hold
  · next hfull =>
    rw [if_pos hfull] at hnot
    exact le_of_mem_smallest hold hkept hnot
  · cases hold

namespace Directory

variable {d : Directory} {kind : CrashKind} {name : Str}

theorem mem_files : name ∈ d.files kind ↔ name ∈ d.names ∧ strstartswith name kind.start = true :=
  List.mem_filter

theorem ne_nil_of_mem_files (h : name ∈ d.files kind) : name ≠ [] :=
  ne_nil_of_startswith (mem_files.mp h).2

theorem nodup_files (d : Directory) (kind : CrashKind) : (d.files kind).Nodup :=
  d.nodup.filter _

/-- All that a clean-up comes to, in the order in which it does. -/
def due (d : Directory) : List Str := oldest (d.files .trace) ++ oldest (d.files .maps)

/-- A name is due in its own kind. -/
theorem mem_due : name ∈ d.due ↔ ∃ kind, name ∈ oldest (d.files kind) := by
  unfold due
  rw [List.mem_append]
  constructor
  · rintro (htrace | hmaps)
    · exact ⟨.trace, htrace⟩
    · exact ⟨.maps, hmaps⟩
  · rintro ⟨kind, hold⟩
    cases kind with
    | trace => exact .inl hold
    | maps => exact .inr hold

/-- Of its own kind, that is. -/
theorem mem_oldest_of_mem_due (h : name ∈ d.due) (hstart : strstartswith name kind.start = true) :
    name ∈ oldest (d.files kind) := by
  obtain ⟨kind', hold⟩ := mem_due.mp h
  have hstart' := (mem_files.mp (mem_of_mem_oldest hold)).2
  obtain rfl := kind_eq_of_startswith hstart hstart'
  exact hold

theorem nodup_due (d : Directory) : d.due.Nodup := by
  refine List.nodup_append.mpr
    ⟨nodup_oldest (nodup_files d _), nodup_oldest (nodup_files d _), ?_⟩
  rintro trace htrace maps hmaps rfl
  have hsame : CrashKind.trace = .maps :=
    kind_eq_of_startswith (mem_files.mp (mem_of_mem_oldest htrace)).2
      (mem_files.mp (mem_of_mem_oldest hmaps)).2
  cases hsame

@[simp]
theorem without_nil (d : Directory) : d.without [] = d := by
  ext1
  simp [without]

/-- To remove one list and then another is to remove both. -/
theorem without_append (d : Directory) (xs ys : List Str) :
    d.without (xs ++ ys) = (d.without xs).without ys := by
  ext1
  simp only [without, List.filter_filter]
  apply List.filter_congr
  intro name _
  simp [Bool.and_comm]

end Directory

open Directory

section

variable {kCrashLogPath_ : LogPath} {accesses : Directory → Str → Bool} {unlinks : Str → Bool}
  {d : Directory}

/-! ### What is found

Which of the names that are due are removed is up to `access`, and that is asked for one name after
the other. So what it finds is found along the list, with the names before it gone already. -/

/-- What `access` finds of these names, each looked for when those before it that were found are
gone. -/
def found (kCrashLogPath_ : LogPath) (accesses : Directory → Str → Bool) (d : Directory) :
    List Str → List Str
  | [] => []
  | name :: names =>
    if access kCrashLogPath_ accesses d (kCrashLogPath_.text ++ name) then
      name :: found kCrashLogPath_ accesses (d.without [name]) names
    else found kCrashLogPath_ accesses d names

theorem found_cons (name : Str) (names : List Str) :
    found kCrashLogPath_ accesses d (name :: names) =
      if access kCrashLogPath_ accesses d (kCrashLogPath_.text ++ name) then
        name :: found kCrashLogPath_ accesses (d.without [name]) names
      else found kCrashLogPath_ accesses d names :=
  rfl

theorem found_append (xs ys : List Str) :
    found kCrashLogPath_ accesses d (xs ++ ys) =
      found kCrashLogPath_ accesses d xs ++
        found kCrashLogPath_ accesses (d.without (found kCrashLogPath_ accesses d xs)) ys := by
  induction xs generalizing d with
  | nil => simp [found]
  | cons name names ih =>
    rw [List.cons_append, found_cons, found_cons]
    split
    · rw [ih, List.cons_append, ← without_append, List.singleton_append]
    · exact ih

theorem found_sublist (names : List Str) :
    (found kCrashLogPath_ accesses d names).Sublist names := by
  induction names generalizing d with
  | nil => exact List.Sublist.refl _
  | cons name names ih =>
    rw [found_cons]
    split
    · exact ih.cons_cons name
    · exact ih.cons name

/-- Everything is found if each name is, once those before it are gone. -/
theorem found_eq_self_iff {names : List Str} :
    found kCrashLogPath_ accesses d names = names ↔
      ∀ pre name post, names = pre ++ name :: post →
        access kCrashLogPath_ accesses (d.without pre) (kCrashLogPath_.text ++ name) = true := by
  induction names generalizing d with
  | nil => simp [found]
  | cons name names ih =>
    constructor
    · intro h pre name' post he
      rw [found_cons] at h
      split at h
      · next haccess =>
        have htail := ih.mp (List.cons.inj h).2
        cases pre with
        | nil =>
          obtain ⟨rfl, -⟩ := List.cons.inj he
          rw [without_nil]
          exact haccess
        | cons first pre =>
          obtain ⟨rfl, he'⟩ := List.cons.inj he
          have hturn := htail pre name' post he'
          rw [← without_append, List.singleton_append] at hturn
          exact hturn
      · -- what was not found is one name less
        have hmore : (name :: names).Sublist names := h ▸ found_sublist names
        exact absurd hmore.length_le (by simp)
    · intro h
      have haccess := h [] name names rfl
      rw [without_nil] at haccess
      rw [found_cons, if_pos haccess]
      congr 1
      refine ih.mpr fun pre name' post he => ?_
      rw [← without_append, List.singleton_append]
      exact h (name :: pre) name' post (by rw [he]; rfl)

/-! ### The loops

From one name to the loop over three of them, and from that to both kinds, one after the other. -/

/-- With an absolute path that is not the root, it is up to `access` whether the entry goes. -/
theorem removeSingleFile_eq (hunlinks : ∀ p, unlinks p = true) {name : Str} (hname : name ≠ []) :
    (removeSingleFile kCrashLogPath_ accesses unlinks d (kCrashLogPath_.text ++ name)).2 =
      if access kCrashLogPath_ accesses d (kCrashLogPath_.text ++ name) then d.without [name]
      else d := by
  obtain ⟨text, habsolute, hended⟩ := kCrashLogPath_
  have hroot : text ++ name ≠ ['/'] := by
    intro hroot
    rcases List.append_eq_singleton_iff.mp hroot with ⟨rfl, -⟩ | ⟨-, rfl⟩
    · cases habsolute
    · exact hname rfl
  have hhead : (text ++ name).head? = some '/' := by
    rw [List.head?_append, habsolute]
    rfl
  unfold removeSingleFile
  dsimp only
  rw [if_neg hroot, if_neg (not_not_intro hhead), hunlinks, if_pos rfl]
  split
  · ext1
    simp [unlink, without]
  · rfl

/-- The loop over a list of names. `found` goes through it in the same way, since `access` is asked
about the directory as it is at that time. -/
theorem foldl_removeSingleFile (hunlinks : ∀ p, unlinks p = true) {names : List Str}
    (hnames : ∀ name ∈ names, name ≠ []) :
    names.foldl (fun d name =>
      (removeSingleFile kCrashLogPath_ accesses unlinks d (kCrashLogPath_.text ++ name)).2) d =
        d.without (found kCrashLogPath_ accesses d names) := by
  induction names generalizing d with
  | nil => simp [found]
  | cons name names ih =>
    obtain ⟨hname, hnames⟩ := List.forall_mem_cons.mp hnames
    rw [List.foldl_cons, ih hnames, removeSingleFile_eq hunlinks hname, found_cons]
    split
    · rw [← without_append, List.singleton_append]
    · rfl

/-- The loop runs over the oldest names, or over none where the limit is not reached. -/
theorem removeOldest_eq (hunlinks : ∀ p, unlinks p = true) {files : List Str}
    (hfiles : ∀ name ∈ files, name ≠ []) :
    removeOldest kCrashLogPath_ accesses unlinks files d =
      d.without (found kCrashLogPath_ accesses d (oldest files)) := by
  have hoff : ∀ name ∈ oldest files, name ≠ [] := fun name h => hfiles name (mem_of_mem_oldest h)
  unfold removeOldest
  unfold oldest at hoff ⊢
  split
  · next hfull =>
    rw [if_pos hfull] at hoff
    exact foldl_removeSingleFile hunlinks hoff
  · simp [found]

/-- **A clean-up** takes away what `access` finds of the oldest of each kind, and nothing else. -/
theorem clearCrashFiles_eq (hunlinks : ∀ p, unlinks p = true) :
    clearCrashFiles kCrashLogPath_ accesses unlinks d =
      d.without (found kCrashLogPath_ accesses d d.due) := by
  unfold clearCrashFiles
  rw [collect_eq]
  show removeOldest kCrashLogPath_ accesses unlinks (d.files .maps)
    (removeOldest kCrashLogPath_ accesses unlinks (d.files .trace) d) = _
  rw [removeOldest_eq hunlinks fun _ => ne_nil_of_mem_files,
    removeOldest_eq hunlinks fun _ => ne_nil_of_mem_files, ← without_append, due, found_append]

theorem mem_due_of_mem_found {name : Str} (h : name ∈ found kCrashLogPath_ accesses d d.due) :
    name ∈ d.due :=
  (found_sublist d.due).subset h

theorem mem_clearCrashFiles (hunlinks : ∀ p, unlinks p = true) {name : Str} :
    name ∈ (clearCrashFiles kCrashLogPath_ accesses unlinks d).names ↔
      name ∈ d.names ∧ name ∉ found kCrashLogPath_ accesses d d.due := by
  rw [clearCrashFiles_eq hunlinks]
  exact List.mem_filter.trans (and_congr_right fun _ => decide_eq_true_iff)

theorem files_clearCrashFiles (hunlinks : ∀ p, unlinks p = true) (kind : CrashKind) :
    (clearCrashFiles kCrashLogPath_ accesses unlinks d).files kind =
      (d.files kind).filter (· ∉ found kCrashLogPath_ accesses d d.due) := by
  rw [clearCrashFiles_eq hunlinks]
  unfold Directory.files without
  rw [List.filter_filter, List.filter_filter]
  apply List.filter_congr
  intro name _
  exact Bool.and_comm _ _

/-! ## Only the oldest

A name that is not found is passed over, and no other one is taken in its place. So three are
removed exactly if the three oldest are found. -/

/-- What `access` finds of one kind. -/
def foundOf (kCrashLogPath_ : LogPath) (accesses : Directory → Str → Bool) (d : Directory)
    (kind : CrashKind) : List Str :=
  (found kCrashLogPath_ accesses d d.due).filter fun name => strstartswith name kind.start

theorem mem_foundOf {kind : CrashKind} {name : Str} (h : name ∈ d.files kind) :
    name ∈ foundOf kCrashLogPath_ accesses d kind ↔
      name ∈ found kCrashLogPath_ accesses d d.due := by
  refine List.mem_filter.trans ?_
  exact ⟨fun hfound => hfound.1, fun hfound => ⟨hfound, (mem_files.mp h).2⟩⟩

theorem mem_oldest_of_mem_foundOf {kind : CrashKind} {name : Str}
    (h : name ∈ foundOf kCrashLogPath_ accesses d kind) : name ∈ oldest (d.files kind) := by
  obtain ⟨hfound, hstart⟩ := List.mem_filter.mp h
  exact mem_oldest_of_mem_due (mem_due_of_mem_found hfound) hstart

theorem nodup_foundOf (kind : CrashKind) : (foundOf kCrashLogPath_ accesses d kind).Nodup :=
  ((nodup_due d).sublist (found_sublist d.due)).filter _

theorem removed_clearCrashFiles (hunlinks : ∀ p, unlinks p = true) (kind : CrashKind) :
    d.removed (clearCrashFiles kCrashLogPath_ accesses unlinks d) kind =
      (d.files kind).filter (· ∈ foundOf kCrashLogPath_ accesses d kind) := by
  apply List.filter_congr
  intro name hmem
  apply decide_eq_decide.mpr
  rw [mem_foundOf hmem, mem_clearCrashFiles hunlinks, not_and, not_not]
  exact ⟨fun h => h (mem_files.mp hmem).1, fun h _ => h⟩

theorem length_removed (hunlinks : ∀ p, unlinks p = true) (kind : CrashKind) :
    (d.removed (clearCrashFiles kCrashLogPath_ accesses unlinks d) kind).length =
      (foundOf kCrashLogPath_ accesses d kind).length := by
  rw [removed_clearCrashFiles hunlinks]
  exact length_filter_mem (nodup_files d kind) (nodup_foundOf kind)
    fun _ h => mem_of_mem_oldest (mem_oldest_of_mem_foundOf h)

/-- If as many of a kind are found as a clean-up comes to, it's each of them. -/
theorem mem_found_of_length {kind : CrashKind} {name : Str}
    (hlen : (foundOf kCrashLogPath_ accesses d kind).length = (oldest (d.files kind)).length)
    (h : name ∈ oldest (d.files kind)) : name ∈ found kCrashLogPath_ accesses d d.due := by
  have hsub : (foundOf kCrashLogPath_ accesses d kind).Subperm (oldest (d.files kind)) :=
    List.subperm_of_subset (nodup_foundOf kind) fun _ => mem_oldest_of_mem_foundOf
  have hperm := hsub.perm_of_length_le (Nat.le_of_eq hlen.symm)
  exact (List.mem_filter.mp (hperm.mem_iff.mpr h)).1

/-! ### The condition

When each kind that has reached its limit loses its three oldest. All of them have to be found; one
that is not found is left, although newer ones go. -/

/-- `access` finds each of the oldest of a kind at its limit, once those before it are gone. -/
def FindsOldest (kCrashLogPath_ : LogPath) (accesses : Directory → Str → Bool) (d : Directory) :
    Prop :=
  ∀ pre name post, d.due = pre ++ name :: post →
    access kCrashLogPath_ accesses (d.without pre) (kCrashLogPath_.text ++ name) = true

/-- A clean-up adds nothing and leaves every other name alone; of a kind below its limit it removes
nothing; and otherwise it removes three, none of which was written after one that stays. -/
def RemovesOldest (kCrashLogPath_ : LogPath) (accesses : Directory → Str → Bool)
    (unlinks : Str → Bool) (d : Directory) : Prop :=
  (clearCrashFiles kCrashLogPath_ accesses unlinks d).names.Sublist d.names ∧
  (∀ name ∈ d.names, (∀ kind, name ∉ d.files kind) →
    name ∈ (clearCrashFiles kCrashLogPath_ accesses unlinks d).names) ∧
  ∀ kind,
    ((d.files kind).length < ALOG_CRASH_FILE_MAX_NUM →
      d.removed (clearCrashFiles kCrashLogPath_ accesses unlinks d) kind = []) ∧
    (ALOG_CRASH_FILE_MAX_NUM ≤ (d.files kind).length →
      (d.removed (clearCrashFiles kCrashLogPath_ accesses unlinks d) kind).length = 3 ∧
      ∀ old ∈ d.removed (clearCrashFiles kCrashLogPath_ accesses unlinks d) kind,
        ∀ kept ∈ (clearCrashFiles kCrashLogPath_ accesses unlinks d).files kind,
          ∃ t u, old = kind.filename t ∧ kept = kind.filename u ∧ ¬ u.Before t)

/-- Three removed of each kind at its limit: then nothing was missed. -/
theorem findsOldest_of_length (h : ∀ kind, ALOG_CRASH_FILE_MAX_NUM ≤ (d.files kind).length →
    (foundOf kCrashLogPath_ accesses d kind).length = 3) :
    FindsOldest kCrashLogPath_ accesses d := by
  apply found_eq_self_iff.mp
  apply (found_sublist d.due).eq_of_length_le
  apply List.Subperm.length_le
  refine List.subperm_of_subset (nodup_due d) fun name hdue => ?_
  obtain ⟨kind, hold⟩ := mem_due.mp hdue
  by_cases hmany : ALOG_CRASH_FILE_MAX_NUM ≤ (d.files kind).length
  · exact mem_found_of_length ((h kind hmany).trans (length_oldest hmany).symm) hold
  · -- below the limit there is nothing to come to
    rw [oldest_of_lt (Nat.lt_of_not_le hmany)] at hold
    cases hold

/-- And conversely. -/
theorem length_foundOf (hfind : FindsOldest kCrashLogPath_ accesses d) {kind : CrashKind}
    (hmany : ALOG_CRASH_FILE_MAX_NUM ≤ (d.files kind).length) :
    (foundOf kCrashLogPath_ accesses d kind).length = 3 := by
  have hall : found kCrashLogPath_ accesses d d.due = d.due := found_eq_self_iff.mpr hfind
  rw [← length_oldest hmany]
  apply List.Perm.length_eq
  apply (List.perm_ext_iff_of_nodup (nodup_foundOf kind)
    (nodup_oldest (nodup_files d kind))).mpr
  refine fun name => ⟨mem_oldest_of_mem_foundOf, fun hold => ?_⟩
  refine (mem_foundOf (mem_of_mem_oldest hold)).mpr ?_
  rw [hall]
  exact mem_due.mpr ⟨kind, hold⟩

/-- **A clean-up removes the oldest, and only those**, exactly if `access` finds them. -/
theorem clearCrashFiles_removes_oldest_iff (kCrashLogPath_ : LogPath)
    (accesses : Directory → Str → Bool) (unlinks : Str → Bool) (hunlinks : ∀ p, unlinks p = true)
    (d : Directory) (hd : d.Written) :
    RemovesOldest kCrashLogPath_ accesses unlinks d ↔ FindsOldest kCrashLogPath_ accesses d := by
  constructor
  · intro h
    refine findsOldest_of_length fun kind hmany => ?_
    rw [← length_removed hunlinks]
    exact ((h.2.2 kind).2 hmany).1
  · intro h
    have hall : found kCrashLogPath_ accesses d d.due = d.due := found_eq_self_iff.mpr h
    refine ⟨?_, ?_, fun kind => ⟨?_, ?_⟩⟩
    · rw [clearCrashFiles_eq hunlinks]
      exact List.filter_sublist
    · intro name hmem hother
      refine (mem_clearCrashFiles hunlinks).mpr ⟨hmem, fun hfound => ?_⟩
      obtain ⟨kind, hold⟩ := mem_due.mp (mem_due_of_mem_found hfound)
      exact hother kind (mem_of_mem_oldest hold)
    · intro hfew
      apply List.eq_nil_of_length_eq_zero
      rw [length_removed hunlinks]
      apply List.length_eq_zero_iff.mpr
      apply List.eq_nil_iff_forall_not_mem.mpr
      intro name hfound
      have hold := mem_oldest_of_mem_foundOf hfound
      rw [oldest_of_lt hfew] at hold
      cases hold
    · intro hmany
      constructor
      · rw [length_removed hunlinks]
        exact length_foundOf h hmany
      · rw [removed_clearCrashFiles hunlinks, files_clearCrashFiles hunlinks, hall]
        intro old hold kept hkept
        obtain ⟨holdfile, hold⟩ := List.mem_filter.mp hold
        obtain ⟨hkeptfile, hnot⟩ := List.mem_filter.mp hkept
        -- what stays was not due, so the order of the names has it behind what went
        have hkeptold : kept ∉ oldest (d.files kind) :=
          fun hmem => of_decide_eq_true hnot (mem_due.mpr ⟨kind, hmem⟩)
        have hle := le_of_mem_oldest (mem_oldest_of_mem_foundOf (of_decide_eq_true hold))
          hkeptfile hkeptold
        obtain ⟨t, rfl⟩ := hd kind old holdfile
        obtain ⟨u, rfl⟩ := hd kind kept hkeptfile
        refine ⟨t, u, rfl, rfl, fun hbefore => ?_⟩
        exact absurd ((filename_lt_iff kind u t).mpr hbefore) (not_lt_of_ge hle)

end

theorem startswith_filename (kind : CrashKind) (t : Tm) :
    strstartswith (kind.filename t) kind.start = true :=
  List.isPrefixOf_iff_prefix.mpr (List.prefix_append _ _)

/-! ### Six reports

A directory at its limit, once with files that are all there and once with a link that leads nowhere
among them. -/

def root : LogPath where
  text := "/".toList
  absolute := rfl
  ended := rfl

/-- One of the first seconds of 2024. -/
def newYear (n : Nat) : Tm where
  tm_year := 124
  tm_mon := 0
  tm_mday := 1
  tm_hour := 0
  tm_min := 0
  tm_sec := n % 60
  year := by decide
  mon := by decide
  mday := by decide
  hour := by decide
  min := by decide
  sec := by omega

/-- The names of `n` reports, one a second. -/
def reports (kind : CrashKind) (n : Nat) : List Str :=
  (List.range n).map fun sec => kind.filename (newYear sec)

def atLimit : Directory where
  names := "run.log".toList :: reports .maps 1 ++ reports .trace 6
  nodup := by decide

theorem atLimit_written : atLimit.Written := by
  intro kind name hmem
  obtain ⟨hname, hstart⟩ := mem_files.mp hmem
  have hreport : ∀ {kind' : CrashKind} {n : Nat}, name ∈ reports kind' n →
      ∃ t, name = kind.filename t := by
    intro kind' n hmem
    obtain ⟨sec, -, rfl⟩ := List.mem_map.mp hmem
    obtain rfl := kind_eq_of_startswith (startswith_filename kind' (newYear sec)) hstart
    exact ⟨_, rfl⟩
  rcases List.mem_cons.mp hname with rfl | hname
  · cases kind with
    | trace => cases hstart
    | maps => cases hstart
  · rcases List.mem_append.mp hname with hmaps | htrace
    · exact hreport hmaps
    · exact hreport htrace

/-- `access` where one entry is a link that leads nowhere. -/
def dangling (name : Str) (_ : Directory) (filepath : Str) : Bool :=
  root.text ++ name ≠ filepath

/-- The newest report is not what the clean-up asks for. -/
theorem findsOldest_atLimit :
    FindsOldest root (dangling (CrashKind.trace.filename (newYear 5))) atLimit :=
  found_eq_self_iff.mp (by decide)

theorem clearCrashFiles_removes_oldest_atLimit :
    RemovesOldest root (dangling (CrashKind.trace.filename (newYear 5))) (fun _ => true) atLimit :=
  (clearCrashFiles_removes_oldest_iff root _ (fun _ => true) (fun _ => rfl) atLimit
    atLimit_written).mpr findsOldest_atLimit

/-- **Six reports, the oldest a link that leads nowhere**: two are removed, and it stays. -/
theorem clearCrashFiles_keeps_oldest :
    atLimit.Written ∧
    ¬ RemovesOldest root (dangling (CrashKind.trace.filename (newYear 0))) (fun _ => true)
      atLimit := by
  refine ⟨atLimit_written, fun h => ?_⟩
  have hthree := ((h.2.2 .trace).2 (by decide)).1
  rw [length_removed fun _ => rfl] at hthree
  exact absurd hthree (by decide)

end CppDone.CrashHandler
