import CppDone.HttpClient.Cookie
import CppDone.Lib.FileSystem

/-!
# `CheckDirExistOrMake`

The function of `crash_handler.cpp` that is asked for the directory of the crash logs before
anything is written there. It copies the path into a buffer, ends it with a slash, and goes
through the buffer cutting it at each slash: what is in front of the cut is tested, made if it is
missing, and the slash is put back.

`dir` is a pointer, and `sizeof(dir) - 2` is six. The buffer therefore holds the first six bytes
of the path, and what is made are the directories on the way to those. `checkDirExistOrMake_iff`
says for which paths that is enough.

Which mode a new directory gets is left out. An access of the string or of the buffer that is out
of range is `none`.
-/

set_option autoImplicit false

namespace CppDone.CrashHandler

open FileSystem

/-! ## C strings in a buffer

The buffer is a list of bytes of which a C function sees those before the first NUL. -/

def FILE_PATH_MAX_LEN : Nat := 1024

/-- `sizeof` of a pointer. -/
def sizeofPointer : Nat := 8

def strlen (buffer : Str) : Nat := (cstr buffer).length

/-- Copies at most `n` bytes of `src`, and NULs where `src` is shorter. -/
def strncpy (buffer src : Str) (n : Nat) : Str :=
  src.take n ++ List.replicate (n - src.length) '\x00' ++ buffer.drop n

def strcat (buffer src : Str) : Str :=
  cstr buffer ++ src ++ '\x00' :: buffer.drop (strlen buffer + src.length + 1)

/-! ## The function

The loop cuts the buffer at a slash by a NUL, tests and makes what is in front, and puts the slash
back. -/

variable {ν : Type} [DecidableEq ν] (fs : FileSystem ν)

/-- The loop over `dest_dir` from `i`, with `n` turns to go. -/
def makeParents : Disk ν → Str → Nat → Nat → Option (Bool × Disk ν)
  | d, _, _, 0 => some (true, d)
  | d, dest_dir, i, n + 1 => do
    let c ← dest_dir[i]?
    if c = '/' then
      let cut := dest_dir.set i '\x00'
      if fs.access d (cstr cut) then makeParents d (cut.set i '/') (i + 1) n
      else if (fs.mkdir d (cstr cut)).1 then
        makeParents (fs.mkdir d (cstr cut)).2 (cut.set i '/') (i + 1) n
      else some (fs.mkdir d (cstr cut))
    else makeParents d dest_dir (i + 1) n

def checkDirExistOrMake (d : Disk ν) (dir : Str) : Option (Bool × Disk ν) :=
  if fs.access d dir then some (true, d)
  else do
    let dest_dir := strncpy (List.replicate FILE_PATH_MAX_LEN '\x00') dir (sizeofPointer - 2)
    let last ← if dir.length = 0 then none else dir[dir.length - 1]?
    let dest_dir := if last ≠ '/' then strcat dest_dir ['/'] else dest_dir
    makeParents fs d dest_dir 1 (strlen dest_dir - 1)

/-! ## The loop and the ways

Cutting and mending come to nothing, and what is left is a list of paths that are made in their
order. -/

/-- What is in the buffer when the loop begins. -/
def destText (dir : Str) : Str :=
  dir.take 6 ++ if dir.getLast? = some '/' then [] else ['/']

/-- The buffer cut at `i` reads as what is in front of `i`. -/
theorem cstr_set_nul {text rest : Str} (htext : '\x00' ∉ text) {i : Nat} (hi : i < text.length) :
    cstr ((text ++ rest).set i '\x00') = text.take i := by
  have hset : (text ++ rest).set i '\x00' =
      text.take i ++ '\x00' :: (text.drop (i + 1) ++ rest) := by
    rw [List.set_append_left _ _ hi, List.set_eq_take_append_cons_drop, if_pos hi]
    simp
  rw [hset, cstr_append_nul (fun h => htext (List.take_subset _ _ h)) _]

/-- The loop makes the ways of the text in the buffer, and gives the buffer back as it was. -/
theorem makeParents_eq {text rest : Str} (htext : '\x00' ∉ text) (d : Disk ν) {i n : Nat}
    (hn : i + n ≤ text.length) :
    makeParents fs d (text ++ rest) i n = some (fs.makeAll d (waysFrom text i n)) := by
  -- on the bytes that are still to be looked at
  induction n generalizing d i with
  | zero => rfl
  | succ n ih =>
    have hi : i < text.length := by omega
    have hget : (text ++ rest)[i]? = some text[i] := by
      rw [List.getElem?_append_left hi, List.getElem?_eq_getElem hi]
    rw [makeParents, hget, waysFrom_cons, List.getElem?_eq_getElem hi]
    simp only [Option.bind_eq_bind, Option.bind_some, Option.some.injEq]
    by_cases hslash : text[i] = '/'
    -- cutting and putting the slash back leaves the buffer as it was
    · have hback : ((text ++ rest).set i '\x00').set i '/' = text ++ rest := by
        rw [List.set_set, List.set_append_left _ _ hi, ← hslash, List.set_getElem_self]
      rw [if_pos hslash, if_pos hslash, cstr_set_nul htext hi, hback, ih d (by omega),
        ih _ (by omega), List.singleton_append, FileSystem.makeAll]
      split_ifs with ha hm
      · rfl
      · rfl
      · rfl
    · rw [if_neg hslash, if_neg hslash, List.nil_append]
      exact ih d (by omega)

/-- The buffer when the loop begins. -/
theorem dest_dir_eq {dir : Str} (hnul : '\x00' ∉ dir) :
    ∃ rest,
      (let dest_dir := strncpy (List.replicate FILE_PATH_MAX_LEN '\x00') dir (sizeofPointer - 2)
       if dir.getLast? ≠ some '/' then strcat dest_dir ['/'] else dest_dir) =
        destText dir ++ '\x00' :: rest := by
  -- `strncpy` copies six bytes and fills up with zeros
  have hcopy : ∃ rest, strncpy (List.replicate FILE_PATH_MAX_LEN '\x00') dir (sizeofPointer - 2) =
      dir.take 6 ++ '\x00' :: rest := by
    refine ⟨List.replicate (6 - dir.length) '\x00' ++ List.replicate 1017 '\x00', ?_⟩
    have hnuls : List.replicate (6 - dir.length) '\x00' ++ List.replicate 1018 '\x00' =
        '\x00' :: (List.replicate (6 - dir.length) '\x00' ++ List.replicate 1017 '\x00') := by
      rw [List.replicate_append_replicate, List.replicate_append_replicate,
        ← List.replicate_succ]
    rw [← hnuls, strncpy, List.drop_replicate, List.append_assoc]
    rfl
  obtain ⟨rest, hcopy⟩ := hcopy
  have htake : '\x00' ∉ dir.take 6 := fun h => hnul (List.take_subset _ _ h)
  rw [hcopy, destText]
  -- the slash is looked for at the end of the path and put to the end of the buffer
  by_cases hlast : dir.getLast? = some '/'
  · exact ⟨rest, by simp [hlast]⟩
  · refine ⟨(dir.take 6 ++ '\x00' :: rest).drop ((dir.take 6).length + 1 + 1), ?_⟩
    simp only [ne_eq, hlast, not_false_eq_true, if_true, if_false, strcat, strlen,
      cstr_append_nul htake _]
    rfl

/-- The paths that the function makes directories of. -/
def cuts (dir : Str) : List Str := ways (destText dir)

theorem destText_ne_nil {dir : Str} (hne : dir ≠ []) : destText dir ≠ [] := by
  have htake : dir.take 6 ≠ [] := by
    rw [Ne, List.take_eq_nil_iff]
    exact fun h => h.elim (by decide) hne
  exact List.append_ne_nil_of_left_ne_nil htake _

/-- The function is a test and the making of the cuts. -/
theorem checkDirExistOrMake_eq {dir : Str} (hnul : '\x00' ∉ dir) (d : Disk ν) :
    checkDirExistOrMake fs d dir =
      if fs.access d dir then some (true, d)
      else if dir = [] then none else some (fs.makeAll d (cuts dir)) := by
  rw [checkDirExistOrMake]
  by_cases hacc : fs.access d dir = true
  · rw [if_pos hacc, if_pos hacc]
  · rw [if_neg hacc, if_neg hacc]
    -- of an empty path the last byte is in front of the string
    by_cases hne : dir = []
    · subst hne
      rfl
    · have hlen : dir.length ≠ 0 := fun h => hne (List.length_eq_zero_iff.mp h)
      have hlast : dir[dir.length - 1]? = some (dir.getLast hne) := by
        rw [← List.getLast?_eq_getElem?, List.getLast?_eq_getLast_of_ne_nil hne]
      obtain ⟨rest, hdest⟩ := dest_dir_eq hnul
      rw [List.getLast?_eq_getLast_of_ne_nil hne] at hdest
      simp only [ne_eq, Option.some.injEq] at hdest
      have htext : '\x00' ∉ destText dir := by
        rw [destText, List.mem_append, not_or]
        refine ⟨fun h => hnul (List.take_subset _ _ h), ?_⟩
        split <;> decide
      have hpos : 0 < (destText dir).length := List.length_pos_iff.mpr (destText_ne_nil hne)
      simp only [if_neg hlen, if_neg hne, hlast, Option.bind_eq_bind, Option.bind_some, ne_eq]
      rw [hdest, strlen, cstr_append_nul htext _, makeParents_eq fs htext d (by omega)]
      rfl

/-! ## What the answer is worth

The answer is held against the disk: `true` should mean that the directory is there, and `false`
that it could not be made. -/

/-- `q` is `dir`, or one of its parent directories. -/
def IsPrefix (q dir : Str) : Prop := q = dir ∨ q ∈ ways dir

/-- All accesses were in range. The answer `true` means that the directory is there and all its
parents are; `false` means that a `mkdir` failed and that nothing but parts of the path were
made. -/
def Truthful (dir : Str) (outcome : Option (Bool × Disk ν)) : Prop :=
  ∃ result d, outcome = some (result, d) ∧
    (result = true → ∀ q, IsPrefix q dir → fs.IsDirectory d q) ∧
    (result = false →
      (∃ q, (q, false) ∈ d.mkdirs) ∧ ∀ q, (q, true) ∈ d.mkdirs → IsPrefix q dir)

omit [DecidableEq ν] in
/-- A path can be followed if its parents are directories. -/
theorem isDirectory_iff {dir : Str} (hne : dir ≠ []) (d : Disk ν) :
    (∀ q, IsPrefix q dir → fs.IsDirectory d q) ↔
      ∀ q, IsPrefix q dir → d.kind (fs.locate q) = some .directory := by
  constructor
  · intro h q hq
    exact (h q hq).2
  · intro h q hq
    refine ⟨?_, h q hq⟩
    rcases hq with rfl | hq
    · exact ⟨hne, fun p hp => h p (Or.inr hp)⟩
    · exact ⟨ne_nil_of_mem_ways hq, fun p hp => h p (Or.inr (ways_subset hq hp))⟩

/-- All cuts but the last are parents of the directory that was asked for. -/
theorem isPrefix_of_mem_dropLast {dir : Str} (hne : dir ≠ []) {c : Str}
    (hc : c ∈ (cuts dir).dropLast) : IsPrefix c dir := by
  have hin : c ∈ ways (dir.take 6) := by
    rw [cuts, destText] at hc
    by_cases hlast : dir.getLast? = some '/'
    · rw [if_pos hlast, List.append_nil] at hc
      exact List.dropLast_subset _ hc
    · have htake : dir.take 6 ≠ [] := by
        rw [Ne, List.take_eq_nil_iff]
        exact fun h => h.elim (by decide) hne
      rw [if_neg hlast, ways_append_slash htake, List.dropLast_concat] at hc
      exact hc
  exact Or.inr (ways_take_subset dir 6 hin)

/-- **When the answer can be relied on**: the path is not empty, and either it is not there and
one of its cuts cannot be made, or every part of it is a directory already, or nothing as yet and
the place of a cut. -/
theorem checkDirExistOrMake_iff (dir : Str) (hnul : '\x00' ∉ dir) (kind : ν → Option Kind) :
    Truthful fs dir (checkDirExistOrMake fs { kind, mkdirs := [] } dir) ↔
      dir ≠ [] ∧
        (fs.access { kind, mkdirs := [] } dir = false ∧ fs.Refused kind (cuts dir) ∨
          ∀ q, IsPrefix q dir → kind (fs.locate q) = some .directory ∨
            kind (fs.locate q) = none ∧ ∃ c ∈ cuts dir, fs.locate c = fs.locate q) := by
  rw [checkDirExistOrMake_eq fs hnul]
  -- found: nothing is made, so the path must be a directory already
  by_cases hacc : fs.access { kind, mkdirs := [] } dir = true
  · have hboth : fs.Followed { kind, mkdirs := [] } dir ∧ kind (fs.locate dir) ≠ none := by
      simpa [access] using hacc
    obtain ⟨⟨hne, hways⟩, hthere⟩ := hboth
    rw [if_pos hacc, hacc]
    constructor
    · rintro ⟨result, d, heq, htrue, -⟩
      cases heq
      exact ⟨hne, Or.inr fun q hq => Or.inl (htrue rfl q hq).2⟩
    · rintro ⟨-, ⟨habsurd, -⟩ | hparts⟩
      · cases habsurd
      · refine ⟨true, _, rfl, fun _ => (isDirectory_iff fs hne _).mpr ?_, fun h => (by cases h)⟩
        rintro q (rfl | hq)
        · exact (hparts q (Or.inl rfl)).resolve_right fun h => hthere h.1
        · exact hways q hq
  · rw [if_neg hacc, Bool.not_eq_true] at *
    by_cases hne : dir = []
    · rw [if_pos hne]
      constructor
      · rintro ⟨result, d, heq, -⟩
        cases heq
      · exact fun h => absurd hne h.1
    · rw [if_neg hne]
      -- not found: what comes of it is what comes of the cuts
      have hend := fs.makeAll_waysFrom kind (destText dir)
        (Nat.sub_lt (List.length_pos_iff.mpr (destText_ne_nil hne)) Nat.one_pos)
      change fs.Ended kind (cuts dir) (fs.makeAll { kind, mkdirs := [] } (cuts dir)) at hend
      generalize fs.makeAll { kind, mkdirs := [] } (cuts dir) = out at hend ⊢
      -- all cuts were made or there, or one of them was refused
      cases hend with
      | made d all hkind log =>
        constructor
        · rintro ⟨result, d', heq, htrue, -⟩
          cases heq
          refine ⟨hne, Or.inr fun q hq => ?_⟩
          rw [← fs.made_eq_directory, ← hkind]
          exact (htrue rfl q hq).2
        · rintro ⟨-, ⟨-, hrefused⟩ | hparts⟩
          · exact absurd hrefused all
          · refine ⟨true, d, rfl, fun _ => (isDirectory_iff fs hne d).mpr ?_, fun h => (by cases h)⟩
            intro q hq
            rw [hkind, fs.made_eq_directory]
            exact hparts q hq
      | failed d refused some_failed log =>
        refine ⟨fun _ => ⟨hne, Or.inl ⟨hacc, refused⟩⟩, fun _ => ?_⟩
        refine ⟨false, d, rfl, fun h => (by cases h), fun _ => ⟨some_failed, ?_⟩⟩
        exact fun q hq => isPrefix_of_mem_dropLast hne (log q hq)

/-- A disk without links on which every `mkdir` is granted. -/
def plain : FileSystem Str where
  locate p := p
  grants _ := true

theorem checkDirExistOrMake_iff_logs :
    Truthful plain "/logs".toList
      (checkDirExistOrMake plain { kind := fun _ => none, mkdirs := [] } "/logs".toList) := by
  refine (checkDirExistOrMake_iff plain "/logs".toList (by decide) fun _ => none).mpr
    ⟨by decide, Or.inr ?_⟩
  rintro q (rfl | hq)
  · exact Or.inr ⟨rfl, "/logs".toList, by decide, rfl⟩
  · exact absurd hq (List.not_mem_nil)

/-- `/var/log` is there. -/
def varLog (p : Str) : Option Kind :=
  if p = "/var".toList ∨ p = "/var/log".toList then some .directory else none

/-- The answer for `/var/log/crash` is `true`, and what has been made is `/var/l`. -/
theorem crash_not_made :
    ¬ Truthful plain "/var/log/crash".toList
      (checkDirExistOrMake plain { kind := varLog, mkdirs := [] } "/var/log/crash".toList) := by
  rintro ⟨result, d, heq, htrue, -⟩
  rw [checkDirExistOrMake_eq plain (by decide), if_neg (by decide), if_neg (by decide),
    Option.some.injEq] at heq
  have hresult : (plain.makeAll { kind := varLog, mkdirs := [] }
      (cuts "/var/log/crash".toList)).1 = true := by decide
  have hmissing : ¬ plain.IsDirectory (plain.makeAll { kind := varLog, mkdirs := [] }
      (cuts "/var/log/crash".toList)).2 "/var/log/crash".toList := by decide
  rw [heq] at hresult hmissing
  exact hmissing (htrue hresult _ (Or.inl rfl))

end CppDone.CrashHandler
