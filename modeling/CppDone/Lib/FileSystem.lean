import Mathlib.Data.List.Basic
import Mathlib.Logic.Function.Basic

/-!
# Paths and directories

As much of a file system as `access` and `mkdir` show of it. Where a path leads is a function of
the path alone (`locate`): names, links and dots are all in it, and two paths may lead to one
place. What is there, a directory, a file or nothing, is the state. A path can be followed when
every prefix of it that ends before a slash, its `ways`, leads to a directory.

`mkdir` wants nothing at the place it is to make, and may be refused for reasons that are not
modelled (`grants`). The disk keeps a record of its calls.

`makeAll` is what is usually wanted of a list of paths, that all of them be there. For the ways of
one path, in their order, `makeAll_waysFrom` says what comes of it from the disk at the beginning.
-/

set_option autoImplicit false

namespace CppDone

abbrev Path := List Char

/-- What `access` and `mkdir` tell apart: something is there, and it may be a directory. -/
inductive Kind where
  | directory
  | file
deriving DecidableEq, Repr

/-- Where a path leads and which directories may be made, as long as nothing else changes. -/
structure FileSystem (ν : Type) where
  locate : Path → ν
  grants : Path → Bool

/-- What is where, and a record of the calls of `mkdir`. -/
structure Disk (ν : Type) where
  kind : ν → Option Kind
  mkdirs : List (Path × Bool)

/-- The prefixes of a path that end before a slash, with that slash at one of the places from `i`
to `i + n - 1`. -/
def waysFrom (p : Path) (i n : Nat) : List Path :=
  (List.range' i n).flatMap fun j => if p[j]? = some '/' then [p.take j] else []

/-- The directories on the way to `p`. -/
def ways (p : Path) : List Path := waysFrom p 1 (p.length - 1)

namespace FileSystem

variable {ν : Type} [DecidableEq ν] (fs : FileSystem ν)

/-- All the directories on the way are there. -/
def Followed (d : Disk ν) (p : Path) : Prop :=
  p ≠ [] ∧ ∀ q ∈ ways p, d.kind (fs.locate q) = some .directory

instance (d : Disk ν) (p : Path) : Decidable (fs.Followed d p) :=
  inferInstanceAs (Decidable (_ ∧ _))

/-- `access(p, F_OK) == 0`. -/
def access (d : Disk ν) (p : Path) : Bool := fs.Followed d p ∧ d.kind (fs.locate p) ≠ none

def IsDirectory (d : Disk ν) (p : Path) : Prop :=
  fs.Followed d p ∧ d.kind (fs.locate p) = some .directory

instance (d : Disk ν) (p : Path) : Decidable (fs.IsDirectory d p) :=
  inferInstanceAs (Decidable (_ ∧ _))

/-- `mkdir(p) == 0`, and the disk then. -/
def mkdir (d : Disk ν) (p : Path) : Bool × Disk ν :=
  if fs.Followed d p ∧ d.kind (fs.locate p) = none ∧ fs.grants p = true then
    (true, { kind := Function.update d.kind (fs.locate p) (some .directory),
             mkdirs := d.mkdirs ++ [(p, true)] })
  else (false, { d with mkdirs := d.mkdirs ++ [(p, false)] })

/-- Make what is missing of a list of paths, up to the first failure. -/
def makeAll : Disk ν → List Path → Bool × Disk ν
  | d, [] => (true, d)
  | d, p :: ps =>
    if fs.access d p then makeAll d ps
    else if (fs.mkdir d p).1 then makeAll (fs.mkdir d p).2 ps
    else fs.mkdir d p

/-! ## Ways

The parents of a path are those of its prefixes that end before a slash. Of a prefix they are the
first ones. -/

theorem waysFrom_succ (p : Path) (i n : Nat) :
    waysFrom p i (n + 1) =
      waysFrom p i n ++ if p[i + n]? = some '/' then [p.take (i + n)] else [] := by
  simp only [waysFrom, List.range'_1_concat, List.flatMap_append, List.flatMap_singleton]

theorem waysFrom_cons (p : Path) (i n : Nat) :
    waysFrom p i (n + 1) =
      (if p[i]? = some '/' then [p.take i] else []) ++ waysFrom p (i + 1) n := by
  simp only [waysFrom, List.range'_succ, List.flatMap_cons]

/-- The ways of a prefix are the first ways of the path. -/
theorem ways_take {p : Path} {i : Nat} (hi : i ≤ p.length) :
    ways (p.take i) = waysFrom p 1 (i - 1) := by
  rw [ways, List.length_take, Nat.min_eq_left hi, waysFrom, waysFrom]
  refine List.flatMap_congr ?_
  intro j hj
  have hlt : j < i := by
    have := List.mem_range'_1.mp hj
    omega
  rw [List.getElem?_take_of_lt hlt, List.take_take, Nat.min_eq_left (Nat.le_of_lt hlt)]

theorem mem_waysFrom {p c : Path} {i n : Nat} :
    c ∈ waysFrom p i n ↔ ∃ j, i ≤ j ∧ j < i + n ∧ p[j]? = some '/' ∧ c = p.take j := by
  simp only [waysFrom, List.mem_flatMap, List.mem_range'_1]
  constructor
  · rintro ⟨j, hj, hc⟩
    split_ifs at hc with hslash
    · exact ⟨j, hj.1, hj.2, hslash, List.mem_singleton.mp hc⟩
    · cases hc
  · rintro ⟨j, hij, hjn, hslash, rfl⟩
    exact ⟨j, ⟨hij, hjn⟩, by rw [if_pos hslash]; exact List.mem_singleton_self _⟩

theorem ne_nil_of_mem_ways {p c : Path} (h : c ∈ ways p) : c ≠ [] := by
  obtain ⟨j, hj, -, hslash, rfl⟩ := mem_waysFrom.mp h
  rw [Ne, List.take_eq_nil_iff]
  rintro (rfl | rfl)
  · exact absurd hj (by decide)
  · cases hslash

/-- What is on the way to a prefix is on the way to the path. -/
theorem ways_take_subset (p : Path) (i : Nat) : ways (p.take i) ⊆ ways p := by
  intro c hc
  obtain ⟨j, hj, hji, hslash, rfl⟩ := mem_waysFrom.mp hc
  rw [List.length_take] at hji
  have hlt : j < i := by omega
  rw [List.getElem?_take_of_lt hlt] at hslash
  rw [List.take_take, Nat.min_eq_left (Nat.le_of_lt hlt)]
  exact mem_waysFrom.mpr ⟨j, hj, by omega, hslash, rfl⟩

theorem ways_subset {p c : Path} (hc : c ∈ ways p) : ways c ⊆ ways p := by
  obtain ⟨j, -, -, -, rfl⟩ := mem_waysFrom.mp hc
  exact ways_take_subset p j

/-- A path ended by a slash has itself on its way. -/
theorem ways_append_slash {p : Path} (hp : p ≠ []) : ways (p ++ ['/']) = ways p ++ [p] := by
  have hlen : 0 < p.length := List.length_pos_iff.mpr hp
  have hwhole : (p ++ ['/']).take p.length = p := List.take_left
  have hlast : (p ++ ['/'])[1 + (p.length - 1)]? = some '/' := by
    rw [Nat.add_sub_cancel' hlen]
    simp
  have hn : (p ++ ['/']).length - 1 = (p.length - 1) + 1 := by
    rw [List.length_append, List.length_singleton]
    omega
  have hbefore : ways p = waysFrom (p ++ ['/']) 1 (p.length - 1) := by
    rw [← ways_take (by simp), hwhole]
  rw [ways, hn, waysFrom_succ, if_pos hlast, Nat.add_sub_cancel' hlen, hwhole, hbefore]

/-! ## Making the ways of a path

A path can be made when its parents are there, and these are made before it. So the list is gone
through from the front, and the first failure ends it. -/

theorem makeAll_append (d : Disk ν) (ps qs : List Path) :
    fs.makeAll d (ps ++ qs) =
      if (fs.makeAll d ps).1 then fs.makeAll (fs.makeAll d ps).2 qs else fs.makeAll d ps := by
  induction ps generalizing d with
  | nil => rfl
  | cons p ps ih =>
    rw [List.cons_append, makeAll, makeAll]
    by_cases ha : fs.access d p = true
    · rw [if_pos ha, if_pos ha]
      exact ih d
    · rw [if_neg ha, if_neg ha]
      by_cases hm : (fs.mkdir d p).1 = true
      · rw [if_pos hm, if_pos hm]
        exact ih (fs.mkdir d p).2
      · rw [if_neg hm, if_neg hm, if_neg hm]

/-! ### What is there afterwards

Behind a run over the ways of a path, each of them is a directory or the run has stopped. What was
there before is there still. -/

/-- What is where, once the places of `cs` are no longer empty. -/
def made (kind : ν → Option Kind) (cs : List Path) (n : ν) : Option Kind :=
  if kind n = none ∧ ∃ c ∈ cs, fs.locate c = n then some .directory else kind n

/-- One of `cs` cannot be made, in a file system with `kind` at the beginning: an earlier one is
a file, or nothing is there and `mkdir` is refused. -/
def Refused (kind : ν → Option Kind) (cs : List Path) : Prop :=
  ∃ pre c post, cs = pre ++ c :: post ∧
    ((∃ q ∈ pre, kind (fs.locate q) = some .file) ∨
      kind (fs.locate c) = none ∧ (∀ q ∈ pre, fs.locate q ≠ fs.locate c) ∧ fs.grants c = false)

omit [DecidableEq ν] in
theorem refused_concat {kind : ν → Option Kind} {cs : List Path} {c : Path} :
    fs.Refused kind (cs ++ [c]) ↔ fs.Refused kind cs ∨
      ((∃ q ∈ cs, kind (fs.locate q) = some .file) ∨
        kind (fs.locate c) = none ∧ (∀ q ∈ cs, fs.locate q ≠ fs.locate c) ∧
          fs.grants c = false) := by
  constructor
  · rintro ⟨pre, p, post, heq, hwhy⟩
    rcases List.eq_nil_or_concat post with rfl | ⟨post, z, rfl⟩
    · obtain ⟨rfl, hlast⟩ := List.append_inj' heq rfl
      obtain rfl : c = p := by simpa using hlast
      exact Or.inr hwhy
    · rw [List.concat_eq_append, ← List.cons_append, ← List.append_assoc] at heq
      obtain ⟨rfl, -⟩ := List.append_inj' heq rfl
      exact Or.inl ⟨pre, p, post, rfl, hwhy⟩
  · rintro (⟨pre, p, post, rfl, hwhy⟩ | hwhy)
    · exact ⟨pre, p, post ++ [c], by rw [List.append_assoc]; rfl, hwhy⟩
    · exact ⟨cs, c, [], rfl, hwhy⟩

theorem made_eq_none {kind : ν → Option Kind} {cs : List Path} {n : ν} :
    fs.made kind cs n = none ↔ kind n = none ∧ ∀ c ∈ cs, fs.locate c ≠ n := by
  rw [made]
  split_ifs with h
  · obtain ⟨hnone, c, hc, hat⟩ := h
    exact ⟨nofun, fun hno => absurd hat (hno.2 c hc)⟩
  · constructor
    · intro hnone
      exact ⟨hnone, fun c hc hat => h ⟨hnone, c, hc, hat⟩⟩
    · exact And.left

/-- A place of `cs` that was no file is a directory then. -/
theorem made_of_mem {kind : ν → Option Kind} {cs : List Path} {c : Path} (hc : c ∈ cs) :
    fs.made kind cs (fs.locate c) = some .directory ↔ kind (fs.locate c) ≠ some .file := by
  rw [made]
  split_ifs with h
  · rw [h.1]
    simp
  · cases hk : kind (fs.locate c) with
    | none => exact absurd ⟨hk, c, hc, rfl⟩ h
    | some k =>
      cases k with
      | directory => simp
      | file => simp

theorem made_eq_directory {kind : ν → Option Kind} {cs : List Path} {n : ν} :
    fs.made kind cs n = some .directory ↔
      kind n = some .directory ∨ kind n = none ∧ ∃ c ∈ cs, fs.locate c = n := by
  rw [made]
  split_ifs with h
  · simp [h]
  · exact (or_iff_left h).symm

/-- A place that is no longer empty is not made once more. -/
theorem made_concat_of_ne {kind : ν → Option Kind} {cs : List Path} {c : Path}
    (h : fs.made kind cs (fs.locate c) ≠ none) : fs.made kind (cs ++ [c]) = fs.made kind cs := by
  funext n
  have hold : kind n = none → fs.locate c = n → ∃ q ∈ cs, fs.locate q = n := by
    rintro hnone rfl
    by_contra hno
    exact h ((fs.made_eq_none).mpr ⟨hnone, fun q hq hat => hno ⟨q, hq, hat⟩⟩)
  have hiff : (kind n = none ∧ ∃ q ∈ cs ++ [c], fs.locate q = n) ↔
      kind n = none ∧ ∃ q ∈ cs, fs.locate q = n := by
    refine and_congr_right fun hnone => ?_
    constructor
    · rintro ⟨q, hq, hat⟩
      rcases List.mem_append.mp hq with hq | hq
      · exact ⟨q, hq, hat⟩
      · exact hold hnone (List.mem_singleton.mp hq ▸ hat)
    · rintro ⟨q, hq, hat⟩
      exact ⟨q, List.mem_append_left _ hq, hat⟩
  simp only [made, hiff]

theorem made_concat_of_none {kind : ν → Option Kind} {cs : List Path} {c : Path}
    (h : kind (fs.locate c) = none) :
    fs.made kind (cs ++ [c]) =
      Function.update (fs.made kind cs) (fs.locate c) (some .directory) := by
  funext n
  by_cases hn : n = fs.locate c
  · subst hn
    rw [Function.update_self, made, if_pos ⟨h, c, by simp, rfl⟩]
  · have hother : ¬ fs.locate c = n := fun heq => hn heq.symm
    rw [Function.update_of_ne hn]
    simp only [made, List.mem_append, List.mem_singleton, or_and_right, exists_or, exists_eq_left,
      hother, or_false]

/-- How `makeAll` ended, in terms of the disk at the beginning. -/
inductive Ended (kind : ν → Option Kind) (cs : List Path) : Bool × Disk ν → Prop where
  | made (d : Disk ν) (all : ¬ fs.Refused kind cs) (hkind : d.kind = fs.made kind cs)
      (log : ∀ q, (q, true) ∈ d.mkdirs → q ∈ cs) : Ended kind cs (true, d)
  | failed (d : Disk ν) (refused : fs.Refused kind cs) (some_failed : ∃ q, (q, false) ∈ d.mkdirs)
      (log : ∀ q, (q, true) ∈ d.mkdirs → q ∈ cs.dropLast) : Ended kind cs (false, d)

variable {fs}

/-- One more path, whose ways are what has been made before it. -/
theorem ended_concat {kind : ν → Option Kind} {cs : List Path} {c : Path} {d : Disk ν}
    (all : ¬ fs.Refused kind cs) (hkind : d.kind = fs.made kind cs)
    (log : ∀ q, (q, true) ∈ d.mkdirs → q ∈ cs) (hc : c ≠ []) (hways : ways c = cs) :
    fs.Ended kind (cs ++ [c]) (fs.makeAll d [c]) := by
  have hfollowed : fs.Followed d c ↔ ∀ q ∈ cs, kind (fs.locate q) ≠ some .file := by
    rw [Followed, hways, hkind]
    constructor
    · intro h q hq
      exact (fs.made_of_mem hq).mp (h.2 q hq)
    · intro h
      exact ⟨hc, fun q hq => (fs.made_of_mem hq).mpr (h q hq)⟩
  have hfailed : fs.mkdir d c = (false, { d with mkdirs := d.mkdirs ++ [(c, false)] }) →
      fs.Refused kind (cs ++ [c]) → fs.access d c = false →
      fs.Ended kind (cs ++ [c]) (fs.makeAll d [c]) := by
    intro hm hrefused ha
    rw [makeAll, ha, hm]
    refine .failed _ hrefused ⟨c, by simp⟩ ?_
    intro q hq
    rw [List.dropLast_concat]
    exact log q (by simpa using hq)
  by_cases hfile : ∃ q ∈ cs, kind (fs.locate q) = some .file
  · have hno : ¬ fs.Followed d c := by
      rw [hfollowed]
      obtain ⟨q, hq, hf⟩ := hfile
      exact fun h => h q hq hf
    refine hfailed ?_ (fs.refused_concat.mpr (Or.inr (Or.inl hfile))) ?_
    · simp [mkdir, hno]
    · simp [access, hno]
  · have hyes : fs.Followed d c := hfollowed.mpr fun q hq hf => hfile ⟨q, hq, hf⟩
    by_cases hnone : fs.made kind cs (fs.locate c) = none
    · obtain ⟨hempty, hfresh⟩ := fs.made_eq_none.mp hnone
      cases hgrants : fs.grants c with
      | true =>
        have hall : ¬ fs.Refused kind (cs ++ [c]) := by
          rw [refused_concat, hgrants]
          simp [all, hfile]
        have hmk : fs.makeAll d [c] =
            (true, { kind := Function.update d.kind (fs.locate c) (some .directory),
                     mkdirs := d.mkdirs ++ [(c, true)] }) := by
          simp [makeAll, access, mkdir, hyes, hkind, hnone, hgrants]
        rw [hmk]
        refine .made _ hall (by rw [fs.made_concat_of_none hempty, hkind]) ?_
        intro q hq
        simp only [List.mem_append, List.mem_singleton, Prod.mk.injEq, and_true] at hq
        exact List.mem_append.mpr (hq.imp (log q) List.mem_singleton.mpr)
      | false =>
        refine hfailed ?_ (fs.refused_concat.mpr (Or.inr (Or.inr ⟨hempty, hfresh, hgrants⟩))) ?_
        · simp [mkdir, hgrants]
        · simp [access, hkind, hnone]
    · have hall : ¬ fs.Refused kind (cs ++ [c]) := by
        rw [refused_concat]
        rintro (h | h | ⟨hempty, hfresh, -⟩)
        · exact all h
        · exact hfile h
        · exact hnone (fs.made_eq_none.mpr ⟨hempty, hfresh⟩)
      have hmk : fs.makeAll d [c] = (true, d) := by
        simp [makeAll, access, hyes, hkind, hnone]
      rw [hmk]
      refine .made _ hall (by rw [fs.made_concat_of_ne hnone, hkind]) ?_
      exact fun q hq => List.mem_append_left _ (log q hq)

variable (fs)

/-- **The ways of a path, made in their order**: either all of them are there in the end and
nothing else is new, or one could not be made, and what was made came before it. -/
theorem makeAll_waysFrom (kind : ν → Option Kind) (p : Path) {n : Nat} (hn : n < p.length) :
    fs.Ended kind (waysFrom p 1 n) (fs.makeAll { kind, mkdirs := [] } (waysFrom p 1 n)) := by
  induction n with
  | zero =>
    refine .made _ ?_ ?_ nofun
    · rintro ⟨pre, c, post, heq, -⟩
      exact List.append_ne_nil_of_right_ne_nil pre (List.cons_ne_nil c post) heq.symm
    · funext m
      exact (if_neg (by simp [waysFrom])).symm
  | succ n ih =>
    have ih := ih (by omega)
    rw [waysFrom_succ]
    by_cases hslash : p[1 + n]? = some '/'
    · have hc : p.take (1 + n) ≠ [] := by
        rw [Ne, List.take_eq_nil_iff]
        rintro (h | h)
        · omega
        · rw [h] at hn
          exact Nat.not_lt_zero _ hn
      have hways : ways (p.take (1 + n)) = waysFrom p 1 n := by
        rw [ways_take (by omega), Nat.add_sub_cancel_left]
      rw [if_pos hslash, makeAll_append]
      generalize hend : fs.makeAll { kind, mkdirs := [] } (waysFrom p 1 n) = out at ih ⊢
      cases ih with
      | made d all hkind log => exact ended_concat all hkind log hc hways
      | failed d refused some_failed log =>
        refine .failed d (fs.refused_concat.mpr (Or.inl refused)) some_failed ?_
        intro q hq
        rw [List.dropLast_concat]
        exact List.dropLast_subset _ (log q hq)
    · rw [if_neg hslash, List.append_nil]
      exact ih

end FileSystem

end CppDone
