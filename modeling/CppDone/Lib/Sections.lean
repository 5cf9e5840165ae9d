import CppDone.Lib.Progress
import CppDone.Lib.SharedMutex
import CppDone.Lib.Simulation

/-!
# Locked sections are atomic

Parties share resources, each with a mutex of its own, and every access to a resource is inside a
section that holds its mutex. `locking` takes the accesses one at a time: a party locks, makes one
access after the other, and unlocks. `atomic` does a section as a whole. The second follows the
first (`locking_follows`), a section being seen when it unlocks.

What a party has under way is compared with the value that its resource had before: what is left
of the section there comes to what the whole of it would have come to. Nobody else has written
meanwhile, since the mutex keeps a writer alone and a section that shares it does not write.

No section is entered from inside another one. So whoever is inside gets out by itself, and
whoever waits is served after those that are inside (`served`).

That a section ends is asked of it: every access makes what is left smaller (`size_access`). Who
holds a mutex can be read off from where the parties are, and the mutex itself is only a count of
them.
-/

set_option autoImplicit false

namespace CppDone

/-- The code inside the sections, one access at a time. `L` is what a party has at hand, `S` a
resource. `whole` is what the rest of a section comes to if nobody disturbs it, and the laws say
that the accesses add up to it. -/
structure SectionCode (L S : Type) where
  shared : L → Bool
  access : L → S → Option (L × S)  -- `none`: at the end
  whole : L → S → L × S
  size : L → S → Nat
  whole_access : ∀ {l s l' s'}, access l s = some (l', s') → whole l s = whole l' s'
  whole_end : ∀ {l s}, access l s = none → whole l s = (l, s)
  size_access : ∀ {l s l' s'}, access l s = some (l', s') → size l' s' < size l s
  shared_access : ∀ {l s l' s'}, shared l = true → access l s = some (l', s') →
    s' = s ∧ shared l' = true

/-- What the parties do outside, in a state of type `σ`, and which section a party comes to. A party
that has come to a section still comes to it whatever the other parties do: this is what the last
two fields are for. -/
structure Sections (C ι L S σ α : Type) extends SectionCode L S where
  next : σ → C → Option (ι × L)
  finish : σ → C → L → σ
  other : σ → α → Option σ
  next_other : ∀ {x x' a c n}, other x a = some x' → next x c = some n → next x' c = some n
  next_finish : ∀ {x c d l n}, d ≠ c → next x d = some n → next (finish x c l) d = some n

/-- A party inside a section. In which resource it is, how it has locked it, and how far it has
come. -/
structure Hold (ι L : Type) where
  res : ι
  shared : Bool
  loc : L

/-- What is outside, the resources with their mutexes, and the parties that are inside. -/
structure Locking (C ι L S σ : Type) where
  outer : σ
  mem : ι → S
  mutex : ι → SharedMutex
  inside : C → Option (Hold ι L)

/-- Who comes next, with a lock, an access or an unlock if it is about a section. -/
inductive LockAction (C α : Type) where
  | other (a : α)
  | lock (c : C)
  | access (c : C)
  | unlock (c : C)
deriving DecidableEq, Repr

/-- What is seen of it when sections are atomic: a section at its end. -/
def LockAction.seen {C α : Type} : LockAction C α → Option (α ⊕ C)
  | .other a => some (.inl a)
  | .unlock c => some (.inr c)
  | .lock _ | .access _ => none

namespace Sections

variable {C ι L S σ α : Type} [DecidableEq C] [DecidableEq ι] (M : Sections C ι L S σ α)

def atomicStep (t : σ × (ι → S)) : α ⊕ C → Option (σ × (ι → S))
  | .inl a => (M.other t.1 a).map fun x => (x, t.2)
  | .inr c =>
    match M.next t.1 c with
    | some (i, l) =>
      let r := M.whole l (t.2 i)
      some (M.finish t.1 c r.1, Function.update t.2 i r.2)
    | none => none

def atomic (x : σ) (mem : ι → S) : Machine (σ × (ι → S)) (α ⊕ C) where
  init := (x, mem)
  step := M.atomicStep

def enter (s : Locking C ι L S σ) (c : C) : Option (Locking C ι L S σ) :=
  match s.inside c, M.next s.outer c with
  | none, some (i, l) =>
    ((s.mutex i).acquire (M.shared l)).map fun m =>
      { s with
        mutex := Function.update s.mutex i m
        inside := Function.update s.inside c (some { res := i, shared := M.shared l, loc := l }) }
  | _, _ => none

def go (s : Locking C ι L S σ) (c : C) : Option (Locking C ι L S σ) :=
  match s.inside c with
  | some h =>
    (M.access h.loc (s.mem h.res)).map fun r =>
      { s with
        mem := Function.update s.mem h.res r.2
        inside := Function.update s.inside c (some { h with loc := r.1 }) }
  | none => none

def leave (s : Locking C ι L S σ) (c : C) : Option (Locking C ι L S σ) :=
  match s.inside c with
  | some h =>
    match M.access h.loc (s.mem h.res) with
    | none => some
      { s with
        outer := M.finish s.outer c h.loc
        mutex := Function.update s.mutex h.res ((s.mutex h.res).release h.shared)
        inside := Function.update s.inside c none }
    | some _ => none
  | none => none

def lockStep (s : Locking C ι L S σ) : LockAction C α → Option (Locking C ι L S σ)
  | .other a => (M.other s.outer a).map fun x => { s with outer := x }
  | .lock c => M.enter s c
  | .access c => M.go s c
  | .unlock c => M.leave s c

def locking (x : σ) (mem : ι → S) : Machine (Locking C ι L S σ) (LockAction C α) where
  init := { outer := x, mem := mem, mutex := fun _ => .free, inside := fun _ => none }
  step := M.lockStep

end Sections

/-! ## What the steps do

A party enters a section, makes an access, or leaves; each has its guard. -/

section Steps

variable {C ι L S σ α : Type} [DecidableEq C] [DecidableEq ι] {M : Sections C ι L S σ α}
  {s s' : Locking C ι L S σ} {c : C}

/-- The next section is there, and its lock could be had. -/
theorem Sections.enter_cases (h : M.enter s c = some s') :
    ∃ i l m, s.inside c = none ∧ M.next s.outer c = some (i, l) ∧
      (s.mutex i).acquire (M.shared l) = some m ∧
      s' = { s with
        mutex := Function.update s.mutex i m
        inside := Function.update s.inside c
          (some { res := i, shared := M.shared l, loc := l }) } := by
  unfold Sections.enter at h
  split at h
  · next i l hin hnext =>
    obtain ⟨m, hm, rfl⟩ := Option.map_eq_some_iff.mp h
    exact ⟨i, l, m, hin, hnext, hm, rfl⟩
  · cases h

/-- One access to the resource that the section is in. -/
theorem Sections.go_cases (h : M.go s c = some s') :
    ∃ q l v, s.inside c = some q ∧
      M.access q.loc (s.mem q.res) = some (l, v) ∧
      s' = { s with
        mem := Function.update s.mem q.res v
        inside := Function.update s.inside c (some { q with loc := l }) } := by
  unfold Sections.go at h
  split at h
  · next q hin =>
    obtain ⟨⟨l, v⟩, hr, rfl⟩ := Option.map_eq_some_iff.mp h
    exact ⟨q, l, v, hin, hr, rfl⟩
  · cases h

/-- There is no access left, so the lock is given back and the section's value is handed over. -/
theorem Sections.leave_cases (h : M.leave s c = some s') :
    ∃ q, s.inside c = some q ∧ M.access q.loc (s.mem q.res) = none ∧
      s' = { s with
        outer := M.finish s.outer c q.loc
        mutex := Function.update s.mutex q.res ((s.mutex q.res).release q.shared)
        inside := Function.update s.inside c none } := by
  unfold Sections.leave at h
  split at h
  · next q hin =>
    split at h
    · next hend => exact ⟨q, hin, hend, (Option.some.inj h).symm⟩
    · cases h
  · cases h

end Steps

/-! ## Who holds which mutex

The mutexes say how many, the parties say who. Both are kept in step. -/

section Mode

variable {C ι L S σ : Type} [DecidableEq ι] {s s' : Locking C ι L S σ} {c : C} {i : ι}

/-- How party `c` holds the mutex of resource `i`. -/
def Locking.mode (s : Locking C ι L S σ) (i : ι) (c : C) : Option Bool :=
  match s.inside c with
  | some q => if q.res = i then some q.shared else none
  | none => none

theorem mode_inside {q : Hold ι L} (h : s.inside c = some q) :
    s.mode q.res c = some q.shared := by
  unfold Locking.mode
  rw [h]
  exact if_pos rfl

theorem mode_elsewhere {q : Hold ι L} (h : s.inside c = some q) (hne : q.res ≠ i) :
    s.mode i c = none := by
  unfold Locking.mode
  rw [h]
  exact if_neg hne

theorem mode_outside (h : s.inside c = none) : s.mode i c = none := by
  unfold Locking.mode
  rw [h]

variable [DecidableEq C]

theorem mode_other {o : Option (Hold ι L)} {d : C}
    (hs : s'.inside = Function.update s.inside c o) (hne : d ≠ c) : s'.mode i d = s.mode i d := by
  unfold Locking.mode
  rw [hs, Function.update_of_ne hne]

/-- Party `c` comes to be inside or outside of `i`, having been outside or inside. -/
theorem mode_update {o : Option (Hold ι L)} (hs : s'.inside = Function.update s.inside c o) :
    s'.mode i = Function.update (s.mode i) c (s'.mode i c) := by
  funext d
  by_cases hdc : d = c
  · rw [hdc, Function.update_self]
  · rw [Function.update_of_ne hdc, mode_other hs hdc]

/-- Every mutex is held by those that are inside. -/
def AllHeld (s : Locking C ι L S σ) : Prop := ∀ i, (s.mutex i).Held (s.mode i)

/-- The lock of one resource has a holder more, and it is the party that goes in. -/
theorem AllHeld.enter (h : AllHeld s) {q : Hold ι L} {m : SharedMutex} (hout : s.inside c = none)
    (hm : (s.mutex q.res).acquire q.shared = some m)
    (hin : s'.inside = Function.update s.inside c (some q))
    (hmutex : s'.mutex = Function.update s.mutex q.res m) : AllHeld s' := by
  intro i
  have hself : s'.inside c = some q := by
    rw [hin, Function.update_self]
  rw [mode_update hin, hmutex]
  by_cases hi : i = q.res
  · subst hi
    rw [Function.update_self, mode_inside hself]
    exact (h q.res).acquire (mode_outside hout) hm
  · rw [Function.update_of_ne hi, mode_elsewhere hself (Ne.symm hi), ← mode_outside hout,
      Function.update_eq_self]
    exact h i

/-- Between two accesses the party keeps its lock, in the same mode. -/
theorem AllHeld.go (h : AllHeld s) {q p : Hold ι L} (hq : s.inside c = some q)
    (hres : p.res = q.res) (hshared : p.shared = q.shared)
    (hin : s'.inside = Function.update s.inside c (some p)) (hmutex : s'.mutex = s.mutex) :
    AllHeld s' := by
  intro i
  have hself : s'.inside c = some p := by
    rw [hin, Function.update_self]
  have hmode : s'.mode i c = s.mode i c := by
    by_cases hi : q.res = i
    · subst hi
      rw [mode_inside hq, ← hshared, ← hres, mode_inside hself]
    · rw [mode_elsewhere hq hi, mode_elsewhere hself (hres ▸ hi)]
  rw [mode_update hin, hmode, Function.update_eq_self, hmutex]
  exact h i

/-- The party gives back the lock that it has. -/
theorem AllHeld.leave (h : AllHeld s) {q : Hold ι L} (hq : s.inside c = some q)
    (hin : s'.inside = Function.update s.inside c none)
    (hmutex : s'.mutex = Function.update s.mutex q.res ((s.mutex q.res).release q.shared)) :
    AllHeld s' := by
  intro i
  have hself : s'.inside c = none := by
    rw [hin, Function.update_self]
  rw [mode_update hin, hmutex, mode_outside hself]
  by_cases hi : i = q.res
  · subst hi
    rw [Function.update_self]
    exact (h q.res).release (mode_inside hq)
  · rw [Function.update_of_ne hi, ← mode_elsewhere hq (Ne.symm hi), Function.update_eq_self]
    exact h i

end Mode

/-! ## The atomic machine follows

The atomic machine is behind by the sections that are under way. What it has not done yet is what
these sections come to, from the value that their resource had when they began. -/

section Follows

variable {C ι L S σ α : Type} [DecidableEq C] [DecidableEq ι] {M : Sections C ι L S σ α}
  {s s' : Locking C ι L S σ} {t : σ × (ι → S)} {c : C}

/-- `t` is behind with the sections that are under way in `s`. For a resource that nobody has alone
both machines agree; for the one that somebody is writing, his section accounts for the difference.
-/
structure Lags (M : Sections C ι L S σ α) (s : Locking C ι L S σ) (t : σ × (ι → S)) : Prop where
  outer : t.1 = s.outer
  held : AllHeld s
  begun : ∀ c q, s.inside c = some q → ∃ l, M.next s.outer c = some (q.res, l) ∧
    M.whole q.loc (s.mem q.res) = M.whole l (t.2 q.res)
  reads : ∀ c q, s.inside c = some q → q.shared = true → M.shared q.loc = true
  same : ∀ i, (s.mutex i).exclusive = false → s.mem i = t.2 i

theorem lags_init (x : σ) (mem : ι → S) : Lags M (M.locking x mem).init (x, mem) where
  outer := rfl
  held _ := SharedMutex.held_free
  begun _ _ h := nomatch h
  reads _ _ h := nomatch h
  same _ _ := rfl

theorem update_cases {β : Type} {f : C → Option β} {o : Option β} {d : C} {b : β}
    (h : Function.update f c o d = some b) : (d = c ∧ o = some b) ∨ (d ≠ c ∧ f d = some b) := by
  by_cases hdc : d = c
  · subst hdc
    rw [Function.update_self] at h
    exact .inl ⟨rfl, h⟩
  · rw [Function.update_of_ne hdc] at h
    exact .inr ⟨hdc, h⟩

omit [DecidableEq C] in
theorem Lags.other (h : Lags M s t) {a : α} {x : σ} (hx : M.other s.outer a = some x) :
    Lags M { s with outer := x } (x, t.2) where
  outer := rfl
  held := h.held
  begun d q hd := by
    obtain ⟨l, hl, hwhole⟩ := h.begun d q hd
    exact ⟨l, M.next_other hx hl, hwhole⟩
  reads := h.reads
  same := h.same

/-! ### The three steps

A section is entered, goes on by an access, or is left. Only the last of them is a step of the
atomic machine. -/

/-- Nothing has happened in the section yet, so the atomic machine waits. -/
theorem Lags.enter (h : Lags M s t) (hs : M.enter s c = some s') : Lags M s' t := by
  obtain ⟨i, l, m, hout, hnext, hm, rfl⟩ := Sections.enter_cases hs
  have hx := (SharedMutex.acquire_cases hm).1
  refine ⟨h.outer, ?_, fun d q hd => ?_, fun d q hd hq => ?_, fun j hj => ?_⟩
  · exact h.held.enter (q := { res := i, shared := M.shared l, loc := l }) hout hm rfl rfl
  · rcases update_cases hd with ⟨rfl, hq⟩ | ⟨-, hd⟩
    · obtain rfl := (Option.some.inj hq).symm
      exact ⟨l, hnext, by rw [h.same i hx]⟩
    · exact h.begun d q hd
  · rcases update_cases hd with ⟨rfl, hq'⟩ | ⟨-, hd⟩
    · obtain rfl := (Option.some.inj hq').symm
      exact hq
    · exact h.reads d q hd hq
  · by_cases hji : j = i
    · exact hji ▸ h.same i hx
    · refine h.same j ?_
      simpa only [Function.update_of_ne hji] using hj

omit [DecidableEq C] in
/-- An access of one that shares its mutex is to a resource that stays. -/
theorem Lags.access_shared (h : Lags M s t) {q : Hold ι L} {l : L} {v : S}
    (hq : s.inside c = some q) (hacc : M.access q.loc (s.mem q.res) = some (l, v))
    (hshared : q.shared = true) : v = s.mem q.res ∧ M.shared l = true :=
  M.shared_access (h.reads c q hq hshared) hacc

omit [DecidableEq C] in
/-- Two parties are in one resource only to share it. -/
theorem Lags.both (h : Lags M s t) {d : C} {q p : Hold ι L} (hc : s.inside c = some q)
    (hd : s.inside d = some p) (hne : c ≠ d) (hres : q.res = p.res) :
    q.shared = true ∧ p.shared = true :=
  (h.held q.res).both (mode_inside hc) (hres ▸ mode_inside hd) hne

/-- The access is a part of the section that is under way. Nobody else sees it, since a section that
writes is alone. -/
theorem Lags.go (h : Lags M s t) (hs : M.go s c = some s') : Lags M s' t := by
  obtain ⟨q, l, v, hq, hacc, rfl⟩ := Sections.go_cases hs
  -- what another party finds is what it was
  have hmem : ∀ d p, s.inside d = some p → d ≠ c →
      Function.update s.mem q.res v p.res = s.mem p.res := by
    intro d p hd hdc
    by_cases hres : p.res = q.res
    · have hshared := (h.both hq hd (Ne.symm hdc) hres.symm).1
      rw [hres, Function.update_self, (h.access_shared hq hacc hshared).1]
    · rw [Function.update_of_ne hres]
  refine ⟨h.outer, ?_, fun d p hd => ?_, fun d p hd hp => ?_, fun j hj => ?_⟩
  · exact h.held.go (p := { q with loc := l }) hq rfl rfl rfl rfl
  · rcases update_cases hd with ⟨rfl, hp⟩ | ⟨hdc, hd⟩
    · obtain rfl := (Option.some.inj hp).symm
      obtain ⟨l₀, hnext, hwhole⟩ := h.begun d q hq
      refine ⟨l₀, hnext, ?_⟩
      simp only [Function.update_self]
      rw [← M.whole_access hacc, hwhole]
    · obtain ⟨l₀, hnext, hwhole⟩ := h.begun d p hd
      refine ⟨l₀, hnext, ?_⟩
      simp only [hmem d p hd hdc]
      exact hwhole
  · rcases update_cases hd with ⟨rfl, hp'⟩ | ⟨-, hd⟩
    · obtain rfl := (Option.some.inj hp').symm
      exact (h.access_shared hq hacc hp).2
    · exact h.reads d p hd hp
  · by_cases hjq : j = q.res
    · subst hjq
      cases hshared : q.shared with
      | true =>
        simp only [Function.update_self]
        rw [(h.access_shared hq hacc hshared).1]
        exact h.same _ hj
      | false =>
        have hx := (h.held q.res).exclusive.mpr ⟨c, hshared ▸ mode_inside hq⟩
        cases hx.symm.trans hj
    · simp only [Function.update_of_ne hjq]
      exact h.same j hj

/-- **A section is seen at its end**, with what it came to. -/
theorem Lags.leave (h : Lags M s t) (hs : M.leave s c = some s') :
    ∃ t', M.atomicStep t (.inr c) = some t' ∧ Lags M s' t' := by
  obtain ⟨q, hq, hend, rfl⟩ := Sections.leave_cases hs
  obtain ⟨l₀, hnext, hwhole⟩ := h.begun c q hq
  rw [M.whole_end hend] at hwhole
  refine ⟨(M.finish s.outer c q.loc, Function.update t.2 q.res (s.mem q.res)), ?_, ?_⟩
  · unfold Sections.atomicStep
    dsimp only
    rw [h.outer, hnext]
    dsimp only
    rw [← hwhole]
  refine ⟨rfl, ?_, fun d p hd => ?_, fun d p hd hp => ?_, fun j hj => ?_⟩
  · exact h.held.leave hq rfl rfl
  · rcases update_cases hd with ⟨-, hp⟩ | ⟨hdc, hd⟩
    · cases hp
    · obtain ⟨l, hl, hw⟩ := h.begun d p hd
      refine ⟨l, M.next_finish hdc hl, ?_⟩
      -- another party in the same resource shares it with this one, so nothing was written
      by_cases hres : p.res = q.res
      · have hshared := (h.both hq hd (Ne.symm hdc) hres.symm).1
        have hx := (h.held q.res).not_exclusive (hshared ▸ mode_inside hq)
        rw [hres, ← h.same q.res hx] at hw
        simp only [hres, Function.update_self]
        exact hw
      · simp only [Function.update_of_ne hres]
        exact hw
  · rcases update_cases hd with ⟨-, hp'⟩ | ⟨-, hd⟩
    · cases hp'
    · exact h.reads d p hd hp
  -- the resource that is left is up to date now
  · by_cases hjq : j = q.res
    · subst hjq
      simp only [Function.update_self]
    · simp only [Function.update_of_ne hjq] at hj ⊢
      exact h.same j hj

/-- Only the end of a section is seen by the atomic machine, which does all of it then. -/
theorem Lags.step (h : Lags M s t) {a : LockAction C α} (hs : M.lockStep s a = some s') :
    ∃ t', Machine.stepIf (M.atomic t.1 t.2) t a.seen = some t' ∧ Lags M s' t' := by
  cases a with
  | other a =>
    obtain ⟨x, hx, rfl⟩ := Option.map_eq_some_iff.mp hs
    refine ⟨(x, t.2), ?_, h.other hx⟩
    show (M.other t.1 a).map _ = _
    rw [h.outer, hx]
    rfl
  | lock c => exact ⟨t, rfl, h.enter hs⟩
  | access c => exact ⟨t, rfl, h.go hs⟩
  | unlock c => exact h.leave hs

/-- **A resource is written by one that is in it alone.** -/
theorem Lags.written (h : Lags M s t) {a : LockAction C α} {i : ι}
    (hs : M.lockStep s a = some s') (hne : s'.mem i ≠ s.mem i) :
    ∃ c q, a = .access c ∧ s.inside c = some q ∧ q.res = i ∧
      ∀ d p, s.inside d = some p → p.res = i → d = c := by
  -- only an access writes
  cases a with
  | other a =>
    obtain ⟨x, -, rfl⟩ := Option.map_eq_some_iff.mp hs
    exact absurd rfl hne
  | lock c =>
    obtain ⟨j, l, m, -, -, -, rfl⟩ := Sections.enter_cases hs
    exact absurd rfl hne
  | unlock c =>
    obtain ⟨q, -, -, rfl⟩ := Sections.leave_cases hs
    exact absurd rfl hne
  | access c =>
    obtain ⟨q, l, v, hq, hacc, rfl⟩ := Sections.go_cases hs
    obtain rfl : q.res = i := by
      by_contra hres
      exact hne (Function.update_of_ne (Ne.symm hres) ..)
    -- a section that shares its resource leaves it as it is
    have hshared : q.shared = false := by
      refine eq_false_of_ne_true fun hshared => hne ?_
      rw [(h.access_shared hq hacc hshared).1]
      exact Function.update_self ..
    refine ⟨c, q, rfl, hq, rfl, fun d p hd hres => ?_⟩
    exact (h.held q.res).alone (hshared ▸ mode_inside hq) (hres ▸ mode_inside hd)

/-- **With the sections locked as they are, they are atomic.** -/
theorem Sections.locking_follows (M : Sections C ι L S σ α) (x : σ) (mem : ι → S) :
    (M.locking x mem).Follows (M.atomic x mem) LockAction.seen (Lags M) where
  init := lags_init x mem
  step h hs := h.step hs

end Follows

/-! ## Getting through

No section waits for another one, so whoever is inside gets out, and whoever wants to get in comes
in when the others are out. -/

/-- Those that are inside go on, and nobody but `c` gets in. -/
def LockAction.serves {C α : Type} (c : C) : LockAction C α → Prop
  | .other _ => False
  | .lock d => d = c
  | .access _ | .unlock _ => True

section Progress

variable {C ι L S σ α : Type} [DecidableEq C] [DecidableEq ι] {M : Sections C ι L S σ α}
  {x : σ} {g : ι → S} {s : Locking C ι L S σ} {c : C} {i : ι} {q : Hold ι L}

/-! ### Who is inside

A party inside a section waits for nobody. Its accesses come to an end, so its lock is free after a
while. -/

/-- Nothing holds up a party that is inside. -/
theorem inside_goes (hq : s.inside c = some q) :
    (∃ u, M.go s c = some u) ∨ ∃ u, M.leave s c = some u := by
  cases hacc : M.access q.loc (s.mem q.res) with
  | some r =>
    left
    unfold Sections.go
    rw [hq]
    dsimp only
    rw [hacc]
    exact ⟨_, rfl⟩
  | none =>
    right
    unfold Sections.leave
    rw [hq]
    dsimp only
    rw [hacc]
    exact ⟨_, rfl⟩

/-- Nor one that comes to a resource where nobody is. -/
theorem enters {l : L} (hout : s.inside c = none) (hnext : M.next s.outer c = some (i, l))
    (hfree : s.mutex i = SharedMutex.free) :
    ∃ u m, M.enter s c = some u ∧ (s.mutex i).acquire (M.shared l) = some m ∧
      u.outer = s.outer ∧
      u.inside = Function.update s.inside c
        (some { res := i, shared := M.shared l, loc := l }) ∧
      u.mutex = Function.update s.mutex i m := by
  obtain ⟨m, hm⟩ := SharedMutex.acquire_free (M.shared l)
  rw [← hfree] at hm
  refine ⟨{ s with
    mutex := Function.update s.mutex i m
    inside := Function.update s.inside c (some { res := i, shared := M.shared l, loc := l }) },
    m, ?_, hm, rfl, rfl, rfl⟩
  unfold Sections.enter
  rw [hout, hnext]
  dsimp only
  rw [hm]
  rfl

/-- It gets out by itself. -/
theorem leaves (hq : s.inside c = some q) :
    ∃ u l, (M.locking x g).Leads (fun a => a = .access c ∨ a = .unlock c) s u ∧
      u.outer = M.finish s.outer c l ∧ u.inside = Function.update s.inside c none ∧
      u.mutex = Function.update s.mutex q.res ((s.mutex q.res).release q.shared) := by
  generalize hn : M.size q.loc (s.mem q.res) = n
  -- on what is left of the section: one access more, or the unlock
  induction n using Nat.strongRecOn generalizing s q with
  | ind n ih =>
    rcases inside_goes hq with ⟨u, hu⟩ | ⟨u, hu⟩
    · obtain ⟨q', l, v, hq', hacc, hgo⟩ := Sections.go_cases hu
      obtain rfl := Option.some.inj (hq.symm.trans hq')
      have hin : u.inside = Function.update s.inside c (some { q with loc := l }) := by rw [hgo]
      have hself : u.inside c = some { q with loc := l } := by rw [hin, Function.update_self]
      have hsize : M.size l (u.mem q.res) < n := by
        rw [hgo, ← hn]
        simp only [Function.update_self]
        exact M.size_access hacc
      obtain ⟨w, l', hw, houter, hins, hmutex⟩ := ih _ hsize hself rfl
      refine ⟨w, l', (Machine.Leads.single (.inl rfl) hu).trans hw, ?_, ?_, ?_⟩
      · rw [houter, hgo]
      · rw [hins, hin, Function.update_idem]
      · rw [hmutex, hgo]
    · obtain ⟨q', hq', -, rfl⟩ := Sections.leave_cases hu
      obtain rfl := Option.some.inj (hq.symm.trans hq')
      exact ⟨_, q.loc, Machine.Leads.single (.inr rfl) hu, rfl, rfl, rfl⟩

theorem leads_serves {d : C} {u : Locking C ι L S σ}
    (h : (M.locking x g).Leads (fun a => a = .access d ∨ a = .unlock d) s u) :
    (M.locking x g).Leads (LockAction.serves c) s u := by
  refine h.mono fun a ha => ?_
  rcases ha with rfl | rfl
  · trivial
  · trivial

/-- All that are in `i` get out, and `c` stays where it is. `P` is what it cares about. -/
theorem emptied {P : σ → Prop} (hP : ∀ y d l, d ≠ c → P y → P (M.finish y d l))
    (hheld : AllHeld s) (hout : s.inside c = none) (hPs : P s.outer) (i : ι) :
    ∃ u, (M.locking x g).Leads (LockAction.serves c) s u ∧ AllHeld u ∧ u.inside c = none ∧
      P u.outer ∧ u.mutex i = SharedMutex.free := by
  generalize hn : (s.mutex i).holders = n
  -- on how many hold the mutex; one of them leaves
  induction n using Nat.strongRecOn generalizing s with
  | ind n ih =>
    by_cases hall : ∀ d, s.mode i d = none
    · exact ⟨s, Machine.Leads.refl s, hheld, hout, hPs, (hheld i).eq_free hall⟩
    · obtain ⟨d, hd⟩ := not_forall.mp hall
      obtain ⟨q, hq⟩ : ∃ q, s.inside d = some q := by
        cases hin : s.inside d with
        | none => exact absurd (mode_outside hin) hd
        | some q => exact ⟨q, rfl⟩
      obtain rfl : q.res = i := by
        by_contra hne
        exact hd (mode_elsewhere hq hne)
      have hdc : d ≠ c := by
        rintro rfl
        cases hq.symm.trans hout
      obtain ⟨u, l, hu, houter, hin, hmutex⟩ := leaves (M := M) (x := x) (g := g) hq
      have hless : (u.mutex q.res).holders < n := by
        rw [hmutex, Function.update_self, ← hn]
        exact (hheld q.res).holders_release (mode_inside hq)
      have hout' : u.inside c = none := by
        rw [hin, Function.update_of_ne (Ne.symm hdc), hout]
      have hPu : P u.outer := by
        rw [houter]
        exact hP _ d l hdc hPs
      obtain ⟨v, hv, hrest⟩ := ih _ hless (hheld.leave hq hin hmutex) hout' hPu rfl
      exact ⟨v, (leads_serves hu).trans hv, hrest⟩

/-- **A party that comes to a section gets through it**, after those that are there already. -/
theorem served {P : σ → Prop} (hP : ∀ y d l, d ≠ c → P y → P (M.finish y d l))
    (hheld : AllHeld s) (hPs : P s.outer) {n : ι × L} (hnext : M.next s.outer c = some n) :
    ∃ u y l, (M.locking x g).Leads (LockAction.serves c) s u ∧ AllHeld u ∧ P y ∧
      u.outer = M.finish y c l ∧ u.inside c = none := by
  -- inside already, or it has to wait until the others are out
  cases hin : s.inside c with
  | some q =>
    obtain ⟨u, l, hu, houter, hins, hmutex⟩ := leaves (M := M) (x := x) (g := g) hin
    refine ⟨u, s.outer, l, leads_serves hu, hheld.leave hin hins hmutex, hPs, houter, ?_⟩
    rw [hins, Function.update_self]
  | none =>
    obtain ⟨i, l⟩ := n
    obtain ⟨u, hu, hheldu, houtu, ⟨hPu, hnextu⟩, hfree⟩ :=
      emptied (M := M) (x := x) (g := g) (P := fun y => P y ∧ M.next y c = some (i, l))
        (fun y d l hd h => ⟨hP y d l hd h.1, M.next_finish (Ne.symm hd) h.2⟩) hheld hin
        ⟨hPs, hnext⟩ i
    obtain ⟨v, m, hv, hm, houterv, hinv, hmutexv⟩ := enters houtu hnextu hfree
    have hself : v.inside c = some { res := i, shared := M.shared l, loc := l } := by
      rw [hinv, Function.update_self]
    obtain ⟨w, l', hw, houter, hins, hmutex⟩ := leaves (M := M) (x := x) (g := g) hself
    refine ⟨w, u.outer, l', ?_, ?_, hPu, houterv ▸ houter, ?_⟩
    · exact (hu.step (show LockAction.serves c (.lock c) from rfl) hv).trans (leads_serves hw)
    · exact (hheldu.enter houtu hm hinv hmutexv).leave hself hins hmutex
    · rw [hins, Function.update_self]

end Progress

end CppDone
