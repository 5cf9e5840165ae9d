import CppDone.Lib.Machine

/-!
# Condition variables over a list of threads

A condition variable seen from outside is a set of blocked threads. `CondVar P` says how a thread
record `P` shows where it stands with one: blocked (`waiting`), or taken off the waiters by a
notification and not resumed yet (`notified`). A thread that woke up by itself is neither: it
waits for the mutex, and no notification can reach it any more.

`notifyOne` wakes the waiter the schedule chose and does nothing only if there is none.

Nobody sleeps through work if, whenever somebody sleeps, there is a pending notification for
every unit of work (`Served`). The invariant is worth a library because of the way it survives a
stolen unit: the notified thread that finds nothing consumes its notification, but so much work
was gone before.
-/

set_option autoImplicit false

namespace CppDone

/-- Where a thread record stands with a condition variable. A record waits, or has been notified and
not gone on yet, or has nothing to do with the variable. -/
structure CondVar (P : Type) where
  waiting : P → Bool
  notified : P → Bool
  /-- What a notification does to a waiting record. -/
  notify : P → P
  waiting_notify : ∀ p, waiting p = true → waiting (notify p) = false
  notified_notify : ∀ p, waiting p = true → notified (notify p) = true
  notified_of_waiting : ∀ p, waiting p = true → notified p = false

namespace CondVar

variable {P : Type} (cv : CondVar P)

/-- `notify_one`, waking the chosen waiter. -/
def notifyOne (choice : Option Nat) (ps : List P) : Option (List P) :=
  match choice with
  | none => if ps.any cv.waiting then none else some ps
  | some i =>
    match ps[i]? with
    | none => none
    | some p => if cv.waiting p then some (ps.set i (cv.notify p)) else none

/-- `notify_all`. -/
def notifyAll (ps : List P) : List P :=
  ps.map fun p => if cv.waiting p then cv.notify p else p

variable {cv} {ps ps' : List P} {choice : Option Nat}

/-- Either nobody waits and nothing happens, or one waiter is notified. -/
theorem notifyOne_cases (h : cv.notifyOne choice ps = some ps') :
    (ps' = ps ∧ ∀ p ∈ ps, cv.waiting p = false) ∨
      ∃ i p, ps[i]? = some p ∧ cv.waiting p = true ∧ ps' = ps.set i (cv.notify p) := by
  unfold notifyOne at h
  split at h
  · split at h
    · cases h
    · next hany =>
      refine Or.inl ⟨(Option.some.inj h).symm, fun p hp => ?_⟩
      rw [List.any_eq_true] at hany
      exact Bool.eq_false_iff.mpr fun hw => hany ⟨p, hp, hw⟩
  · split at h
    · cases h
    · next i _ p hp =>
      split at h
      · next hw => exact Or.inr ⟨i, p, hp, hw, (Option.some.inj h).symm⟩
      · cases h

/-- Somebody is there to be notified, or nobody waits. -/
theorem notifyOne_possible (cv : CondVar P) (ps : List P) :
    ∃ choice ps', cv.notifyOne choice ps = some ps' := by
  by_cases hwait : ∃ p ∈ ps, cv.waiting p = true
  · obtain ⟨p, hp, hw⟩ := hwait
    obtain ⟨i, hi⟩ := List.mem_iff_getElem?.mp hp
    exact ⟨some i, ps.set i (cv.notify p), by simp [notifyOne, hi, hw]⟩
  · exact ⟨none, ps, by simpa [notifyOne] using hwait⟩

/-- A reading of the records that a notification leaves alone. -/
theorem map_notifyOne {β : Type} {f : P → β}
    (hf : ∀ p, cv.waiting p = true → f (cv.notify p) = f p)
    (h : cv.notifyOne choice ps = some ps') : ps'.map f = ps.map f := by
  rcases notifyOne_cases h with ⟨rfl, -⟩ | ⟨i, p, hp, hw, rfl⟩
  · rfl
  · rw [List.map_set, hf p hw]
    apply List.ext_getElem?
    intro j
    rw [List.getElem?_set]
    split
    · next hij =>
      subst hij
      obtain ⟨hlt, rfl⟩ := List.getElem?_eq_some_iff.mp hp
      simp [hlt]
    · rfl

theorem map_notifyAll {β : Type} {f : P → β}
    (hf : ∀ p, cv.waiting p = true → f (cv.notify p) = f p) :
    (cv.notifyAll ps).map f = ps.map f := by
  rw [notifyAll, List.map_map]
  apply List.map_congr_left
  intro p _
  rw [Function.comp_apply]
  split
  · next hw => exact hf p hw
  · rfl

theorem countP_notifyOne {f : P → Bool}
    (hf : ∀ p, cv.waiting p = true → f (cv.notify p) = f p)
    (h : cv.notifyOne choice ps = some ps') : ps'.countP f = ps.countP f := by
  have hmap := congrArg (List.countP id) (map_notifyOne hf h)
  simpa only [List.countP_map, Function.id_comp] using hmap

theorem countP_notifyAll {f : P → Bool}
    (hf : ∀ p, cv.waiting p = true → f (cv.notify p) = f p) :
    (cv.notifyAll ps).countP f = ps.countP f := by
  have hall : (cv.notifyAll ps).map f = ps.map f := map_notifyAll hf
  have hmap := congrArg (List.countP id) hall
  simpa only [List.countP_map, Function.id_comp] using hmap

theorem waiting_notifyAll : ∀ p ∈ cv.notifyAll ps, cv.waiting p = false := by
  unfold notifyAll
  rw [List.forall_mem_map]
  intro p _
  split
  · next hw => exact cv.waiting_notify p hw
  · next hw => exact Bool.eq_false_iff.mpr hw

/-- A thread that does not wait is not reached by a notification. -/
theorem getElem?_notifyAll {i : Nat} {p : P} (hp : ps[i]? = some p)
    (hw : cv.waiting p = false) : (cv.notifyAll ps)[i]? = some p := by
  rw [notifyAll, List.getElem?_map, hp, Option.map_some, hw]
  rfl

/-! ## Served work

A count that no step can spoil: a unit of work comes with a notification, and a thread that resumes
takes one of each away. As long as a thread is blocked there is a notification under way for every
unit. -/

/-- If a thread is blocked, every one of `n` units of work has a notification pending. -/
def Served (cv : CondVar P) (ps : List P) (n : Nat) : Prop :=
  (∃ p ∈ ps, cv.waiting p = true) → n ≤ ps.countP cv.notified

theorem Served.of_forall (h : ∀ p ∈ ps, cv.waiting p = false) (n : Nat) : cv.Served ps n := by
  rintro ⟨p, hp, hw⟩
  rw [h p hp] at hw
  cases hw

theorem served_zero : cv.Served ps 0 := fun _ => Nat.zero_le _

theorem Served.mono {n n' : Nat} (h : cv.Served ps n) (hn : n' ≤ n) : cv.Served ps n' :=
  fun hw => Nat.le_trans hn (h hw)

/-- A new thread that is not blocked. -/
theorem Served.append {n : Nat} (h : cv.Served ps n) {p : P} (hp : cv.waiting p = false) :
    cv.Served (ps ++ [p]) n := by
  rintro ⟨q, hq, hw⟩
  rcases List.mem_append.mp hq with hq | hq
  · rw [List.countP_append]
    exact Nat.le_add_right_of_le (h ⟨q, hq, hw⟩)
  · rw [List.mem_singleton.mp hq, hp] at hw
    cases hw

/-- The blocked threads after one record changed to one that is not blocked. -/
theorem exists_waiting_of_set {i : Nat} {p' : P} (hp' : cv.waiting p' = false)
    (h : ∃ q ∈ ps.set i p', cv.waiting q = true) : ∃ q ∈ ps, cv.waiting q = true := by
  obtain ⟨q, hq, hw⟩ := h
  rcases List.mem_or_eq_of_mem_set hq with hq | rfl
  · exact ⟨q, hq, hw⟩
  · rw [hp'] at hw
    cases hw

/-- A thread resumes: one notification is used up, and one unit of work with it. -/
theorem Served.resume {n i : Nat} {p' : P} (h : cv.Served ps n) (hi : i < ps.length)
    (hp' : cv.waiting p' = false) : cv.Served (ps.set i p') (n - 1) := by
  intro hw
  have hn := h (exists_waiting_of_set hp' hw)
  have hcount := countP_set_add (p := cv.notified) (List.getElem?_eq_getElem hi) p'
  split at hcount <;> omega

/-- A thread without a pending notification moves on. -/
theorem Served.move {n i : Nat} {p p' : P} (h : cv.Served ps n) (hp : ps[i]? = some p)
    (hn : cv.notified p = false) (hp' : cv.waiting p' = false) : cv.Served (ps.set i p') n := by
  intro hw
  have hle := h (exists_waiting_of_set hp' hw)
  have hcount := countP_set_add (p := cv.notified) hp p'
  rw [hn] at hcount
  simp only [Bool.false_eq_true, if_false] at hcount
  omega

/-- A notification pays for one more unit of work. -/
theorem Served.notifyOne {n : Nat} (h : cv.Served ps n)
    (hs : cv.notifyOne choice ps = some ps') : cv.Served ps' (n + 1) := by
  rcases notifyOne_cases hs with ⟨rfl, hall⟩ | ⟨i, p, hp, hw, rfl⟩
  · exact Served.of_forall hall _
  · intro _
    have hle := h ⟨p, List.mem_of_getElem? hp, hw⟩
    have hcount := countP_set_add (p := cv.notified) hp (cv.notify p)
    rw [cv.notified_notify p hw, cv.notified_of_waiting p hw] at hcount
    simp only [Bool.false_eq_true, if_false, if_true] at hcount
    omega

end CondVar

end CppDone
