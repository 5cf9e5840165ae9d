import CppDone.Timer.Readings
import Mathlib.Data.List.Nodup

/-!
# Delayed events are posted on time, once and in order

Seen through `State.pending`, a tick takes events off the front of a list that is in order of
deadlines, and of insertion under one deadline, for as long as the front is due. That what is left
is not due, that each event comes up once, and in which order, is read off from that (`Taken`).

That an event is not missed is a matter of the ticks before: until one that is late enough has
taken the lock, an accepted event stays pending (`Waiting`). Both hold for any number of calling
threads, of workers and of ticks that wait for the lock with old readings of the clock. Only for
the second one the queue must not be stopped and no wait fail, and only once the event is in.

The deadline is that of the call (`Called`): the clock as the caller read it and the delay it asked
for. The tick has read the clock as well (`TickRead`), and what it posts is handed over to the
context. Nothing is said of when a tick comes; that one does come is said of the waits.
-/

set_option autoImplicit false

namespace CppDone.Timer

/-! ## What is pending, and what is recorded

Two lists, of which one shrinks at its front while the other grows at its end. The deadlines never
fall along them, and events with one deadline keep the order in which they were accepted. -/

/-- The deadline is earlier, or it is the same one and the event was accepted before. -/
def Earlier (x y : Nat × Nat) : Prop := x.1 < y.1 ∨ x.1 = y.1 ∧ x.2 < y.2

/-- What is pending is in order, was accepted and has not been posted; what has been posted was due,
and was posted once. An event is known by its place in the history, so two events with the same
deadline are two. -/
structure Listed (s : State) : Prop where
  ordered : s.pending.Pairwise Earlier
  known : ∀ x ∈ s.pending, s.hist[x.2]? = some (.accepted x.1)
  unposted : ∀ x ∈ s.pending, x.2 ∉ postedIn s.hist
  due : ∀ e t, Event.posted e t ∈ s.hist →
    ∃ timeout, s.hist[e]? = some (.accepted timeout) ∧ timeout ≤ t
  once : (postedIn s.hist).Nodup

theorem Listed.init (n : Nat) : Listed (queue n).init where
  ordered := List.Pairwise.nil
  known := nofun
  unposted := nofun
  due := nofun
  once := List.nodup_nil

section Listed

variable {s s' : State} {a : Action}

theorem Listed.lt_length (hL : Listed s) {e : Nat} (h : e ∈ postedIn s.hist) :
    e < s.hist.length := by
  obtain ⟨t, hmem⟩ := mem_postedIn.mp h
  obtain ⟨timeout, hacc, -⟩ := hL.due e t hmem
  exact lt_length_of_getElem? hacc

/-- An entry of the history that posts nothing. -/
theorem Listed.snoc (hL : Listed s) {ev : Event} (hev : ev.event? = none)
    (hhist : s'.hist = s.hist ++ [ev]) (hsub : s'.pending.Sublist s.pending) : Listed s' := by
  have hposted : postedIn s'.hist = postedIn s.hist := by
    rw [hhist, postedIn_append]
    simp [postedIn, hev]
  refine ⟨hL.ordered.sublist hsub, ?_, ?_, ?_, ?_⟩
  · intro x hx
    rw [hhist]
    exact getElem?_snoc.mpr (Or.inl (hL.known x (hsub.subset hx)))
  · intro x hx
    rw [hposted]
    exact hL.unposted x (hsub.subset hx)
  · intro e t hmem
    rw [hhist] at hmem ⊢
    rcases List.mem_append.mp hmem with hmem | hmem
    · obtain ⟨timeout, hacc, hle⟩ := hL.due e t hmem
      exact ⟨timeout, getElem?_snoc.mpr (Or.inl hacc), hle⟩
    · rw [← List.mem_singleton.mp hmem] at hev
      cases hev
  · rw [hposted]
    exact hL.once

/-- Entries may go from the table without being posted, and then nothing is said of them any more.
-/
theorem Listed.same (hL : Listed s) (hhist : s'.hist = s.hist)
    (hsub : s'.pending.Sublist s.pending) :
    Listed s' := by
  refine ⟨hL.ordered.sublist hsub, ?_, ?_, ?_, ?_⟩
  · intro x hx
    rw [hhist]
    exact hL.known x (hsub.subset hx)
  · intro x hx
    rw [hhist]
    exact hL.unposted x (hsub.subset hx)
  · rw [hhist]
    exact hL.due
  · rw [hhist]
    exact hL.once

/-- The new event has a name that no event had before, and it is put where the order asks for it. -/
theorem Listed.inserted (hL : Listed s) {timeout : Nat} {before after : List (Nat × Nat)}
    (hpending : s.pending = before ++ after)
    (hpending' : s'.pending = before ++ (timeout, s.hist.length) :: after)
    (hbefore : ∀ x ∈ before, x.1 ≤ timeout) (hafter : ∀ x ∈ after, timeout < x.1)
    (hhist : s'.hist = s.hist ++ [.accepted timeout]) : Listed s' := by
  have hposted : postedIn s'.hist = postedIn s.hist := by
    rw [hhist, postedIn_append]
    exact List.append_nil _
  -- what was pending was accepted before
  have hold : ∀ x ∈ s.pending, x.2 < s.hist.length := fun x hx =>
    lt_length_of_getElem? (hL.known x hx)
  have hmem : ∀ x, x ∈ s'.pending → x = (timeout, s.hist.length) ∨ x ∈ s.pending := by
    intro x hx
    rw [hpending'] at hx
    rw [hpending]
    rcases List.mem_append.mp hx with hx | hx
    · exact Or.inr (List.mem_append_left _ hx)
    · rcases List.mem_cons.mp hx with hx | hx
      · exact Or.inl hx
      · exact Or.inr (List.mem_append_right _ hx)
  refine ⟨?_, ?_, ?_, ?_, ?_⟩
  · have hord := hL.ordered
    rw [hpending] at hord
    obtain ⟨hb, ha, hba⟩ := List.pairwise_append.mp hord
    rw [hpending']
    refine List.pairwise_append.mpr ⟨hb, List.pairwise_cons.mpr ⟨?_, ha⟩, ?_⟩
    · intro x hx
      exact Or.inl (hafter x hx)
    · intro x hx y hy
      rcases List.mem_cons.mp hy with rfl | hy
      · have hlt := hold x (by rw [hpending]; exact List.mem_append_left _ hx)
        rcases Nat.lt_or_eq_of_le (hbefore x hx) with h | h
        · exact Or.inl h
        · exact Or.inr ⟨h, hlt⟩
      · exact hba x hx y hy
  · intro x hx
    rw [hhist]
    rcases hmem x hx with rfl | hx
    · exact getElem?_length_snoc
    · exact getElem?_snoc.mpr (Or.inl (hL.known x hx))
  · intro x hx
    rw [hposted]
    rcases hmem x hx with rfl | hx
    · exact fun h => Nat.lt_irrefl _ (hL.lt_length h)
    · exact hL.unposted x hx
  · intro e t hm
    rw [hhist] at hm ⊢
    rcases List.mem_append.mp hm with hm | hm
    · obtain ⟨timeout, hacc, hle⟩ := hL.due e t hm
      exact ⟨timeout, getElem?_snoc.mpr (Or.inl hacc), hle⟩
    · cases List.mem_singleton.mp hm
  · rw [hposted]
    exact hL.once

/-- The first of the pending events is posted. It was due, and it is gone from the table, so it is
not posted again. -/
theorem Listed.posted (hL : Listed s) {x : Nat × Nat} {t : Nat}
    (hpending : s.pending = x :: s'.pending) (hdue : x.1 ≤ t)
    (hhist : s'.hist = s.hist ++ [.posted x.2 t]) : Listed s' := by
  have hx : x ∈ s.pending := by
    rw [hpending]
    exact List.mem_cons_self
  have hposted : postedIn s'.hist = postedIn s.hist ++ [x.2] := by
    rw [hhist, postedIn_append]
    rfl
  have hord := hL.ordered
  rw [hpending] at hord
  obtain ⟨hfirst, hrest⟩ := List.pairwise_cons.mp hord
  have hsub : ∀ y ∈ s'.pending, y ∈ s.pending := fun y hy => by
    rw [hpending]
    exact List.mem_cons_of_mem _ hy
  refine ⟨hrest, ?_, ?_, ?_, ?_⟩
  · intro y hy
    rw [hhist]
    exact getElem?_snoc.mpr (Or.inl (hL.known y (hsub y hy)))
  · intro y hy
    rw [hposted, List.mem_append, not_or]
    refine ⟨hL.unposted y (hsub y hy), fun h => ?_⟩
    -- one event has one deadline, so it is not pending twice
    have heq : y.2 = x.2 := List.mem_singleton.mp h
    have hy' := hL.known y (hsub y hy)
    rw [heq, hL.known x hx] at hy'
    have hsame : x.1 = y.1 := Event.accepted.inj (Option.some.inj hy')
    rcases hfirst y hy with hlt | ⟨-, hlt⟩
    · omega
    · omega
  · intro e t' hmem
    rw [hhist] at hmem ⊢
    rcases List.mem_append.mp hmem with hmem | hmem
    · obtain ⟨timeout, hacc, hle⟩ := hL.due e t' hmem
      exact ⟨timeout, getElem?_snoc.mpr (Or.inl hacc), hle⟩
    · obtain ⟨rfl, rfl⟩ := Event.posted.inj (List.mem_singleton.mp hmem)
      exact ⟨x.1, getElem?_snoc.mpr (Or.inl (hL.known x hx)), hdue⟩
  · rw [hposted]
    refine List.nodup_append.mpr ⟨hL.once, by simp, ?_⟩
    intro e he e' he' heq
    rw [List.mem_singleton.mp he'] at heq
    rw [heq] at he
    exact hL.unposted x hx he

/-- By what the step does to the pending events. -/
theorem Listed.step (hL : Listed s) (hE : Effect s a s') : Listed s' := by
  cases hE with
  | aside tick pending hist stoped_ =>
    rcases hist with hist | ⟨ev, hev, hist⟩
    · exact hL.same hist (by rw [pending])
    · refine hL.snoc ?_ hist (by rw [pending])
      cases ev with
      | started k => rfl
      | stopped => rfl
      | _ => cases hev
  | inserted timeout idle tick pending hist stoped_ =>
    obtain ⟨before, after, hpending, hpending', hbefore, hafter⟩ := pending
    exact hL.inserted hpending hpending' hbefore hafter hist
  | cleared idle tick pending hist stoped_ =>
    exact hL.snoc rfl hist (by rw [pending]; exact List.nil_sublist _)
  | failed calm idle tick pending hist stoped_ =>
    exact hL.same hist (by rw [pending]; exact List.nil_sublist _)
  | locked w t action worker idle tick pending hist stoped_ => exact hL.same hist (by rw [pending])
  | released w t action busy tick pending late hist stoped_ => exact hL.same hist (by rw [pending])
  | posted w t x busy tick pending due running hist stoped_ => exact hL.posted pending due hist
  | dropped w t x busy tick pending due stopped hist stoped_ =>
    exact hL.same hist (by rw [pending]; exact List.sublist_cons_self _ _)

end Listed

theorem listed_inductive (n : Nat) : (queue n).Inductive fun s => Base s ∧ Listed s where
  init := ⟨Base.init n, Listed.init n⟩
  step hI h := ⟨(hI.1.step h).1, hI.2.step (hI.1.step h).2⟩

/-! ## One tick

While a tick has the lock nobody else can look at the table. So what it takes is what was due when
it came, and its reading of the clock decides what that is. -/

/-- Worker `w`, who has read `t` from the clock, takes the lock in `s`, has it during the steps
`mid`, and gives it back in `s'`. -/
def Tick (n w t : Nat) (s : State) (mid : List Action) (s' : State) : Prop :=
  s.worker_threads_[w]? = some (.lock t) ∧
    ∃ first last, s.step (.work w) = some first ∧ (queue n).runFrom first mid = some last ∧
      (queue n).Throughout (fun s => s.delay_event_lock_ = some w) first mid ∧
      last.step (.work w) = some s' ∧ s'.delay_event_lock_ = none

/-- From `s` on, a tick with reading `t` has taken `taken` off the front of what was pending, and
`gap` has been recorded. If `C` holds, all of it was posted. Only a `Stop` in between keeps an event
from being posted that was taken. -/
structure Taken (t : Nat) (C : Prop) (s s' : State) (taken : List (Nat × Nat))
    (gap : List Event) : Prop where
  pending : s.pending = taken ++ s'.pending
  hist : s'.hist = s.hist ++ gap
  due : ∀ x ∈ taken, x.1 ≤ t
  reading : ∀ e t', Event.posted e t' ∈ gap → t' = t
  posted : (postedIn gap).Sublist (taken.map Prod.snd)
  all : C → s'.stoped_ = false ∧ postedIn gap = taken.map Prod.snd

section Ticks

variable {n w t : Nat} {C : Prop} {s s' s₀ : State} {a : Action}

/-- Something else is recorded while the tick goes on. What was taken stays as it is. -/
theorem Taken.snoc {taken : List (Nat × Nat)} {gap : List Event} (h : Taken t C s₀ s taken gap)
    (hpending : s'.pending = s.pending) {ev : Event} (hev : ev.event? = none)
    (hhist : s'.hist = s.hist ++ [ev]) (hst : C → s.stoped_ = false → s'.stoped_ = false) :
    Taken t C s₀ s' taken (gap ++ [ev]) := by
  have hposted : postedIn (gap ++ [ev]) = postedIn gap := by
    rw [postedIn_append]
    simp [postedIn, hev]
  refine ⟨by rw [hpending]; exact h.pending, ?_, h.due, ?_, by rw [hposted]; exact h.posted, ?_⟩
  · rw [hhist, h.hist, List.append_assoc]
  · intro e t' hmem
    rcases List.mem_append.mp hmem with hmem | hmem
    · exact h.reading e t' hmem
    · rw [← List.mem_singleton.mp hmem] at hev
      cases hev
  · intro hC
    rw [hposted]
    exact ⟨hst hC (h.all hC).1, (h.all hC).2⟩

/-- A step while the tick goes on. -/
theorem Taken.step {taken : List (Nat × Nat)} {gap : List Event} (h : Taken t C s₀ s taken gap)
    (hbusy : s.tick = some (w, t)) (hE : Effect s a s') (hgoes : s'.tick ≠ none)
    (hcalm : C → s.calm a = true) :
    s'.tick = some (w, t) ∧ ∃ taken gap, Taken t C s₀ s' taken gap := by
  cases hE with
  | aside tick pending hist stoped_ =>
    refine ⟨tick.trans hbusy, ?_⟩
    rcases hist with hist | ⟨ev, hev, hist⟩
    · refine ⟨taken, gap, by rw [pending]; exact h.pending, hist.trans h.hist, h.due, h.reading,
        h.posted, fun hC => ⟨stoped_ (hcalm hC) (h.all hC).1, (h.all hC).2⟩⟩
    · have hnone : ev.event? = none := by
        cases ev with
        | started k => rfl
        | stopped => rfl
        | _ => cases hev
      exact ⟨taken, gap ++ [ev], h.snoc pending hnone hist fun hC hst => stoped_ (hcalm hC) hst⟩
  | inserted timeout idle => cases idle.symm.trans hbusy
  | cleared idle => cases idle.symm.trans hbusy
  | failed calm idle => cases idle.symm.trans hbusy
  | locked w' t' action worker idle => cases idle.symm.trans hbusy
  | released w' t' action busy tick => exact absurd tick hgoes
  | posted w' t' x busy tick pending due running hist stoped_ =>
    obtain ⟨rfl, rfl⟩ := Prod.mk.inj (Option.some.inj (busy.symm.trans hbusy))
    refine ⟨tick, taken ++ [x], gap ++ [.posted x.2 t'], ?_, ?_, ?_, ?_, ?_, ?_⟩
    · rw [h.pending, pending, List.append_assoc]
      rfl
    · rw [hist, h.hist, List.append_assoc]
    · intro y hy
      rcases List.mem_append.mp hy with hy | hy
      · exact h.due y hy
      · rw [List.mem_singleton.mp hy]
        exact due
    · intro e t'' hmem
      rcases List.mem_append.mp hmem with hmem | hmem
      · exact h.reading e t'' hmem
      · exact (Event.posted.inj (List.mem_singleton.mp hmem)).2
    · rw [postedIn_append, List.map_append]
      exact h.posted.append (List.Sublist.refl _)
    · intro hC
      rw [postedIn_append, List.map_append, (h.all hC).2]
      exact ⟨stoped_.trans running, rfl⟩
  | dropped w' t' x busy tick pending due stopped hist stoped_ =>
    obtain ⟨rfl, rfl⟩ := Prod.mk.inj (Option.some.inj (busy.symm.trans hbusy))
    refine ⟨tick, taken ++ [x], gap, ?_, hist.trans h.hist, ?_, h.reading, ?_, ?_⟩
    · rw [h.pending, pending, List.append_assoc]
      rfl
    · intro y hy
      rcases List.mem_append.mp hy with hy | hy
      · exact h.due y hy
      · rw [List.mem_singleton.mp hy]
        exact due
    · rw [List.map_append]
      exact h.posted.trans (List.sublist_append_left _ _)
    · intro hC
      -- nothing is dropped by a queue that is not stopped
      rw [(h.all hC).1] at stopped
      cases stopped

/-- The steps in which the worker has the lock. -/
theorem Taken.run {last : State} {mid : List Action} {taken : List (Nat × Nat)}
    {gap : List Event} (hB : Base s) (h : Taken t C s₀ s taken gap) (hbusy : s.tick = some (w, t))
    (hrun : (queue n).runFrom s mid = some last)
    (hlock : (queue n).Throughout (fun s => s.delay_event_lock_ = some w) s mid)
    (hcalm : C → (queue n).MeetsFrom (fun s a => s.calm a = true) s mid) :
    Base last ∧ last.tick = some (w, t) ∧ ∃ taken gap, Taken t C s₀ last taken gap := by
  induction mid generalizing s taken gap with
  | nil =>
    obtain rfl : s = last := by simpa using hrun
    exact ⟨hB, hbusy, taken, gap, h⟩
  | cons a mid ih =>
    obtain ⟨s', hs', hrun'⟩ := Option.bind_eq_some_iff.mp hrun
    obtain ⟨hB', hE⟩ := hB.step hs'
    have hlock' := hlock.2 s' hs'
    obtain ⟨hbusy', taken', gap', h'⟩ := h.step hbusy hE (hB'.busy hlock'.first)
      fun hC => (hcalm hC).1
    exact ih hB' h' hbusy' hrun' hlock' fun hC => (hcalm hC).2 s' hs'

/-- **A whole tick** takes all that is due, and nothing else. -/
theorem Tick.taken {mid : List Action} (hB : Base s) (h : Tick n w t s mid s')
    (hC : C → s.stoped_ = false ∧
      (queue n).MeetsFrom (fun s a => s.calm a = true) s (.work w :: (mid ++ [.work w]))) :
    (∃ taken gap, Taken t C s s' taken gap) ∧ (∀ x ∈ s'.pending, t < x.1) ∧
      s'.pending = s'.delay_eventtab_.items := by
  obtain ⟨hw, first, last, hfirst, hrun, hlock, hlast, hend⟩ := h
  obtain ⟨hB₁, -⟩ := hB.step hfirst
  obtain ⟨pc, hpc, hat⟩ := State.work_cases hfirst
  obtain rfl : .lock t = pc := Option.some.inj (hw.symm.trans hpc)
  obtain ⟨-, htick, hpending, hhist, hst⟩ := lock_view hw hat
  -- from the lock on nothing is taken yet
  have hstart : Taken t C s first [] [] :=
    ⟨hpending.symm, by rw [hhist, List.append_nil], nofun, nofun, List.Sublist.refl _,
      fun hc => ⟨hst.trans (hC hc).1, rfl⟩⟩
  have hmeets : C → (queue n).MeetsFrom (fun s a => s.calm a = true) first (mid ++ [.work w]) :=
    fun hc => (hC hc).2.2 first hfirst
  obtain ⟨hB₂, hbusy, taken, gap, htaken⟩ := hstart.run hB₁ htick hrun hlock fun hc =>
    (Machine.meetsFrom_append.mp (hmeets hc)).1
  have hcalm : C → last.calm (.work w) = true := fun hc =>
    ((Machine.meetsFrom_append.mp (hmeets hc)).2 last hrun).1
  -- the last step gives the lock back, so the tick has seen that nothing more is due
  have hfree : s'.tick = none := tick_idle hend
  have hitems := pending_idle hend
  obtain ⟨-, hE⟩ := hB₂.step hlast
  -- of all effects only the release ends a tick
  cases hE with
  | aside tick => cases (hfree.symm.trans tick).trans hbusy
  | inserted timeout idle => cases idle.symm.trans hbusy
  | cleared idle => cases idle.symm.trans hbusy
  | failed calm idle => cases idle.symm.trans hbusy
  | locked w' t' action worker idle => cases idle.symm.trans hbusy
  | released w' t' action busy tick pending late hist stoped_ =>
    obtain ⟨rfl, rfl⟩ := Prod.mk.inj (Option.some.inj (busy.symm.trans hbusy))
    refine ⟨⟨taken, gap, ?_⟩, by rw [pending]; exact late, hitems⟩
    exact ⟨by rw [pending]; exact htaken.pending, hist.trans htaken.hist, htaken.due,
      htaken.reading, htaken.posted, fun hc => ⟨stoped_.trans (htaken.all hc).1, (htaken.all hc).2⟩⟩
  | posted w' t' x busy tick => cases hfree.symm.trans tick
  | dropped w' t' x busy tick => cases hfree.symm.trans tick

end Ticks

/-! ## Before the tick

An event that has been accepted waits until the first tick that has read its deadline or later,
unless it is cleared or the queue is stopped. Ticks that came too early leave it alone. -/

/-- `ClearDelayedEvent` was called after event `e` was accepted. -/
def ClearedAfter (hist : List Event) (e : Nat) : Prop := ∃ j, e < j ∧ hist[j]? = some .cleared

/-- Once event `e` is accepted, no wait fails and the queue is not stopped. -/
def CalmSince (e : Nat) (s : State) (a : Action) : Prop := e < s.hist.length → s.calm a = true

/-- What the tick that takes the lock in this step has read from the clock. -/
def State.locksWith (s : State) : Action → Option Nat
  | .work w =>
    match s.worker_threads_[w]? with
    | some (.lock t) => some t
    | _ => none
  | _ => none

/-- Once event `e` is accepted, no tick takes the lock that has read `timeout` or later. -/
def EarlySince (e timeout : Nat) (s : State) (a : Action) : Prop :=
  e < s.hist.length → ∀ t ∈ s.locksWith a, t < timeout

instance (e : Nat) (s : State) (a : Action) : Decidable (CalmSince e s a) :=
  inferInstanceAs (Decidable (_ → _))

instance (e timeout : Nat) (s : State) (a : Action) : Decidable (EarlySince e timeout s a) :=
  inferInstanceAs (Decidable (_ → _))

/-- An accepted event is pending, and no tick that is late enough for it is going on. -/
def Waiting (e timeout : Nat) (s : State) : Prop :=
  s.hist[e]? = some (.accepted timeout) → ClearedAfter s.hist e ∨
    (timeout, e) ∈ s.pending ∧ ∀ w t, s.tick = some (w, t) → t < timeout

section Waiting

variable {e timeout : Nat} {s s' : State} {a : Action}

theorem ClearedAfter.snoc {hist : List Event} (h : ClearedAfter hist e) (ev : Event) :
    ClearedAfter (hist ++ [ev]) e := by
  obtain ⟨j, hj, hcleared⟩ := h
  exact ⟨j, hj, getElem?_snoc.mpr (Or.inl hcleared)⟩

/-- A step that records nothing of the event and takes nothing away. -/
theorem Waiting.keep (h : Waiting e timeout s)
    (hhist : s'.hist = s.hist ∨ ∃ ev : Event, (∀ t, ev ≠ .accepted t) ∧ s'.hist = s.hist ++ [ev])
    (hkeep : e < s.hist.length → (timeout, e) ∈ s.pending →
      (∀ w t, s.tick = some (w, t) → t < timeout) →
      (timeout, e) ∈ s'.pending ∧ ∀ w t, s'.tick = some (w, t) → t < timeout) :
    Waiting e timeout s' := by
  intro hacc
  have hold : s.hist[e]? = some (.accepted timeout) := by
    rcases hhist with hhist | ⟨ev, hev, hhist⟩
    · rwa [hhist] at hacc
    · rw [hhist] at hacc
      exact accepted_of_snoc hev hacc
  rcases h hold with hcleared | ⟨hpending, hearly⟩
  · refine Or.inl ?_
    rcases hhist with hhist | ⟨ev, -, hhist⟩
    · rwa [hhist]
    · rw [hhist]
      exact hcleared.snoc ev
  · exact Or.inr (hkeep (lt_length_of_getElem? hold) hpending hearly)

/-- The event stays pending, since no tick comes to it: those that have the lock have read the clock
too early, and no wait fails. Only a `ClearDelayedEvent` can take it away, and then that is in the
history. -/
theorem Waiting.step (h : Waiting e timeout s) (hcalm : CalmSince e s a)
    (hearly : EarlySince e timeout s a) (hE : Effect s a s') : Waiting e timeout s' := by
  cases hE with
  | aside tick pending hist stoped_ =>
    refine h.keep ?_ fun _ hmem ht => ⟨by rwa [pending], by rwa [tick]⟩
    rcases hist with hist | ⟨ev, hev, hist⟩
    · exact Or.inl hist
    · refine Or.inr ⟨ev, ?_, hist⟩
      rintro t rfl
      cases hev
  | inserted timeout' idle tick pending hist stoped_ =>
    obtain ⟨before, after, hpending, hpending', -, -⟩ := pending
    have hnone : ∀ w t, s'.tick = some (w, t) → t < timeout := by
      intro w t ht
      cases tick.symm.trans ht
    intro hacc
    rw [hist] at hacc
    rcases getElem?_snoc.mp hacc with hold | ⟨rfl, heq⟩
    · rcases h hold with hcleared | ⟨hmem, -⟩
      · rw [hist]
        exact Or.inl (hcleared.snoc _)
      · refine Or.inr ⟨?_, hnone⟩
        rw [hpending] at hmem
        rw [hpending', List.mem_append, List.mem_cons]
        rcases List.mem_append.mp hmem with hmem | hmem
        · exact Or.inl hmem
        · exact Or.inr (Or.inr hmem)
    · obtain rfl := Event.accepted.inj heq
      refine Or.inr ⟨?_, hnone⟩
      rw [hpending']
      exact List.mem_append_right _ List.mem_cons_self
  | cleared idle tick pending hist stoped_ =>
    intro hacc
    have hev : ∀ t, Event.cleared ≠ .accepted t := fun _ => nofun
    have hlt : e < s.hist.length := by
      rw [hist] at hacc
      exact lt_length_of_getElem? (accepted_of_snoc hev hacc)
    refine Or.inl ⟨s.hist.length, hlt, ?_⟩
    rw [hist]
    exact getElem?_length_snoc
  | failed calm idle tick pending hist stoped_ =>
    refine h.keep (Or.inl hist) fun hlt _ _ => ?_
    rw [hcalm hlt] at calm
    cases calm
  | locked w t action worker idle tick pending hist stoped_ =>
    refine h.keep (Or.inl hist) fun hlt hmem _ => ⟨by rwa [pending], ?_⟩
    intro w' t' ht
    obtain ⟨rfl, rfl⟩ := Prod.mk.inj (Option.some.inj (tick.symm.trans ht))
    refine hearly hlt t ?_
    rw [action, State.locksWith, worker]
    rfl
  | released w t action busy tick pending late hist stoped_ =>
    refine h.keep (Or.inl hist) fun _ hmem _ => ⟨by rwa [pending], ?_⟩
    intro w' t' ht
    cases tick.symm.trans ht
  | posted w t x busy tick pending due running hist stoped_ =>
    have hev : ∀ t', Event.posted x.2 t ≠ .accepted t' := fun _ => nofun
    refine h.keep (Or.inr ⟨_, hev, hist⟩) fun _ hmem ht => ⟨?_, by rw [tick, ← busy]; exact ht⟩
    rw [pending] at hmem
    rcases List.mem_cons.mp hmem with rfl | hmem
    · -- the tick that posts has not read the deadline of the event
      exact absurd due (Nat.not_le.mpr (ht w t busy))
    · exact hmem
  | dropped w t x busy tick pending due stopped hist stoped_ =>
    refine h.keep (Or.inl hist) fun _ hmem ht => ⟨?_, by rw [tick, ← busy]; exact ht⟩
    rw [pending] at hmem
    rcases List.mem_cons.mp hmem with rfl | hmem
    · exact absurd due (Nat.not_le.mpr (ht w t busy))
    · exact hmem

end Waiting

/-- The history only grows. -/
theorem Effect.hist_le {s s' : State} {a : Action} (h : Effect s a s') :
    s.hist.length ≤ s'.hist.length := by
  have hsnoc : ∀ {ev : Event}, s'.hist = s.hist ++ [ev] → s.hist.length ≤ s'.hist.length := by
    intro ev heq
    rw [heq, List.length_append]
    exact Nat.le_add_right _ _
  cases h with
  | aside tick pending hist stoped_ =>
    rcases hist with hist | ⟨ev, -, hist⟩
    · exact Nat.le_of_eq (congrArg List.length hist.symm)
    · exact hsnoc hist
  | inserted timeout idle tick pending hist stoped_ => exact hsnoc hist
  | cleared idle tick pending hist stoped_ => exact hsnoc hist
  | posted w t x busy tick pending due running hist stoped_ => exact hsnoc hist
  | failed calm idle tick pending hist stoped_ =>
    exact Nat.le_of_eq (congrArg List.length hist.symm)
  | locked w t action worker idle tick pending hist stoped_ =>
    exact Nat.le_of_eq (congrArg List.length hist.symm)
  | released w t action busy tick pending late hist stoped_ =>
    exact Nat.le_of_eq (congrArg List.length hist.symm)
  | dropped w t x busy tick pending due stopped hist stoped_ =>
    exact Nat.le_of_eq (congrArg List.length hist.symm)

theorem calm_of_calmSince {n e : Nat} {s : State} {bs : List Action} (hB : Base s)
    (he : e < s.hist.length) (h : (queue n).MeetsFrom (CalmSince e) s bs) :
    (queue n).MeetsFrom (fun s a => s.calm a = true) s bs := by
  induction bs generalizing s with
  | nil => trivial
  | cons b bs ih =>
    refine ⟨h.1 he, fun s' hs' => ?_⟩
    obtain ⟨hB', hE⟩ := hB.step hs'
    exact ih hB' (Nat.lt_of_lt_of_le he hE.hist_le) (h.2 s' hs')

/-- Until a late tick has taken the lock, an event waits for it. -/
theorem waiting_of_run {n e timeout : Nat} {as : List Action} {s : State}
    (hrun : (queue n).run as = some s) (hcalm : (queue n).Meets (CalmSince e) as)
    (hearly : (queue n).Meets (EarlySince e timeout) as) : Waiting e timeout s := by
  have hboth : (queue n).Meets (fun s a => CalmSince e s a ∧ EarlySince e timeout s a) as :=
    fun pre a post t he ht => ⟨hcalm pre a post t he ht, hearly pre a post t he ht⟩
  have hinv : Base s ∧ Waiting e timeout s := by
    refine hboth.inv (I := fun s => Base s ∧ Waiting e timeout s)
      ⟨Base.init n, fun hacc => ?_⟩ ?_ hrun
    · cases hacc
    · intro s a s' hI hok hs
      obtain ⟨hB', hE⟩ := hI.1.step hs
      exact ⟨hB', hI.2.step hok.1 hok.2 hE⟩
  exact hinv.2

/-! ## On time, once and in order

All of it together, for the call that brought the event: its deadline is what the caller read from
the clock and what it asked for. -/

/-- What a tick with reading `t` has done from `s` to `s'`, the schedule `as` being what led to `s`
and `bs` the tick itself. The deadline of an event is that of its call. `nothing_due` is about the
end of the tick, `posted` about the events that were due before it and not cleared. -/
structure OnTime (n t : Nat) (as bs : List Action) (s s' : State) (gap : List Event) : Prop where
  hist : s'.hist = s.hist ++ gap
  reading : ∀ e t', Event.posted e t' ∈ gap → t' = t
  ordered : (postedIn gap).Pairwise fun e e' =>
    ∀ curr_time delayed_second curr_time' delayed_second',
      Called n as e curr_time delayed_second → Called n as e' curr_time' delayed_second' →
        Earlier (deadline curr_time delayed_second, e) (deadline curr_time' delayed_second', e')
  nothing_due : ∀ timeout e, s'.delay_eventtab_.At timeout e → t < timeout ∧
    ∃ curr_time delayed_second, Called n (as ++ bs) e curr_time delayed_second ∧
      deadline curr_time delayed_second = timeout
  posted : ∀ e curr_time delayed_second, Called n as e curr_time delayed_second →
    deadline curr_time delayed_second ≤ t →
    s.stoped_ = false → (queue n).Meets (CalmSince e) (as ++ bs) →
    (queue n).Meets (EarlySince e (deadline curr_time delayed_second)) as →
    ¬ ClearedAfter s.hist e →
      e ∉ postedIn s.hist ∧ Event.posted e t ∈ gap ∧ (postedIn s'.hist).count e = 1

theorem Tick.run {n w t : Nat} {as mid : List Action} {s s' : State}
    (h : Tick n w t s mid s') (hrun : (queue n).run as = some s) :
    (queue n).run (as ++ .work w :: (mid ++ [.work w])) = some s' := by
  obtain ⟨-, first, last, hfirst, hmid, -, hlast, -⟩ := h
  refine Machine.run_append.mpr ⟨s, hrun, ?_⟩
  rw [Machine.runFrom_cons]
  show ((s.step (.work w)).bind fun s' => (queue n).runFrom s' (mid ++ [.work w])) = some s'
  rw [hfirst]
  exact Machine.runFrom_snoc hmid hlast

/-- A tick posts an event that waits for it. -/
theorem Tick.posts {n w t e timeout : Nat} {as mid : List Action} {s s' : State}
    {gap : List Event} (htick : Tick n w t s mid s') (hrun : (queue n).run as = some s)
    (hgap : s'.hist = s.hist ++ gap) (hlate : ∀ x ∈ s'.pending, t < x.1)
    (hacc : s.hist[e]? = some (.accepted timeout)) (hdue : timeout ≤ t) (hst : s.stoped_ = false)
    (hcalm : (queue n).Meets (CalmSince e) (as ++ .work w :: (mid ++ [.work w])))
    (hearly : (queue n).Meets (EarlySince e timeout) as) (hclear : ¬ ClearedAfter s.hist e) :
    e ∉ postedIn s.hist ∧ Event.posted e t ∈ gap ∧ (postedIn s'.hist).count e = 1 := by
  obtain ⟨hB, hL⟩ := Machine.Reachable.inv (listed_inductive n) ⟨as, hrun⟩
  have hsegment : (queue n).MeetsFrom (fun s a => s.calm a = true) s
      (.work w :: (mid ++ [.work w])) :=
    calm_of_calmSince hB (lt_length_of_getElem? hacc) (hcalm.rest hrun)
  obtain ⟨⟨taken, gap', htaken⟩, -, -⟩ := htick.taken (C := True) hB fun _ => ⟨hst, hsegment⟩
  obtain rfl : gap' = gap := List.append_cancel_left (htaken.hist.symm.trans hgap)
  obtain ⟨hmem, -⟩ := (waiting_of_run hrun hcalm.of_append hearly hacc).resolve_left hclear
  -- it was pending, and nothing that is due is so any more
  have hin : (timeout, e) ∈ taken := by
    have hmem' := hmem
    rw [htaken.pending] at hmem'
    rcases List.mem_append.mp hmem' with h | h
    · exact h
    · exact absurd (hlate _ h) (Nat.not_lt.mpr hdue)
  have hposted : e ∈ postedIn gap' := by
    rw [(htaken.all trivial).2]
    exact List.mem_map.mpr ⟨_, hin, rfl⟩
  obtain ⟨t', ht'⟩ := mem_postedIn.mp hposted
  obtain rfl := htaken.reading e t' ht'
  refine ⟨hL.unposted _ hmem, ht', ?_⟩
  have honce : (postedIn s'.hist).Nodup :=
    (Machine.Reachable.inv (listed_inductive n) ⟨_, htick.run hrun⟩).2.once
  refine List.count_eq_one_of_mem honce ?_
  rw [hgap, postedIn_append]
  exact List.mem_append_right _ hposted

/-- **Delayed events are posted on time, once and in order.** In every state of every run, an
event that was posted was due, and no event was posted twice: its deadline is what its call had
read from the clock and the delay of the call, in nanoseconds. What the history says was posted is
what was handed over to the context, and it has the reading of the tick that did it; a tick that
takes the lock goes by what the clock said when its worker read it. A tick posts with its own
reading of the clock and in order of deadline, then of acceptance; it leaves nothing that is due in
the table; and it posts an event if it is the first tick that takes the lock after the event was
accepted with a reading at or past its deadline, unless `ClearDelayedEvent` came first, the queue
was stopped or a wait failed. -/
theorem delayed_events_on_time (n : Nat) (as : List Action) (s : State)
    (hrun : (queue n).run as = some s) :
    (∀ e t, Event.posted e t ∈ s.hist → PostedAt n as e t ∧ ∃ curr_time delayed_second,
      Called n as e curr_time delayed_second ∧ curr_time + delayed_second * 10 ^ 9 ≤ t) ∧
    postedIn s.hist = handedOver n as ∧ (postedIn s.hist).Nodup ∧
    (∀ w t, s.worker_threads_[w]? = some (.lock t) → TickRead n as w t) ∧
    ∀ w t mid s', Tick n w t s mid s' →
      ∃ gap, OnTime n t as (.work w :: (mid ++ [.work w])) s s' gap := by
  obtain ⟨hB, hL⟩ := Machine.Reachable.inv (listed_inductive n) ⟨as, hrun⟩
  refine ⟨?_, postedIn_eq_handedOver hrun, hL.once,
    fun w t hw => tickRead_of_run hrun hw rfl, ?_⟩
  · intro e t hposted
    obtain ⟨timeout, hacc, hle⟩ := hL.due e t hposted
    obtain ⟨curr_time, delayed_second, hcalled, rfl⟩ := (accepted_iff_called hrun).mp hacc
    exact ⟨postedAt_of_run hrun hposted, curr_time, delayed_second, hcalled, hle⟩
  intro w t mid s' htick
  obtain ⟨⟨taken, gap, htaken⟩, hlate, hitems⟩ := htick.taken (C := False) hB False.elim
  have hrun' := htick.run hrun
  have htaken_mem : ∀ x ∈ taken, x ∈ s.pending := by
    intro x hx
    rw [htaken.pending]
    exact List.mem_append_left _ hx
  have hordered : taken.Pairwise Earlier := by
    have hord := hL.ordered
    rw [htaken.pending] at hord
    exact (List.pairwise_append.mp hord).1
  refine ⟨gap, htaken.hist, htaken.reading, ?_, ?_, ?_⟩
  · refine List.Pairwise.sublist htaken.posted (List.pairwise_map.mpr ?_)
    refine hordered.imp_of_mem ?_
    intro x y hx hy hxy r d r' d' hcalled hcalled'
    -- the deadlines of the calls are those under which the events were pending
    have hacc := hcalled.accepted hrun
    have hacc' := hcalled'.accepted hrun
    rw [hL.known x (htaken_mem x hx)] at hacc
    rw [hL.known y (htaken_mem y hy)] at hacc'
    rw [← Event.accepted.inj (Option.some.inj hacc), ← Event.accepted.inj (Option.some.inj hacc')]
    exact hxy
  · intro timeout e hat
    rw [← Agenda.mem_items, ← hitems] at hat
    obtain ⟨-, hL'⟩ := Machine.Reachable.inv (listed_inductive n) ⟨_, hrun'⟩
    exact ⟨hlate _ hat, (accepted_iff_called hrun').mp (hL'.known _ hat)⟩
  · intro e r d hcalled hdue hst hcalm hearly hclear
    exact htick.posts hrun htaken.hist hlate (hcalled.accepted hrun) hdue hst hcalm hearly hclear

/-- `Start(1)`, after three seconds an event with a delay of two, and after two more seconds a tick
that is about to lock. -/
def aboutToLock : List Action :=
  [.start 0 1, .next 0, .next 0, .next 0, .next 0, .next 0, .next 0, .next 0,
   .advance 3000000000, .postDelayedEvent 0 2, .next 0, .next 0, .advance 2000000000, .expire,
   .test 0, .take 0 0, .work 0]

def beforeTick : State := ((queue 1).run aboutToLock).get (by decide)

def lockTaken : State := (beforeTick.step (.work 0)).get (by decide)

def tableEmpty : State := ((queue 1).runFrom lockTaken [.work 0, .work 0, .work 0]).get (by decide)

def afterTick : State := (tableEmpty.step (.work 0)).get (by decide)

theorem tick_beforeTick :
    Tick 1 0 5000000000 beforeTick [.work 0, .work 0, .work 0] afterTick := by
  refine ⟨by decide, lockTaken, tableEmpty, ?_, ?_, by decide, ?_, by decide⟩
  · exact (Option.some_get _).symm
  · exact (Option.some_get _).symm
  · exact (Option.some_get _).symm

/-- The second `.next 0` behind the call puts the event into the table, the first one has read the
clock. -/
theorem called_beforeTick : Called 1 aboutToLock 1 3000000000 2 := by
  let pre := aboutToLock.take 10
  let atNow : State := ((queue 1).run pre).get (by decide)
  let atInsert : State := ((queue 1).run (aboutToLock.take 11)).get (by decide)
  refine ⟨aboutToLock.take 11, 0, aboutToLock.drop 12, atInsert, by decide,
    (Option.some_get _).symm, by decide, ?_⟩
  exact ⟨pre, [], atNow, by decide, by decide, (Option.some_get _).symm, by decide, by decide⟩

theorem delayed_events_on_time_tick :
    Called 1 aboutToLock 1 3000000000 2 ∧ TickRead 1 aboutToLock 0 5000000000 ∧
      Event.posted 1 5000000000 ∈ afterTick.hist ∧ (postedIn afterTick.hist).count 1 = 1 := by
  have hrun : (queue 1).run aboutToLock = some beforeTick := (Option.some_get _).symm
  obtain ⟨-, -, -, hread, htick⟩ := delayed_events_on_time 1 aboutToLock beforeTick hrun
  obtain ⟨gap, hon⟩ := htick 0 5000000000 _ afterTick tick_beforeTick
  have hclear : ¬ ClearedAfter beforeTick.hist 1 := by
    rintro ⟨j, hj, hcleared⟩
    have hlen : beforeTick.hist.length = 2 := by decide
    have hlt := lt_length_of_getElem? hcleared
    omega
  obtain ⟨-, hmem, hcount⟩ := hon.posted 1 3000000000 2 called_beforeTick (by decide) (by decide)
    (by decide) (by decide) hclear
  refine ⟨called_beforeTick, hread 0 5000000000 tick_beforeTick.1, ?_, hcount⟩
  rw [hon.hist]
  exact List.mem_append_right _ hmem

end CppDone.Timer
