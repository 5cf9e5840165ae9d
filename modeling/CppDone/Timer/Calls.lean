import CppDone.Timer.Table

/-!
# The calls of `PostDelayedEvent`

The deadline of an event is what its `PostDelayedEvent` has read from the clock, and the delay it
was called with. The code adds the two and keeps the sum only, which is all that the table and the
history show. Where they came from is found in the schedule: the caller's step that read the clock,
and the next step of the same caller, in which the event was put into the table. An entry of the
history says `accepted` just when there are these two steps, and says the right deadline
(`accepted_iff_called`).

Reading the clock and inserting are two steps, between which any other thread may go on, a
`ClearDelayedEvent` or a whole tick included. An event may so be overdue when it comes into the
table.
-/

set_option autoImplicit false

namespace CppDone.Timer

/-- In nanoseconds. -/
def deadline (curr_time delayed_second : Nat) : Nat := curr_time + delayed_second * 10 ^ 9

/-- In the last of its steps caller `c` has read `curr_time` from the clock, in a
`PostDelayedEvent(delayed_second)`. The schedule is split at that step, so the reading is that of
the state before it. -/
def HasRead (n : Nat) (as : List Action) (c curr_time delayed_second : Nat) : Prop :=
  ∃ pre post s, as = pre ++ .next c :: post ∧ .next c ∉ post ∧ (queue n).run pre = some s ∧
    s.callers[c]? = some (.now delayed_second) ∧ s.clock = curr_time

/-- A `PostDelayedEvent(delayed_second)` that has read `curr_time` from the clock has accepted its
event, which became entry `e` of the history. -/
def Called (n : Nat) (as : List Action) (e curr_time delayed_second : Nat) : Prop :=
  ∃ pre c post s, as = pre ++ .next c :: post ∧ (queue n).run pre = some s ∧ s.hist.length = e ∧
    HasRead n pre c curr_time delayed_second

/-! ## Where a step leaves the callers

Who moves which caller. A caller about to insert got there by its own reading of the clock, one step
before. -/

section Callers

variable {s s' : State} {c w : Nat} {a : Action}

/-- A caller that goes on leaves the other ones where they are, and comes to the table from the
clock only. -/
theorem nextAt_callers {pc : Caller} (hs : s.nextAt c pc = some s') :
    ∃ pc', s'.callers = s.callers.set c pc' ∧ ∀ timeout, pc' = .insert timeout →
      ∃ delayed_second, pc = .now delayed_second ∧ timeout = deadline s.clock delayed_second := by
  unfold State.nextAt at hs
  -- only `now` leads to `insert`, and what it computes is the deadline
  cases pc with
  | idle => cases hs
  | startLock _ | stopLock =>
    dsimp only at hs
    split at hs
    · cases hs
    · obtain rfl := (Option.some.inj hs).symm
      exact ⟨_, rfl, nofun⟩
  | join =>
    dsimp only at hs
    split at hs
    · obtain rfl := (Option.some.inj hs).symm
      exact ⟨_, rfl, nofun⟩
    · cases hs
  | spawn left =>
    cases left with
    | zero =>
      obtain rfl := (Option.some.inj hs).symm
      exact ⟨_, rfl, nofun⟩
    | succ left =>
      obtain rfl := (Option.some.inj hs).symm
      exact ⟨_, rfl, nofun⟩
  | insert timeout =>
    obtain ⟨-, rfl⟩ := State.insert_cases hs
    exact ⟨_, rfl, nofun⟩
  | restart _ | await | start | stop | cancel | halt | unlock =>
    obtain rfl := (Option.some.inj hs).symm
    exact ⟨_, rfl, nofun⟩
  | now delayed_second =>
    obtain rfl := (Option.some.inj hs).symm
    refine ⟨_, rfl, fun timeout h => ⟨delayed_second, rfl, ?_⟩⟩
    exact (Caller.insert.inj h).symm

theorem workAt_callers {pc : Worker} (hs : s.workAt w pc = some s') :
    s'.callers = s.callers := by
  cases pc with
  | looping | running | exited => cases hs
  | event e | now | expires | wait =>
    obtain rfl := (Option.some.inj hs).symm
    rfl
  | clear =>
    obtain ⟨-, rfl⟩ := State.clear_cases hs
    rfl
  | lock t =>
    obtain ⟨-, rfl⟩ := State.lock_cases hs
    rfl
  | check t =>
    obtain ⟨timeout, events, -, -, rfl⟩ | ⟨-, rfl⟩ := State.check_cases hs
    · rfl
    · rfl
  | post t rest =>
    cases rest with
    | nil =>
      obtain rfl := (Option.some.inj hs).symm
      rfl
    | cons e rest =>
      obtain rfl := (Option.some.inj hs).symm
      rcases State.postEvent_cases s e t with ⟨-, hpost⟩ | ⟨-, hpost⟩
      · rw [hpost]
        rfl
      · rw [hpost]
        rfl

/-- A step leaves the callers alone, or one of them begins a call, or goes on in it. -/
theorem callers_step (hs : s.step a = some s') :
    s'.callers = s.callers ∨
    (∃ c pc', s.callers[c]? = some .idle ∧ (∀ timeout, pc' ≠ .insert timeout) ∧
      s'.callers = s.callers.set c pc') ∨
    ∃ c pc, a = .next c ∧ s.callers[c]? = some pc ∧ s.nextAt c pc = some s' := by
  -- a caller is moved by its own steps, and the workers have no part in that
  cases a with
  | start d k =>
    obtain ⟨hd, rfl | ⟨-, rfl⟩⟩ := State.start_cases hs
    · exact Or.inl rfl
    · exact Or.inr (Or.inl ⟨d, .startLock k, hd, nofun, rfl⟩)
  | stop d =>
    obtain ⟨hd, rfl | ⟨-, rfl⟩⟩ := State.stop_cases hs
    · exact Or.inl rfl
    · exact Or.inr (Or.inl ⟨d, .stopLock, hd, nofun, rfl⟩)
  | postDelayedEvent d k =>
    obtain ⟨hd, rfl | ⟨-, rfl⟩⟩ := State.postDelayedEvent_cases hs
    · exact Or.inl rfl
    · exact Or.inr (Or.inl ⟨d, .now k, hd, nofun, rfl⟩)
  | clearDelayedEvent d =>
    obtain ⟨-, -, rfl⟩ := State.clearDelayedEvent_cases hs
    exact Or.inl rfl
  | next d =>
    obtain ⟨pd, hd, hs⟩ := State.next_cases hs
    exact Or.inr (Or.inr ⟨d, pd, rfl, hd, hs⟩)
  | test w =>
    obtain ⟨-, rfl | rfl⟩ := State.test_cases hs
    · exact Or.inl rfl
    · exact Or.inl rfl
  | take w i =>
    obtain ⟨handler, -, -, -, rfl⟩ := State.take_cases hs
    exact Or.inl rfl
  | leave w =>
    obtain ⟨-, rfl⟩ := State.leave_cases hs
    exact Or.inl rfl
  | work w =>
    obtain ⟨pc, -, hs⟩ := State.work_cases hs
    exact Or.inl (workAt_callers hs)
  | expire =>
    obtain ⟨-, rfl⟩ := State.expire_cases hs
    exact Or.inl rfl
  | advance d =>
    obtain rfl := (Option.some.inj hs).symm
    exact Or.inl rfl

/-- Only its own step takes a caller on in its call. -/
theorem caller_stays {pc : Caller} (hc : s.callers[c]? = some pc) (hpc : pc ≠ .idle)
    (ha : a ≠ .next c) (hs : s.step a = some s') : s'.callers[c]? = some pc := by
  rcases callers_step hs with hsame | ⟨d, pc', hd, -, hset⟩ | ⟨d, pd, rfl, hd, hnext⟩
  · rwa [hsame]
  · rw [hset]
    exact getElem?_set_of_ne hd hc hpc.symm _
  · obtain ⟨pc', hset, -⟩ := nextAt_callers hnext
    have hne : d ≠ c := by
      rintro rfl
      exact ha rfl
    rw [hset, List.getElem?_set_ne hne, hc]

/-- A caller about to put its event into the table was there before, or has just read the clock. -/
theorem insert_of_step {timeout : Nat} (hs : s.step a = some s')
    (hc : s'.callers[c]? = some (.insert timeout)) :
    s.callers[c]? = some (.insert timeout) ∧ a ≠ .next c ∨
      ∃ delayed_second, a = .next c ∧ s.callers[c]? = some (.now delayed_second) ∧
        timeout = deadline s.clock delayed_second := by
  have hown : a = .next c → ∃ delayed_second, a = .next c ∧
      s.callers[c]? = some (.now delayed_second) ∧
        timeout = deadline s.clock delayed_second := by
    rintro rfl
    obtain ⟨pc, hpc, hnext⟩ := State.next_cases hs
    obtain ⟨pc', hset, hinsert⟩ := nextAt_callers hnext
    rw [hset, List.getElem?_set_self (lt_length_of_getElem? hpc)] at hc
    obtain ⟨delayed_second, rfl, htimeout⟩ := hinsert timeout (Option.some.inj hc)
    exact ⟨delayed_second, rfl, hpc, htimeout⟩
  -- its own step is the reading; any other one leaves it at the insertion
  by_cases ha : a = .next c
  · exact Or.inr (hown ha)
  · refine Or.inl ⟨?_, ha⟩
    rcases callers_step hs with hsame | ⟨d, pc', -, hno, hset⟩ | ⟨d, pd, rfl, -, hnext⟩
    · rwa [← hsame]
    · rw [hset] at hc
      rcases getElem?_set_cases hc with ⟨-, heq⟩ | ⟨-, hc⟩
      · exact absurd heq.symm (hno timeout)
      · exact hc
    · obtain ⟨pc', hset, -⟩ := nextAt_callers hnext
      rw [hset] at hc
      rcases getElem?_set_cases hc with ⟨rfl, -⟩ | ⟨-, hc⟩
      · exact absurd rfl ha
      · exact hc

end Callers

/-! ## Where an entry of the history comes from

The history only grows, and an entry that says that an event was accepted was written by an
insertion. So it can be traced back through the schedule to the call it belongs to. -/

section Calls

variable {n c e r d timeout : Nat} {as bs : List Action} {s s' : State} {a : Action}

theorem HasRead.snoc (h : HasRead n as c r d) (ha : a ≠ .next c) :
    HasRead n (as ++ [a]) c r d := by
  obtain ⟨pre, post, s, rfl, hpost, hs⟩ := h
  refine ⟨pre, post ++ [a], s, by simp, ?_, hs⟩
  rw [List.mem_append, not_or, List.mem_singleton]
  exact ⟨hpost, ha.symm⟩

theorem Called.append (h : Called n as e r d) (bs : List Action) : Called n (as ++ bs) e r d := by
  obtain ⟨pre, c, post, s, rfl, hs⟩ := h
  exact ⟨pre, c, post ++ bs, s, by simp, hs⟩

/-- What the schedule so far says of the callers and of the history. A caller that is about to
insert has read the clock in its last step, and an entry of the history that accepts an event was an
insertion of this kind. -/
structure Traced (n : Nat) (as : List Action) (s : State) : Prop where
  read : ∀ c timeout, s.callers[c]? = some (.insert timeout) →
    ∃ r d, HasRead n as c r d ∧ deadline r d = timeout
  accepted : ∀ e timeout, s.hist[e]? = some (.accepted timeout) →
    ∃ r d, Called n as e r d ∧ deadline r d = timeout

theorem base_inductive (n : Nat) : (queue n).Inductive Base where
  init := Base.init n
  step hB hs := (hB.step hs).1

theorem Traced.step (h : Traced n as s) (hrun : (queue n).run as = some s)
    (hs : s.step a = some s') : Traced n (as ++ [a]) s' := by
  have hB : Base s := Machine.Reachable.inv (base_inductive n) ⟨as, hrun⟩
  refine ⟨fun c timeout hc => ?_, fun e timeout hacc => ?_⟩
  · rcases insert_of_step hs hc with ⟨hold, ha⟩ | ⟨d, rfl, hnow, rfl⟩
    · obtain ⟨r, d, hread, hd⟩ := h.read c timeout hold
      exact ⟨r, d, hread.snoc ha, hd⟩
    · exact ⟨s.clock, d, ⟨as, [], s, rfl, List.not_mem_nil, hrun, hnow, rfl⟩, rfl⟩
  · have hold : s.hist[e]? = some (.accepted timeout) →
        ∃ r d, Called n (as ++ [a]) e r d ∧ deadline r d = timeout := by
      intro hacc
      obtain ⟨r, d, hcalled, hd⟩ := h.accepted e timeout hacc
      exact ⟨r, d, hcalled.append [a], hd⟩
    cases (hB.step hs).2 with
    | aside tick pending hist =>
      rcases hist with hist | ⟨ev, hev, hist⟩
      · exact hold (hist ▸ hacc)
      · rw [hist] at hacc
        refine hold (accepted_of_snoc ?_ hacc)
        rintro t rfl
        cases hev
    | inserted timeout' idle tick pending hist stoped_ caller =>
      rw [hist] at hacc
      rcases getElem?_snoc.mp hacc with hacc | ⟨rfl, heq⟩
      · exact hold hacc
      · -- the caller has read the clock, and this is its next step
        obtain rfl := Event.accepted.inj heq
        obtain ⟨c, rfl, hc⟩ := caller
        obtain ⟨r, d, hread, hd⟩ := h.read c _ hc
        exact ⟨r, d, ⟨as, c, [], s, rfl, hrun, rfl, hread⟩, hd⟩
    | cleared idle tick pending hist =>
      have hev : ∀ t, Event.cleared ≠ .accepted t := fun _ => nofun
      rw [hist] at hacc
      exact hold (accepted_of_snoc hev hacc)
    | posted w t x busy tick pending due running hist =>
      have hev : ∀ t', Event.posted x.2 t ≠ .accepted t' := fun _ => nofun
      rw [hist] at hacc
      exact hold (accepted_of_snoc hev hacc)
    | failed calm idle tick pending hist => exact hold (hist ▸ hacc)
    | locked w t action worker idle tick pending hist => exact hold (hist ▸ hacc)
    | released w t action busy tick pending late hist => exact hold (hist ▸ hacc)
    | dropped w t x busy tick pending due stopped hist => exact hold (hist ▸ hacc)

theorem traced_of_run (hrun : (queue n).run as = some s) : Traced n as s := by
  refine Machine.run_induction (P := Traced n) ⟨?_, ?_⟩ ?_ hrun
  · intro c timeout hc
    -- nobody has been called yet
    have hidle : Caller.insert timeout = .idle :=
      List.eq_of_mem_replicate (List.mem_of_getElem? hc)
    cases hidle
  · exact nofun
  · exact fun as s a s' hrun h hs => h.step hrun hs

/-- The history keeps what it has. -/
theorem Effect.hist_keeps (h : Effect s a s') {ev : Event} (hev : s.hist[e]? = some ev) :
    s'.hist[e]? = some ev := by
  have hsnoc : ∀ {ev' : Event}, s'.hist = s.hist ++ [ev'] → s'.hist[e]? = some ev := by
    intro ev' heq
    rw [heq]
    exact getElem?_snoc.mpr (Or.inl hev)
  cases h with
  | aside tick pending hist =>
    rcases hist with hist | ⟨ev', -, hist⟩
    · rwa [hist]
    · exact hsnoc hist
  | inserted timeout idle tick pending hist => exact hsnoc hist
  | cleared idle tick pending hist => exact hsnoc hist
  | posted w t x busy tick pending due running hist => exact hsnoc hist
  | failed calm idle tick pending hist => rwa [hist]
  | locked w t action worker idle tick pending hist => rwa [hist]
  | released w t action busy tick pending late hist => rwa [hist]
  | dropped w t x busy tick pending due stopped hist => rwa [hist]

/-- Who has read the clock is about to put its event into the table. -/
theorem HasRead.caller (h : HasRead n as c r d) (hrun : (queue n).run as = some s) :
    s.callers[c]? = some (.insert (deadline r d)) := by
  obtain ⟨pre, post, t, rfl, hpost, ht, hc, rfl⟩ := h
  obtain ⟨t', ht', hrest⟩ := Machine.run_append.mp hrun
  obtain rfl : t = t' := Option.some.inj (ht.symm.trans ht')
  obtain ⟨u, hu, hrest⟩ := Option.bind_eq_some_iff.mp hrest
  have hstart : u.callers[c]? = some (.insert (deadline t.clock d)) := by
    obtain ⟨pc, hpc, hnext⟩ := State.next_cases hu
    obtain rfl : .now d = pc := Option.some.inj (hc.symm.trans hpc)
    obtain rfl := (Option.some.inj hnext).symm
    exact List.getElem?_set_self (lt_length_of_getElem? hc)
  have hother : ∀ a ∈ post, a ≠ .next c := by
    rintro a hmem rfl
    exact hpost hmem
  have hcall : Caller.insert (deadline t.clock d) ≠ .idle := nofun
  exact Machine.runFrom_inv_of
    (I := fun s => s.callers[c]? = some (.insert (deadline t.clock d)))
    (fun hc ha hs => caller_stays hc hcall ha hs) hother hstart hrest

theorem Called.accepted (h : Called n as e r d) (hrun : (queue n).run as = some s) :
    s.hist[e]? = some (.accepted (deadline r d)) := by
  obtain ⟨pre, c, post, t, rfl, ht, rfl, hread⟩ := h
  obtain ⟨t', ht', hrest⟩ := Machine.run_append.mp hrun
  obtain rfl : t = t' := Option.some.inj (ht.symm.trans ht')
  obtain ⟨u, hu, hrest⟩ := Option.bind_eq_some_iff.mp hrest
  have hB : Base u := Machine.Reachable.inv (base_inductive n)
    (Machine.Reachable.step (a := .next c) ⟨pre, ht⟩ hu)
  have hstart : u.hist[t.hist.length]? = some (.accepted (deadline r d)) := by
    obtain ⟨pc, hpc, hnext⟩ := State.next_cases hu
    obtain rfl : .insert (deadline r d) = pc :=
      Option.some.inj ((hread.caller ht).symm.trans hpc)
    obtain ⟨-, rfl⟩ := State.insert_cases hnext
    exact getElem?_length_snoc
  have hend := Machine.runFrom_inv
    (I := fun s => Base s ∧ s.hist[t.hist.length]? = some (.accepted (deadline r d)))
    (fun hI hs => ⟨(hI.1.step hs).1, (hI.1.step hs).2.hist_keeps hI.2⟩) ⟨hB, hstart⟩ hrest
  exact hend.2

/-- **An accepted event has its call**, and that has its deadline. -/
theorem accepted_iff_called (hrun : (queue n).run as = some s) :
    s.hist[e]? = some (.accepted timeout) ↔ ∃ r d, Called n as e r d ∧ deadline r d = timeout := by
  constructor
  · exact (traced_of_run hrun).accepted e timeout
  · rintro ⟨r, d, hcalled, rfl⟩
    exact hcalled.accepted hrun

end Calls

end CppDone.Timer
