import CppDone.Timer.Calls
import CppDone.Lib.Log

/-!
# What a tick has read, and what it hands over

A tick works with what its worker read from the clock at its beginning, and a posted event is a
handler of the context. The history has the one in its entries and stands for the other. Both are
seen without it: the worker's step that read the clock is in the schedule, and what a step hands
over to the context is what it has added to the handlers that are ready. The entries `posted` of the
history are these, one for one and in their order (`postedIn_eq_handedOver`), and each has the right
reading (`postedAt_of_run`).

Between the reading and a post the worker may have waited for the lock, and time has gone on. So the
reading is what the clock said then, not what it says now.
-/

set_option autoImplicit false

namespace CppDone.Timer

/-- What a worker in its tick has read from the clock. It reads it before it has the lock. -/
def Worker.curr_time : Worker → Option Nat
  | .lock curr_time | .check curr_time | .post curr_time _ => some curr_time
  | _ => none

/-- In the handler it is in, worker `w` has read `t` from the clock: since that step it has taken no
other handler. -/
def TickRead (n : Nat) (as : List Action) (w t : Nat) : Prop :=
  ∃ pre post s, as = pre ++ .work w :: post ∧ (∀ i, .take w i ∉ post) ∧
    (queue n).run pre = some s ∧ s.worker_threads_[w]? = some .now ∧ s.clock = t

/-! ## Where a step leaves the workers

Who moves which worker. To a place in a tick it comes from the place before, and to the first of
them by reading the clock. -/

section Workers

variable {s s' : State} {c w t : Nat} {a : Action}

/-- A caller may spawn workers and join them, but it moves none. -/
theorem nextAt_workers {pc : Caller} (hs : s.nextAt c pc = some s') :
    s'.worker_threads_ = s.worker_threads_ ∨
      s'.worker_threads_ = s.worker_threads_ ++ [.looping] ∨ s'.worker_threads_ = [] := by
  cases pc with
  | idle => cases hs
  | startLock _ | stopLock =>
    unfold State.nextAt at hs
    dsimp only at hs
    split at hs
    · cases hs
    · obtain rfl := (Option.some.inj hs).symm
      exact Or.inl rfl
  | join =>
    unfold State.nextAt at hs
    dsimp only at hs
    split at hs
    · obtain rfl := (Option.some.inj hs).symm
      exact Or.inr (Or.inr rfl)
    · cases hs
  | spawn left =>
    cases left with
    | zero =>
      obtain rfl := (Option.some.inj hs).symm
      exact Or.inl rfl
    | succ left =>
      obtain rfl := (Option.some.inj hs).symm
      exact Or.inr (Or.inl rfl)
  | insert timeout =>
    obtain ⟨-, rfl⟩ := State.insert_cases hs
    exact Or.inl rfl
  | restart _ | await | start | stop | cancel | halt | unlock | now _ =>
    obtain rfl := (Option.some.inj hs).symm
    exact Or.inl rfl

/-- A worker that goes on in a handler moves itself, and what it has read stays with it. -/
theorem workAt_workers {pc : Worker} (hs : s.workAt w pc = some s') :
    ∃ pc', s'.worker_threads_ = s.worker_threads_.set w pc' ∧ ∀ t, pc'.curr_time = some t →
      pc.curr_time = some t ∨ pc = .now ∧ s.clock = t := by
  cases pc with
  | looping | running | exited => cases hs
  | event _ | expires | wait =>
    obtain rfl := (Option.some.inj hs).symm
    exact ⟨_, rfl, nofun⟩
  | clear =>
    obtain ⟨-, rfl⟩ := State.clear_cases hs
    exact ⟨_, rfl, nofun⟩
  | now =>
    obtain rfl := (Option.some.inj hs).symm
    exact ⟨_, rfl, fun t ht => Or.inr ⟨rfl, Option.some.inj ht⟩⟩
  | lock t =>
    obtain ⟨-, rfl⟩ := State.lock_cases hs
    exact ⟨_, rfl, fun _ ht => Or.inl ht⟩
  | check t =>
    obtain ⟨timeout, events, -, -, rfl⟩ | ⟨-, rfl⟩ := State.check_cases hs
    · exact ⟨_, rfl, fun _ ht => Or.inl ht⟩
    · exact ⟨_, rfl, nofun⟩
  | post t rest =>
    cases rest with
    | nil =>
      obtain rfl := (Option.some.inj hs).symm
      exact ⟨_, rfl, fun _ ht => Or.inl ht⟩
    | cons e rest =>
      obtain rfl := (Option.some.inj hs).symm
      refine ⟨.post t rest, ?_, fun _ ht => Or.inl ht⟩
      rcases State.postEvent_cases s e t with ⟨-, hpost⟩ | ⟨-, hpost⟩
      · rw [hpost]
        rfl
      · rw [hpost]
        rfl

/-- A worker in a tick had its reading before the step, and goes on in the same handler, or it has
just read the clock. -/
theorem curr_time_of_step {pc' : Worker} (hs : s.step a = some s')
    (hw : s'.worker_threads_[w]? = some pc') (ht : pc'.curr_time = some t) :
    (∃ pc, s.worker_threads_[w]? = some pc ∧ pc.curr_time = some t ∧ ∀ i, a ≠ .take w i) ∨
      a = .work w ∧ s.worker_threads_[w]? = some .now ∧ s.clock = t := by
  -- a worker that is moved to a place outside of a tick is another one
  have hother : ∀ (v : Nat) (q : Worker), q.curr_time = none →
      s'.worker_threads_ = s.worker_threads_.set v q → (∀ i, v ≠ w → a ≠ .take w i) →
      ∃ pc, s.worker_threads_[w]? = some pc ∧ pc.curr_time = some t ∧ ∀ i, a ≠ .take w i := by
    intro v q hq hset ha
    rw [hset] at hw
    rcases getElem?_set_cases hw with ⟨-, rfl⟩ | ⟨hne, hw⟩
    · rw [hq] at ht
      cases ht
    · exact ⟨pc', hw, ht, fun i => ha i (Ne.symm hne)⟩
  cases a with
  | start d k =>
    obtain ⟨-, rfl | ⟨-, rfl⟩⟩ := State.start_cases hs
    · exact Or.inl ⟨pc', hw, ht, fun _ => nofun⟩
    · exact Or.inl ⟨pc', hw, ht, fun _ => nofun⟩
  | stop d =>
    obtain ⟨-, rfl | ⟨-, rfl⟩⟩ := State.stop_cases hs
    · exact Or.inl ⟨pc', hw, ht, fun _ => nofun⟩
    · exact Or.inl ⟨pc', hw, ht, fun _ => nofun⟩
  | postDelayedEvent d k =>
    obtain ⟨-, rfl | ⟨-, rfl⟩⟩ := State.postDelayedEvent_cases hs
    · exact Or.inl ⟨pc', hw, ht, fun _ => nofun⟩
    · exact Or.inl ⟨pc', hw, ht, fun _ => nofun⟩
  | clearDelayedEvent d =>
    obtain ⟨-, -, rfl⟩ := State.clearDelayedEvent_cases hs
    exact Or.inl ⟨pc', hw, ht, fun _ => nofun⟩
  | next d =>
    obtain ⟨pd, -, hnext⟩ := State.next_cases hs
    rcases nextAt_workers hnext with hsame | hspawn | hjoined
    · exact Or.inl ⟨pc', hsame ▸ hw, ht, fun _ => nofun⟩
    · -- the new worker is at the head of its loop
      rw [hspawn] at hw
      rcases getElem?_snoc.mp hw with hw | ⟨-, rfl⟩
      · exact Or.inl ⟨pc', hw, ht, fun _ => nofun⟩
      · cases ht
    · rw [hjoined] at hw
      cases hw
  | test v =>
    obtain ⟨-, rfl | rfl⟩ := State.test_cases hs
    · exact Or.inl (hother v .exited rfl rfl fun _ _ => nofun)
    · exact Or.inl (hother v .running rfl rfl fun _ _ => nofun)
  | take v i =>
    obtain ⟨handler, -, -, -, rfl⟩ := State.take_cases hs
    have hnone : handler.execute.curr_time = none := by
      cases handler with
      | check error => cases error <;> rfl
      | event e => rfl
    refine Or.inl (hother v handler.execute hnone rfl ?_)
    rintro j hne heq
    exact hne (Action.take.inj heq).1
  | leave v =>
    obtain ⟨-, rfl⟩ := State.leave_cases hs
    exact Or.inl (hother v .looping rfl rfl fun _ _ => nofun)
  | work v =>
    obtain ⟨pc, hv, hwork⟩ := State.work_cases hs
    obtain ⟨q, hset, hread⟩ := workAt_workers hwork
    rw [hset] at hw
    rcases getElem?_set_cases hw with ⟨rfl, rfl⟩ | ⟨-, hw⟩
    · rcases hread t ht with hold | ⟨rfl, hclock⟩
      · exact Or.inl ⟨pc, hv, hold, fun _ => nofun⟩
      · exact Or.inr ⟨rfl, hv, hclock⟩
    · exact Or.inl ⟨pc', hw, ht, fun _ => nofun⟩
  | expire =>
    obtain ⟨-, rfl⟩ := State.expire_cases hs
    exact Or.inl ⟨pc', hw, ht, fun _ => nofun⟩
  | advance d =>
    obtain rfl := (Option.some.inj hs).symm
    exact Or.inl ⟨pc', hw, ht, fun _ => nofun⟩

end Workers

/-! ## The reading of a tick -/

section Reading

variable {n w t : Nat} {as : List Action} {s : State} {a : Action}

theorem TickRead.snoc (h : TickRead n as w t) (ha : ∀ i, a ≠ .take w i) :
    TickRead n (as ++ [a]) w t := by
  obtain ⟨pre, post, s, rfl, hpost, hs⟩ := h
  refine ⟨pre, post ++ [a], s, by simp, fun i => ?_, hs⟩
  rw [List.mem_append, not_or, List.mem_singleton]
  exact ⟨hpost i, (ha i).symm⟩

/-- **The reading of a tick** is what the clock said when its worker read it. -/
theorem tickRead_of_run {pc : Worker} (hrun : (queue n).run as = some s)
    (hw : s.worker_threads_[w]? = some pc) (ht : pc.curr_time = some t) : TickRead n as w t := by
  have hall : ∀ w t pc, s.worker_threads_[w]? = some pc → pc.curr_time = some t →
      TickRead n as w t := by
    refine Machine.run_induction
      (P := fun as s => ∀ w t pc, s.worker_threads_[w]? = some pc → pc.curr_time = some t →
        TickRead n as w t) ?_ ?_ hrun
    · -- there is no worker yet
      intro w t pc hw
      cases hw
    · intro as s a s' hrun ih hs w t pc' hw ht
      rcases curr_time_of_step hs hw ht with ⟨pc, hold, hread, ha⟩ | ⟨rfl, hnow, hclock⟩
      · exact (ih w t pc hold hread).snoc ha
      · exact ⟨as, [], s, rfl, fun _ => List.not_mem_nil, hrun, hnow, hclock⟩
  exact hall w t pc hw ht

end Reading

/-! ## What is handed over

What is posted to the context is put at the end of the handlers that are ready, so what a step has
handed over is what comes behind the ones that were there. Completed waits come there as well, but
they are no events. -/

/-- The event that was posted. -/
def Event.event? : Event → Option Nat
  | .posted e _ => some e
  | _ => none

/-- The events posted in a part of the history, in their order. -/
def postedIn (hist : List Event) : List Nat := hist.filterMap Event.event?

theorem postedIn_append (hist hist' : List Event) :
    postedIn (hist ++ hist') = postedIn hist ++ postedIn hist' := List.filterMap_append

theorem mem_postedIn {hist : List Event} {e : Nat} :
    e ∈ postedIn hist ↔ ∃ t, Event.posted e t ∈ hist := by
  rw [postedIn, List.mem_filterMap]
  constructor
  · rintro ⟨ev, hmem, hev⟩
    cases ev with
    | posted e' t =>
      obtain rfl := Option.some.inj hev
      exact ⟨t, hmem⟩
    | _ => cases hev
  · rintro ⟨t, hmem⟩
    exact ⟨.posted e t, hmem, rfl⟩

/-- The event that a handler is. -/
def Handler.event? : Handler → Option Nat
  | .event e => some e
  | .check _ => none

/-- The events among the handlers that have come to those that were ready. -/
def fresh (ready ready' : List Handler) : List Nat :=
  (ready'.drop ready.length).filterMap Handler.event?

/-- The events that a step hands over to the context. -/
def State.handed (s : State) (a : Action) : Option (List Nat) :=
  (s.step a).map fun s' => fresh s.io_context_.ready s'.io_context_.ready

/-- The events handed over to the context along a schedule, in their order. -/
def handedOver (n : Nat) (as : List Action) : List Nat :=
  ((queue n).emitted State.handed (queue n).init as).flatten

/-- A tick with reading `t` has handed over event `e` to the context. -/
def PostedAt (n : Nat) (as : List Action) (e t : Nat) : Prop :=
  ∃ pre w post s, as = pre ++ .work w :: post ∧ (queue n).run pre = some s ∧
    s.handed (.work w) = some [e] ∧ TickRead n pre w t

theorem fresh_self (ready : List Handler) : fresh ready ready = [] := by
  unfold fresh
  rw [List.drop_length]
  rfl

/-- Completed waits are not events. -/
theorem fresh_replicate (ready : List Handler) (k : Nat) (error : Bool) :
    fresh ready (ready ++ List.replicate k (.check error)) = [] := by
  unfold fresh
  rw [List.drop_left, List.filterMap_eq_nil_iff]
  intro h hmem
  rw [List.eq_of_mem_replicate hmem]
  rfl

theorem fresh_eraseIdx (ready : List Handler) (i : Nat) : fresh ready (ready.eraseIdx i) = [] := by
  unfold fresh
  rw [List.drop_eq_nil_of_le (List.length_eraseIdx_le ready i)]
  rfl

theorem fresh_event (ready : List Handler) (e : Nat) : fresh ready (ready ++ [.event e]) = [e] := by
  unfold fresh
  rw [List.drop_left]
  rfl

/-- A step that hands nothing over, and records no post. -/
structure HandsNothing (s s' : State) : Prop where
  ready : fresh s.io_context_.ready s'.io_context_.ready = []
  hist : s'.hist = s.hist ∨ ∃ ev : Event, ev.event? = none ∧ s'.hist = s.hist ++ [ev]

section Handing

variable {n c w e t : Nat} {as : List Action} {s s' : State} {a : Action}

/-- A step that leaves the handlers and the history alone. -/
theorem HandsNothing.same (hio : s'.io_context_.ready = s.io_context_.ready)
    (hhist : s'.hist = s.hist) : HandsNothing s s' :=
  ⟨by rw [hio]; exact fresh_self _, Or.inl hhist⟩

/-- A caller posts nothing. What it cancels comes up as a wait that has failed. -/
theorem nextAt_handsNothing {pc : Caller} (hs : s.nextAt c pc = some s') : HandsNothing s s' := by
  cases pc with
  | idle => cases hs
  | startLock _ =>
    unfold State.nextAt at hs
    dsimp only at hs
    split at hs
    · cases hs
    · obtain rfl := (Option.some.inj hs).symm
      exact ⟨fresh_self _, Or.inr ⟨.started _, rfl, rfl⟩⟩
  | stopLock =>
    unfold State.nextAt at hs
    dsimp only at hs
    split at hs
    · cases hs
    · obtain rfl := (Option.some.inj hs).symm
      exact .same rfl rfl
  | join =>
    unfold State.nextAt at hs
    dsimp only at hs
    split at hs
    · obtain rfl := (Option.some.inj hs).symm
      exact .same rfl rfl
    · cases hs
  | restart thread_num =>
    obtain rfl := (Option.some.inj hs).symm
    refine .same ?_ rfl
    show (if s.io_context_.stopped then s.io_context_.restart else s.io_context_).ready = _
    split
    · rfl
    · rfl
  | spawn left =>
    cases left with
    | zero =>
      obtain rfl := (Option.some.inj hs).symm
      exact ⟨fresh_replicate _ _ _, Or.inl rfl⟩
    | succ left =>
      obtain rfl := (Option.some.inj hs).symm
      exact .same rfl rfl
  | stop =>
    obtain rfl := (Option.some.inj hs).symm
    exact ⟨fresh_self _, Or.inr ⟨.stopped, rfl, rfl⟩⟩
  | cancel =>
    obtain rfl := (Option.some.inj hs).symm
    exact ⟨fresh_replicate _ _ _, Or.inl rfl⟩
  | insert timeout =>
    obtain ⟨-, rfl⟩ := State.insert_cases hs
    exact ⟨fresh_self _, Or.inr ⟨.accepted timeout, rfl, rfl⟩⟩
  | await | start | halt | unlock | now _ =>
    obtain rfl := (Option.some.inj hs).symm
    exact .same rfl rfl

/-- A worker that goes on in a handler hands nothing over, unless it is a tick that posts the next
event. -/
theorem workAt_hands {pc : Worker} (hs : s.workAt w pc = some s') :
    HandsNothing s s' ∨ ∃ t e rest, pc = .post t (e :: rest) ∧
      fresh s.io_context_.ready s'.io_context_.ready = [e] ∧
      s'.hist = s.hist ++ [.posted e t] := by
  cases pc with
  | looping | running | exited => cases hs
  | event _ | now | wait =>
    obtain rfl := (Option.some.inj hs).symm
    exact Or.inl (.same rfl rfl)
  | clear =>
    obtain ⟨-, rfl⟩ := State.clear_cases hs
    exact Or.inl (.same rfl rfl)
  | lock t =>
    obtain ⟨-, rfl⟩ := State.lock_cases hs
    exact Or.inl (.same rfl rfl)
  | check t =>
    obtain ⟨timeout, events, -, -, rfl⟩ | ⟨-, rfl⟩ := State.check_cases hs
    · exact Or.inl (.same rfl rfl)
    · exact Or.inl (.same rfl rfl)
  | post t rest =>
    cases rest with
    | nil =>
      obtain rfl := (Option.some.inj hs).symm
      exact Or.inl (.same rfl rfl)
    | cons e rest =>
      obtain rfl := (Option.some.inj hs).symm
      -- a queue that is stopped drops the event
      rcases State.postEvent_cases s e t with ⟨-, hpost⟩ | ⟨-, hpost⟩
      · rw [hpost]
        exact Or.inl (.same rfl rfl)
      · rw [hpost]
        exact Or.inr ⟨t, e, rest, rfl, fresh_event _ _, rfl⟩
  | expires =>
    obtain rfl := (Option.some.inj hs).symm
    exact Or.inl ⟨fresh_replicate _ _ _, Or.inl rfl⟩

/-- **What a step hands over** is one event, by a tick, and recorded, or nothing. -/
theorem hands_step (hs : s.step a = some s') :
    HandsNothing s s' ∨ ∃ w t e rest, a = .work w ∧
      s.worker_threads_[w]? = some (.post t (e :: rest)) ∧
      fresh s.io_context_.ready s'.io_context_.ready = [e] ∧
      s'.hist = s.hist ++ [.posted e t] := by
  cases a with
  | start d k =>
    obtain ⟨-, rfl | ⟨-, rfl⟩⟩ := State.start_cases hs
    · exact Or.inl (.same rfl rfl)
    · exact Or.inl (.same rfl rfl)
  | stop d =>
    obtain ⟨-, rfl | ⟨-, rfl⟩⟩ := State.stop_cases hs
    · exact Or.inl (.same rfl rfl)
    · exact Or.inl (.same rfl rfl)
  | postDelayedEvent d k =>
    obtain ⟨-, rfl | ⟨-, rfl⟩⟩ := State.postDelayedEvent_cases hs
    · exact Or.inl (.same rfl rfl)
    · exact Or.inl (.same rfl rfl)
  | clearDelayedEvent d =>
    obtain ⟨-, -, rfl⟩ := State.clearDelayedEvent_cases hs
    exact Or.inl ⟨fresh_self _, Or.inr ⟨.cleared, rfl, rfl⟩⟩
  | next d =>
    obtain ⟨pd, -, hnext⟩ := State.next_cases hs
    exact Or.inl (nextAt_handsNothing hnext)
  | test v =>
    obtain ⟨-, rfl | rfl⟩ := State.test_cases hs
    · exact Or.inl (.same rfl rfl)
    · exact Or.inl (.same rfl rfl)
  | take v i =>
    obtain ⟨handler, -, -, -, rfl⟩ := State.take_cases hs
    exact Or.inl ⟨fresh_eraseIdx _ _, Or.inl rfl⟩
  | leave v =>
    obtain ⟨-, rfl⟩ := State.leave_cases hs
    exact Or.inl (.same rfl rfl)
  | work v =>
    obtain ⟨pc, hv, hwork⟩ := State.work_cases hs
    rcases workAt_hands hwork with hnothing | ⟨t, e, rest, rfl, hfresh, hhist⟩
    · exact Or.inl hnothing
    · exact Or.inr ⟨v, t, e, rest, rfl, hv, hfresh, hhist⟩
  | expire =>
    obtain ⟨-, rfl⟩ := State.expire_cases hs
    exact Or.inl ⟨fresh_replicate _ _ _, Or.inl rfl⟩
  | advance d =>
    obtain rfl := (Option.some.inj hs).symm
    exact Or.inl (.same rfl rfl)

theorem HandsNothing.postedIn (h : HandsNothing s s') : postedIn s'.hist = postedIn s.hist := by
  rcases h.hist with hhist | ⟨ev, hev, hhist⟩
  · rw [hhist]
  · rw [hhist, postedIn_append]
    simp [Timer.postedIn, hev]

theorem HandsNothing.mem_hist (h : HandsNothing s s') (hmem : Event.posted e t ∈ s'.hist) :
    Event.posted e t ∈ s.hist := by
  rcases h.hist with hhist | ⟨ev, hev, hhist⟩
  · rwa [← hhist]
  · rw [hhist] at hmem
    rcases List.mem_append.mp hmem with hmem | hmem
    · exact hmem
    · rw [← List.mem_singleton.mp hmem] at hev
      cases hev

theorem PostedAt.append (h : PostedAt n as e t) (bs : List Action) : PostedAt n (as ++ bs) e t := by
  obtain ⟨pre, w, post, s, rfl, hs⟩ := h
  exact ⟨pre, w, post ++ bs, s, by simp, hs⟩

theorem handed_of_step (hs : s.step a = some s') :
    s.handed a = some (fresh s.io_context_.ready s'.io_context_.ready) := by
  unfold State.handed
  rw [hs]
  rfl

theorem handedOver_snoc (hrun : (queue n).run as = some s) (hs : s.step a = some s') :
    handedOver n (as ++ [a]) =
      handedOver n as ++ fresh s.io_context_.ready s'.io_context_.ready := by
  unfold handedOver
  rw [Machine.emitted_snoc hrun, handed_of_step hs, List.flatten_append]
  simp

/-- **The events posted in the history** are those handed over to the context. -/
theorem postedIn_eq_handedOver (hrun : (queue n).run as = some s) :
    postedIn s.hist = handedOver n as := by
  refine Machine.run_induction (P := fun as s => postedIn s.hist = handedOver n as) rfl ?_ hrun
  intro as s a s' hrun ih hs
  rw [handedOver_snoc hrun hs]
  rcases hands_step hs with hnothing | ⟨w, t, e, rest, -, -, hfresh, hhist⟩
  · rw [hnothing.ready, List.append_nil, hnothing.postedIn, ih]
  · rw [hfresh, hhist, postedIn_append, ih]
    rfl

/-- **A post of the history** was one, by a tick with this reading. -/
theorem postedAt_of_run (hrun : (queue n).run as = some s) (hmem : Event.posted e t ∈ s.hist) :
    PostedAt n as e t := by
  refine Machine.run_induction
    (P := fun as s => ∀ e t, Event.posted e t ∈ s.hist → PostedAt n as e t) ?_ ?_ hrun e t hmem
  · intro e t hmem
    cases hmem
  intro as s a s' hrun ih hs e t hmem
  rcases hands_step hs with hnothing | ⟨w, t', e', rest, rfl, hw, hfresh, hhist⟩
  · exact (ih e t (hnothing.mem_hist hmem)).append [a]
  · rw [hhist] at hmem
    rcases List.mem_append.mp hmem with hmem | hmem
    · exact (ih e t hmem).append [.work w]
    · obtain ⟨rfl, rfl⟩ := Event.posted.inj (List.mem_singleton.mp hmem)
      have hhanded : s.handed (.work w) = some [e] := hfresh ▸ handed_of_step hs
      exact ⟨as, w, [], s, rfl, hrun, hhanded, tickRead_of_run hrun hw rfl⟩

end Handing

end CppDone.Timer
