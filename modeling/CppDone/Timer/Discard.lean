import CppDone.Timer.Ticks

/-!
# What becomes of a delayed event

An event that was accepted stays in the table until a tick posts it, `ClearDelayedEvent` is called
or the queue is stopped, unless `CheckDelayedEventCallback` is called with an error code meanwhile:
then it clears the table. `Stop` cancels the wait of the timer, but also stops the context that
would run its handler, and so the handler is left for the next `Start`; it may come after events
that were accepted since. The runs without loss are those in which an event only goes into the
table while the timer is quiet: no such handler is left, and there is one wait to keep going.

The condition is on the state before an insertion, and is asked for at no other step: what was put
into a quiet queue stays accounted for, whatever waits are cancelled later on, because a cancelled
wait is noticed by the handler that it leaves (`Covered`).
-/

set_option autoImplicit false

namespace CppDone.Timer

/-- After event `e` was accepted, `Stop` was called. -/
def StoppedAfter (hist : List Event) (e : Nat) : Prop :=
  ∃ j, e < j ∧ hist[j]? = some .stopped

/-- After event `e` was accepted, it was posted and was due, or `ClearDelayedEvent` or `Stop` was
called. In the first case it was due by the reading of the clock that the posting tick has made. -/
def Settled (hist : List Event) (e timeout : Nat) : Prop :=
  ∃ j, e < j ∧ (hist[j]? = some .cleared ∨ hist[j]? = some .stopped ∨
    ∃ curr_time, timeout ≤ curr_time ∧ hist[j]? = some (.posted e curr_time))

/-- The event goes into the table of a quiet queue. -/
def insertsQuiet (s : State) : Action → Bool
  | .next c =>
    match s.callers[c]? with
    | some (.insert _) => decide (Quiet s.io_context_ s.worker_threads_)
    | _ => true
  | _ => true

/-! ## Histories

What the history says stays said: an event that is settled remains settled however the run goes on.
-/

section Histories

variable {hist : List Event} {ev : Event} {e timeout : Nat}

theorem StoppedAfter.settled (h : StoppedAfter hist e) : Settled hist e timeout := by
  obtain ⟨j, hj, hstopped⟩ := h
  exact ⟨j, hj, Or.inr (Or.inl hstopped)⟩

theorem StoppedAfter.snoc (h : StoppedAfter hist e) : StoppedAfter (hist ++ [ev]) e := by
  obtain ⟨j, hj, hstopped⟩ := h
  exact ⟨j, hj, getElem?_snoc.mpr (Or.inl hstopped)⟩

theorem Settled.snoc (h : Settled hist e timeout) : Settled (hist ++ [ev]) e timeout := by
  obtain ⟨j, hj, hcleared | hstopped | ⟨curr_time, hle, hposted⟩⟩ := h
  · exact ⟨j, hj, Or.inl (getElem?_snoc.mpr (Or.inl hcleared))⟩
  · exact ⟨j, hj, Or.inr (Or.inl (getElem?_snoc.mpr (Or.inl hstopped)))⟩
  · exact ⟨j, hj, Or.inr (Or.inr ⟨curr_time, hle, getElem?_snoc.mpr (Or.inl hposted)⟩)⟩

/-- What is accepted was so before, unless the last entry says so. -/
theorem accepted_of_snoc (hev : ∀ t, ev ≠ .accepted t)
    (h : (hist ++ [ev])[e]? = some (.accepted timeout)) : hist[e]? = some (.accepted timeout) := by
  rcases getElem?_snoc.mp h with h | ⟨-, h⟩
  · exact h
  · exact absurd h (hev timeout)

theorem getElem?_length_snoc : (hist ++ [ev])[hist.length]? = some ev :=
  getElem?_snoc.mpr (Or.inr ⟨rfl, rfl⟩)

end Histories

/-! ## The invariant, component by component

Each component has a small invariant of its own, about the caller, the lock, the table, the inner
loop and the waits. They are kept apart since a step concerns two or three of them. -/

/-- What a calling thread knows of `stoped_`, if it is the only one. -/
def Caller.Fits : Caller → Bool → Prop
  | .startLock _, stoped_ | .restart _, stoped_ | .spawn _, stoped_ | .await, stoped_
  | .start, stoped_ | .cancel, stoped_ | .halt, stoped_ | .join, stoped_ => stoped_ = true
  | .stopLock, stoped_ | .stop, stoped_ | .now _, stoped_ | .insert _, stoped_ => stoped_ = false
  | .idle, _ | .unlock, _ => True

def Flag (callers : List Caller) (stoped_ : Bool) : Prop :=
  ∃ pc, callers = [pc] ∧ pc.Fits stoped_

/-- The worker is in its tick, with `delay_event_lock_` locked. -/
def Worker.holds : Worker → Bool
  | .check _ | .post _ _ => true
  | _ => false

def Locked (ws : List Worker) (lock : Option Nat) : Prop :=
  ∀ (w : Nat) (pc : Worker), ws[w]? = some pc → pc.holds = true → lock = some w

/-- An event that left the table is settled. -/
def Kept (tab : DelayedEventTab) (hist : List Event) : Prop :=
  ∀ e timeout, hist[e]? = some (.accepted timeout) → tab.At timeout e ∨ Settled hist e timeout

/-- The inner loop runs over the first entry, which is due, and what is behind it is settled. -/
def Behind (tab : DelayedEventTab) (hist : List Event) (curr_time : Nat) (rest : List Nat) : Prop :=
  ∃ timeout events, tab.first = some (timeout, events) ∧ timeout ≤ curr_time ∧
    ∀ e ∈ events, e ∈ rest ∨ (hist[e]? = some (.accepted timeout) → Settled hist e timeout)

def Posting (ws : List Worker) (tab : DelayedEventTab) (hist : List Event) : Prop :=
  ∀ (w curr_time : Nat) (rest : List Nat), ws[w]? = some (.post curr_time rest) →
    Behind tab hist curr_time rest

/-- While there is an event that only a tick or a caller may take away, the queue is quiet. -/
def Covered (stoped_ : Bool) (io : IoContext) (ws : List Worker) (hist : List Event) : Prop :=
  ∀ e timeout, hist[e]? = some (.accepted timeout) →
    StoppedAfter hist e ∨ stoped_ = false ∧ Quiet io ws

/-- The five components, each with the part of the state that it is about. -/
structure Inv (s : State) : Prop where
  flag : Flag s.callers s.stoped_
  locked : Locked s.worker_threads_ s.delay_event_lock_
  kept : Kept s.delay_eventtab_ s.hist
  posting : Posting s.worker_threads_ s.delay_eventtab_ s.hist
  covered : Covered s.stoped_ s.io_context_ s.worker_threads_ s.hist

/-- Nothing was accepted yet, and nobody is in `Start` or in `Stop`. -/
theorem Inv.init : Inv (queue 1).init where
  flag := ⟨.idle, rfl, trivial⟩
  locked w pc h := by cases h
  kept e timeout h := by cases h
  posting w curr_time rest h := by cases h
  covered e timeout h := by cases h

section Components

variable {ws : List Worker} {lock lock' : Option Nat} {tab tab' : DelayedEventTab}
  {hist : List Event} {ev : Event} {io io' : IoContext} {stoped_ : Bool} {w : Nat}
  {pc pc' : Worker}

/-! ### How the components are kept

For each component what a step of a certain kind does to it. A step of the queue is then looked at
once, and takes the parts it needs. -/

/-- There is one caller, and it is this one. -/
theorem Flag.caller {callers : List Caller} (h : Flag callers stoped_) {c : Nat} {pc : Caller}
    (hc : callers[c]? = some pc) : pc.Fits stoped_ ∧ ∀ pc', callers.set c pc' = [pc'] := by
  obtain ⟨pc₀, rfl, hfits⟩ := h
  cases c with
  | zero =>
    obtain rfl : pc₀ = pc := Option.some.inj hc
    exact ⟨hfits, fun _ => rfl⟩
  | succ c => cases hc

theorem Locked.set (h : Locked ws lock) (hself : pc'.holds = true → lock' = some w)
    (hothers : ∀ v, v ≠ w → lock = some v → lock' = some v) : Locked (ws.set w pc') lock' := by
  intro v pc hv hpc
  rcases getElem?_set_cases hv with ⟨rfl, rfl⟩ | ⟨hvw, hv⟩
  · exact hself hpc
  · exact hothers v hvw (h v pc hv hpc)

theorem Locked.not_post (h : Locked ws none) {curr_time : Nat} {rest : List Nat} :
    ws[w]? ≠ some (.post curr_time rest) := by
  intro hw
  cases h w _ hw rfl

theorem Locked.append (h : Locked ws lock) (hpc : pc'.holds = false) :
    Locked (ws ++ [pc']) lock := by
  intro v pc hv ho
  rcases getElem?_snoc.mp hv with hv | ⟨-, rfl⟩
  · exact h v pc hv ho
  · rw [hpc] at ho
    cases ho

theorem Kept.snoc (h : Kept tab hist) (hev : ∀ t, ev ≠ .accepted t) : Kept tab (hist ++ [ev]) := by
  intro e timeout hacc
  rcases h e timeout (accepted_of_snoc hev hacc) with hat | hset
  · exact Or.inl hat
  · exact Or.inr hset.snoc

theorem Behind.snoc {curr_time : Nat} {rest : List Nat} (h : Behind tab hist curr_time rest)
    (hev : ∀ t, ev ≠ .accepted t) : Behind tab (hist ++ [ev]) curr_time rest := by
  obtain ⟨timeout, events, hfirst, hdue, hevents⟩ := h
  refine ⟨timeout, events, hfirst, hdue, fun e he => ?_⟩
  rcases hevents e he with hr | hset
  · exact Or.inl hr
  · exact Or.inr fun hacc => (hset (accepted_of_snoc hev hacc)).snoc

theorem Behind.tail {curr_time e : Nat} {rest : List Nat}
    (h : Behind tab hist curr_time (e :: rest))
    (he : ∀ timeout, timeout ≤ curr_time → hist[e]? = some (.accepted timeout) →
      Settled hist e timeout) : Behind tab hist curr_time rest := by
  obtain ⟨timeout, events, hfirst, hdue, hevents⟩ := h
  refine ⟨timeout, events, hfirst, hdue, fun e' he' => ?_⟩
  rcases hevents e' he' with hmem | hset
  · rcases List.mem_cons.mp hmem with rfl | hmem
    · exact Or.inr (he timeout hdue)
    · exact Or.inl hmem
  · exact Or.inr hset

theorem Posting.snoc (h : Posting ws tab hist) (hev : ∀ t, ev ≠ .accepted t) :
    Posting ws tab (hist ++ [ev]) :=
  fun w curr_time rest hw => (h w curr_time rest hw).snoc hev

theorem Posting.set (h : Posting ws tab hist)
    (hself : ∀ curr_time rest, pc' = .post curr_time rest → Behind tab hist curr_time rest) :
    Posting (ws.set w pc') tab hist := by
  intro v curr_time rest hv
  rcases getElem?_set_cases hv with ⟨rfl, heq⟩ | ⟨-, hv⟩
  · exact hself curr_time rest heq.symm
  · exact h v curr_time rest hv

theorem Posting.append (h : Posting ws tab hist) : Posting (ws ++ [.looping]) tab hist := by
  intro v curr_time rest hv
  rcases getElem?_snoc.mp hv with hv | ⟨-, hv⟩
  · exact h v curr_time rest hv
  · cases hv

theorem Posting.of_unlocked (h : Locked ws none) : Posting ws tab hist :=
  fun _ _ _ hw => absurd hw h.not_post

theorem Covered.snoc (h : Covered stoped_ io ws hist) (hev : ∀ t, ev ≠ .accepted t) :
    Covered stoped_ io ws (hist ++ [ev]) := by
  intro e timeout hacc
  rcases h e timeout (accepted_of_snoc hev hacc) with hs | hquiet
  · exact Or.inl hs.snoc
  · exact Or.inr hquiet

theorem Covered.mono {ws' : List Worker} (h : Covered stoped_ io ws hist)
    (hq : Quiet io ws → Quiet io' ws') : Covered stoped_ io' ws' hist := by
  intro e timeout hacc
  rcases h e timeout hacc with hs | ⟨hf, hquiet⟩
  · exact Or.inl hs
  · exact Or.inr ⟨hf, hq hquiet⟩

/-- While the queue is stopped, all that was accepted was so before `Stop`. -/
theorem Covered.stopped (h : Covered true io ws hist) {e timeout : Nat}
    (hacc : hist[e]? = some (.accepted timeout)) : StoppedAfter hist e := by
  rcases h e timeout hacc with hs | ⟨hf, -⟩
  · exact hs
  · cases hf

end Components

/-! ## The steps of the caller

There is one caller, so inside `Start` and `Stop` nobody else changes the flag. What was accepted
before a `Stop` is settled by it, and afterwards nothing is accepted until the next `Start`. -/

section Steps

variable {s s' : State} {c w : Nat}

theorem Inv.goto (hI : Inv s) {pc pc' : Caller} (hc : s.callers[c]? = some pc)
    (hfits : pc'.Fits s.stoped_) : Inv (s.goto c pc') :=
  { hI with flag := ⟨pc', (hI.flag.caller hc).2 pc', hfits⟩ }

theorem Inv.start (hI : Inv s) {thread_num : Nat} (h : s.start c thread_num = some s') :
    Inv s' := by
  obtain ⟨hc, rfl | ⟨hs, rfl⟩⟩ := State.start_cases h
  · exact hI
  · exact hI.goto hc hs

theorem Inv.stop (hI : Inv s) (h : s.stop c = some s') : Inv s' := by
  obtain ⟨hc, rfl | ⟨hs, rfl⟩⟩ := State.stop_cases h
  · exact hI
  · exact hI.goto hc hs

theorem Inv.postDelayedEvent (hI : Inv s) {delayed_second : Nat}
    (h : s.postDelayedEvent c delayed_second = some s') : Inv s' := by
  obtain ⟨hc, rfl | ⟨hs, rfl⟩⟩ := State.postDelayedEvent_cases h
  · exact hI
  · exact hI.goto hc hs

/-- `ClearDelayedEvent` settles whatever there is. -/
theorem Inv.clearDelayedEvent (hI : Inv s) (h : s.clearDelayedEvent c = some s') : Inv s' := by
  obtain ⟨-, hl, rfl⟩ := State.clearDelayedEvent_cases h
  have hev : ∀ t, Event.cleared ≠ .accepted t := fun _ => nofun
  refine ⟨hI.flag, hI.locked, ?_, ?_, hI.covered.snoc hev⟩
  · intro e timeout hacc
    have hlt : e < s.hist.length := lt_length_of_getElem? (accepted_of_snoc hev hacc)
    exact Or.inr ⟨s.hist.length, hlt, Or.inl getElem?_length_snoc⟩
  · exact Posting.of_unlocked (hl ▸ hI.locked)

/-- The event goes into the table, which no tick has locked. -/
theorem Inv.insert (hI : Inv s) {timeout : Nat} (hc : s.callers[c]? = some (.insert timeout))
    (hquiet : Quiet s.io_context_ s.worker_threads_)
    (h : s.nextAt c (.insert timeout) = some s') : Inv s' := by
  obtain ⟨hfits, hset⟩ := hI.flag.caller hc
  obtain ⟨hl, rfl⟩ := State.insert_cases h
  refine ⟨⟨.idle, hset .idle, trivial⟩, hI.locked, ?_, ?_, ?_⟩
  · intro e t hacc
    rcases getElem?_snoc.mp hacc with hacc | ⟨rfl, heq⟩
    · rcases hI.kept e t hacc with hat | hsettled
      · exact Or.inl (Agenda.at_push.mpr (Or.inl hat))
      · exact Or.inr hsettled.snoc
    · obtain rfl : timeout = t := Event.accepted.inj heq
      exact Or.inl (Agenda.at_push.mpr (Or.inr ⟨rfl, rfl⟩))
  · exact Posting.of_unlocked (hl ▸ hI.locked)
  · intro e t hacc
    rcases getElem?_snoc.mp hacc with hacc | ⟨-, -⟩
    · rcases hI.covered e t hacc with hs | hq
      · exact Or.inl hs.snoc
      · exact Or.inr hq
    · exact Or.inr ⟨hfits, hquiet⟩

theorem Inv.covered_of_stopped (hI : Inv s) (hs : s.stoped_ = true) {stoped_ : Bool}
    {io : IoContext} {ws : List Worker} : Covered stoped_ io ws s.hist := by
  intro e timeout hacc
  have hcov : Covered true s.io_context_ s.worker_threads_ s.hist := hs ▸ hI.covered
  exact Or.inl (hcov.stopped hacc)

/-- The steps of `Start` and `Stop` that touch workers or timer are taken while the queue is
stopped, when no event depends on them. -/
theorem Inv.nextAt (hI : Inv s) {pc : Caller} (hc : s.callers[c]? = some pc)
    (hok : insertsQuiet s (.next c) = true) (h : s.nextAt c pc = some s') : Inv s' := by
  obtain ⟨hfits, hset⟩ := hI.flag.caller hc
  -- one thread controls the queue, so where it is says whether the queue is stopped
  have hflag : ∀ {pc' : Caller} {stoped_ : Bool}, pc'.Fits stoped_ →
      Flag (s.callers.set c pc') stoped_ := fun hf => ⟨_, hset _, hf⟩
  cases pc with
  | idle => cases h
  | startLock thread_num =>
    unfold State.nextAt at h
    dsimp only at h
    split at h
    · cases h
    · obtain rfl := Option.some.inj h
      have hev : ∀ t, Event.started thread_num ≠ .accepted t := fun _ => nofun
      exact ⟨hflag hfits, hI.locked, hI.kept.snoc hev, hI.posting.snoc hev, hI.covered.snoc hev⟩
  -- inside `Start` the queue is stopped: every event accepted before has met its fate
  | restart thread_num =>
    obtain rfl := Option.some.inj h
    exact ⟨hflag hfits, hI.locked, hI.kept, hI.posting, hI.covered_of_stopped hfits⟩
  | spawn left =>
    cases left with
    | zero =>
      obtain rfl := Option.some.inj h
      exact ⟨hflag hfits, hI.locked, hI.kept, hI.posting, hI.covered_of_stopped hfits⟩
    | succ left =>
      obtain rfl := Option.some.inj h
      exact ⟨hflag hfits, hI.locked.append rfl, hI.kept, hI.posting.append,
        hI.covered_of_stopped hfits⟩
  | await =>
    obtain rfl := Option.some.inj h
    exact ⟨hflag hfits, hI.locked, hI.kept, hI.posting, hI.covered_of_stopped hfits⟩
  | start =>
    obtain rfl := Option.some.inj h
    exact ⟨hflag trivial, hI.locked, hI.kept, hI.posting, hI.covered_of_stopped hfits⟩
  | stopLock =>
    unfold State.nextAt at h
    dsimp only at h
    split at h
    · cases h
    · obtain rfl := Option.some.inj h
      exact ⟨hflag hfits, hI.locked, hI.kept, hI.posting, hI.covered⟩
  | stop =>
    -- `stoped_` is set: whatever was pending is settled by this entry of the history
    obtain rfl := Option.some.inj h
    have hev : ∀ t, Event.stopped ≠ .accepted t := fun _ => nofun
    refine ⟨hflag rfl, hI.locked, hI.kept.snoc hev, hI.posting.snoc hev, ?_⟩
    intro e timeout hacc
    have hlt : e < s.hist.length := lt_length_of_getElem? (accepted_of_snoc hev hacc)
    exact Or.inl ⟨s.hist.length, hlt, getElem?_length_snoc⟩
  | cancel =>
    obtain rfl := Option.some.inj h
    exact ⟨hflag hfits, hI.locked, hI.kept, hI.posting, hI.covered_of_stopped hfits⟩
  | halt =>
    obtain rfl := Option.some.inj h
    exact ⟨hflag hfits, hI.locked, hI.kept, hI.posting, hI.covered_of_stopped hfits⟩
  | join =>
    unfold State.nextAt at h
    dsimp only at h
    split at h
    · obtain rfl := Option.some.inj h
      refine ⟨hflag trivial, ?_, hI.kept, ?_, hI.covered_of_stopped hfits⟩
      -- all workers have left, and none is in the middle of a post
      · intro w pc hw
        cases hw
      · intro w curr_time rest hw
        cases hw
    · cases h
  | unlock =>
    obtain rfl := Option.some.inj h
    exact ⟨hflag trivial, hI.locked, hI.kept, hI.posting, hI.covered⟩
  | now delayed_second =>
    obtain rfl := Option.some.inj h
    exact hI.goto hc hfits
  -- the only step the condition is about
  | insert timeout =>
    simp only [insertsQuiet, hc] at hok
    exact hI.insert hc (of_decide_eq_true hok) h

/-! ## The steps of the workers and of the timer

A worker takes an event off the table only to post it. The one thing that can empty the table is the
error branch, and behind a quiet insertion no error is on its way. -/

/-- A worker that leaves table and lock alone. -/
theorem Inv.workerGoto (hI : Inv s) {io : IoContext} {pc' : Worker}
    (hpc : pc'.holds = false)
    (hq : Quiet s.io_context_ s.worker_threads_ → Quiet io (s.worker_threads_.set w pc')) :
    Inv (({ s with io_context_ := io } : State).workerGoto w pc') := by
  refine ⟨hI.flag, ?_, hI.kept, ?_, hI.covered.mono hq⟩
  · apply hI.locked.set
    · intro ho
      rw [hpc] at ho
      cases ho
    · exact fun _ _ hl => hl
  · apply hI.posting.set
    intro curr_time rest heq
    rw [heq] at hpc
    cases hpc

theorem Inv.test (hI : Inv s) (h : s.test w = some s') : Inv s' := by
  obtain ⟨hw, rfl | rfl⟩ := State.test_cases h
  · exact hI.workerGoto rfl fun hq => hq.set hw (by decide) (by decide)
  · exact hI.workerGoto rfl fun hq => hq.set hw (by decide) (by decide)

theorem Inv.take (hI : Inv s) {i : Nat} (h : s.take w i = some s') : Inv s' := by
  obtain ⟨handler, hw, hi, -, rfl⟩ := State.take_cases h
  apply hI.workerGoto
  · cases handler with
    | check error => cases error <;> rfl
    | event e => rfl
  · exact fun hq => hq.take hw hi

theorem Inv.leave (hI : Inv s) (h : s.leave w = some s') : Inv s' := by
  obtain ⟨hw, rfl⟩ := State.leave_cases h
  exact hI.workerGoto rfl fun hq => hq.set hw (by decide) (by decide)

/-- The error branch clears the table only when all that is in it was accepted before `Stop`. -/
theorem Inv.clear (hI : Inv s) (hw : s.worker_threads_[w]? = some .clear)
    (h : s.workAt w .clear = some s') : Inv s' := by
  obtain ⟨hl, rfl⟩ := State.clear_cases h
  have hlocked : Locked (s.worker_threads_.set w .running) s.delay_event_lock_ :=
    hI.locked.set (by intro ho; cases ho) fun _ _ hl => hl
  refine ⟨hI.flag, hlocked, ?_, ?_, ?_⟩
  · intro e timeout hacc
    rcases hI.covered e timeout hacc with hs | ⟨-, hq⟩
    · exact Or.inr hs.settled
    · exact absurd hw hq.not_clear
  · exact Posting.of_unlocked (hl ▸ hlocked)
  · exact hI.covered.mono fun hq => hq.set hw (by decide) (by decide)

/-- The tick begins with the table as it is. -/
theorem Inv.lock (hI : Inv s) {curr_time : Nat}
    (hw : s.worker_threads_[w]? = some (.lock curr_time))
    (h : s.workAt w (.lock curr_time) = some s') : Inv s' := by
  obtain ⟨hl, rfl⟩ := State.lock_cases h
  refine ⟨hI.flag, ?_, hI.kept, hI.posting.set nofun, ?_⟩
  · apply hI.locked.set
    · exact fun _ => rfl
    · intro v _ hv
      rw [hl] at hv
      cases hv
  · exact hI.covered.mono fun hq => hq.set hw nofun fun _ => rfl

/-- The lock stays with the worker that has it. -/
theorem Inv.locked_set (hI : Inv s) {pc pc' : Worker} (hw : s.worker_threads_[w]? = some pc)
    (hpc : pc.holds = true) : Locked (s.worker_threads_.set w pc') s.delay_event_lock_ :=
  hI.locked.set (fun _ => hI.locked w pc hw hpc) fun _ _ hl => hl

/-- The worker finds an entry that is due, or gives the lock back. -/
theorem Inv.check (hI : Inv s) {curr_time : Nat}
    (hw : s.worker_threads_[w]? = some (.check curr_time))
    (h : s.workAt w (.check curr_time) = some s') : Inv s' := by
  rcases State.check_cases h with ⟨timeout, events, hfirst, hdue, rfl⟩ | ⟨-, rfl⟩
  · refine ⟨hI.flag, hI.locked_set hw rfl, hI.kept, ?_, ?_⟩
    · apply hI.posting.set
      intro curr_time' rest heq
      obtain ⟨rfl, rfl⟩ := Worker.post.inj heq
      exact ⟨timeout, events, hfirst, hdue, fun e he => Or.inl he⟩
    · exact hI.covered.mono fun hq => hq.set hw nofun fun _ => rfl
  · refine ⟨hI.flag, ?_, hI.kept, hI.posting.set nofun, ?_⟩
    · apply hI.locked.set
      · intro ho
        cases ho
      · intro v hv hl
        have hw' := hI.locked w _ hw rfl
        rw [hw'] at hl
        exact absurd (Option.some.inj hl).symm hv
    · exact hI.covered.mono fun hq => hq.set hw nofun fun _ => rfl

/-- No other worker is in the inner loop. -/
theorem Inv.posting_set (hI : Inv s) {pc pc' : Worker} (hw : s.worker_threads_[w]? = some pc)
    (hpc : pc.holds = true) {tab : DelayedEventTab} {hist : List Event}
    (hself : ∀ curr_time rest, pc' = .post curr_time rest → Behind tab hist curr_time rest) :
    Posting (s.worker_threads_.set w pc') tab hist := by
  intro v curr_time rest hv
  rcases getElem?_set_cases hv with ⟨-, heq⟩ | ⟨hvw, hv⟩
  · exact hself curr_time rest heq.symm
  · have hlw := hI.locked w pc hw hpc
    have hlv := hI.locked v _ hv rfl
    exact absurd (Option.some.inj (hlv.symm.trans hlw)) hvw

/-- The entry is erased once each of its events is settled. -/
theorem Inv.erase (hI : Inv s) {curr_time : Nat}
    (hw : s.worker_threads_[w]? = some (.post curr_time []))
    (h : s.workAt w (.post curr_time []) = some s') : Inv s' := by
  obtain rfl := Option.some.inj h
  obtain ⟨timeout, events, hfirst, -, hevents⟩ := hI.posting w curr_time [] hw
  refine ⟨hI.flag, hI.locked_set hw rfl, ?_, hI.posting_set hw rfl nofun, ?_⟩
  · intro e t hacc
    rcases hI.kept e t hacc with hat | hsettled
    · rcases (Agenda.at_iff_first hfirst).mp hat with ⟨rfl, he⟩ | hat
      · rcases hevents e he with hnil | hsettled
        · cases hnil
        · exact Or.inr (hsettled hacc)
      · exact Or.inl hat
    · exact Or.inr hsettled
  · exact hI.covered.mono fun hq => hq.set hw nofun fun _ => rfl

/-- `PostEvent` posts the event, or finds that the queue was stopped since. -/
theorem Inv.post (hI : Inv s) {curr_time e : Nat} {rest : List Nat}
    (hw : s.worker_threads_[w]? = some (.post curr_time (e :: rest)))
    (h : s.workAt w (.post curr_time (e :: rest)) = some s') : Inv s' := by
  obtain rfl := Option.some.inj h
  have hbehind := hI.posting w curr_time (e :: rest) hw
  -- `PostEvent` looks at `stoped_` again: a post that is refused is settled by the `Stop`
  rcases State.postEvent_cases s e curr_time with ⟨hs, heq⟩ | ⟨-, heq⟩
  · rw [heq]
    refine ⟨hI.flag, hI.locked_set hw rfl, hI.kept, hI.posting_set hw rfl ?_, ?_⟩
    · intro curr_time' rest' hpc
      obtain ⟨rfl, rfl⟩ := Worker.post.inj hpc
      apply hbehind.tail
      intro timeout _ hacc
      have hcov : Covered true s.io_context_ s.worker_threads_ s.hist := hs ▸ hI.covered
      exact (hcov.stopped hacc).settled
    · exact hI.covered.mono fun hq => hq.set hw nofun fun _ => rfl
  · rw [heq]
    have hev : ∀ t, Event.posted e curr_time ≠ .accepted t := fun _ => nofun
    refine ⟨hI.flag, hI.locked_set hw rfl, hI.kept.snoc hev, hI.posting_set hw rfl ?_, ?_⟩
    · intro curr_time' rest' hpc
      obtain ⟨rfl, rfl⟩ := Worker.post.inj hpc
      apply (hbehind.snoc hev).tail
      intro timeout hdue hacc
      have hlt : e < s.hist.length := lt_length_of_getElem? (accepted_of_snoc hev hacc)
      exact ⟨s.hist.length, hlt, Or.inr (Or.inr ⟨curr_time, hdue, getElem?_length_snoc⟩)⟩
    · refine (hI.covered.mono fun hq => ?_).snoc hev
      have hset : Quiet s.io_context_ (s.worker_threads_.set w (.post curr_time rest)) :=
        hq.set hw nofun fun _ => rfl
      exact hset.post e

/-- A worker at any place of its handler, by that place. -/
theorem Inv.workAt (hI : Inv s) {pc : Worker} (hw : s.worker_threads_[w]? = some pc)
    (h : s.workAt w pc = some s') : Inv s' := by
  cases pc with
  | looping => cases h
  | running => cases h
  | exited => cases h
  | event e =>
    obtain rfl := Option.some.inj h
    exact hI.workerGoto rfl fun hq => hq.set hw nofun nofun
  | clear => exact hI.clear hw h
  | now =>
    obtain rfl := Option.some.inj h
    exact hI.workerGoto rfl fun hq => hq.set hw nofun fun _ => rfl
  | lock curr_time => exact hI.lock hw h
  | check curr_time => exact hI.check hw h
  | post curr_time rest =>
    cases rest with
    | nil => exact hI.erase hw h
    | cons e rest => exact hI.post hw h
  | expires =>
    obtain rfl := Option.some.inj h
    exact hI.workerGoto rfl fun hq => hq.expires hw _
  | wait =>
    obtain rfl := Option.some.inj h
    exact hI.workerGoto rfl fun hq => hq.wait hw

theorem Inv.expire (hI : Inv s) (h : s.expire = some s') : Inv s' := by
  obtain ⟨-, rfl⟩ := State.expire_cases h
  exact { hI with covered := hI.covered.mono fun hq => hq.expire }

end Steps

/-- The assumption is about the insertions; everything else keeps the invariant whatever comes
before it. -/
theorem Inv.step {s s' : State} {a : Action} (hI : Inv s) (hok : insertsQuiet s a = true)
    (h : (queue 1).step s a = some s') : Inv s' := by
  cases a with
  | start c thread_num => exact hI.start h
  | stop c => exact hI.stop h
  | postDelayedEvent c delayed_second => exact hI.postDelayedEvent h
  | clearDelayedEvent c => exact hI.clearDelayedEvent h
  | next c =>
    obtain ⟨pc, hc, h⟩ := State.next_cases h
    exact hI.nextAt hc hok h
  | test w => exact hI.test h
  | take w i => exact hI.take h
  | leave w => exact hI.leave h
  | work w =>
    obtain ⟨pc, hw, h⟩ := State.work_cases h
    exact hI.workAt hw h
  | expire => exact hI.expire h
  | advance d =>
    obtain rfl := Option.some.inj h
    exact { hI with }

/-! ## No event is lost

The condition and what follows from it, and a run in which it is not met: a handler of a cancelled
wait that comes too late. -/

/-- **An event stays in the table** until it is posted and due, `ClearDelayedEvent` is called or
the queue is stopped, in every run in which events only go into the table of a quiet queue. -/
theorem delayed_event_kept (as : List Action) (s : State) (hrun : (queue 1).run as = some s)
    (hok : (queue 1).Meets (fun s a => insertsQuiet s a = true) as) (e timeout : Nat)
    (hacc : s.hist[e]? = some (.accepted timeout)) :
    s.delay_eventtab_.At timeout e ∨ Settled s.hist e timeout := by
  have hI : Inv s := hok.inv Inv.init (fun hI hok hs => hI.step hok hs) hrun
  exact hI.kept e timeout hacc

/-- `Start(1)`, one event without delay, and the tick after a second. -/
def posted : List Action :=
  [.start 0 1, .next 0, .next 0, .next 0, .next 0, .next 0, .next 0, .next 0,
   .postDelayedEvent 0 0, .next 0, .next 0, .advance (seconds 1), .expire,
   .test 0, .take 0 0, .work 0, .work 0, .work 0, .work 0, .work 0, .work 0]

theorem delayed_event_kept_posted :
    ∃ s, (queue 1).run posted = some s ∧ s.hist[1]? = some (.accepted 0) ∧
      s.delay_eventtab_.entries = [] ∧ Settled s.hist 1 0 := by
  obtain ⟨s, hs⟩ := Option.isSome_iff_exists.mp
    (show ((queue 1).run posted).isSome = true by decide)
  have hend : ((queue 1).run posted).map (fun s => (s.hist[1]?, s.delay_eventtab_.entries))
      = some (some (.accepted 0), []) := by decide
  have hok : (queue 1).Meets (fun s a => insertsQuiet s a = true) posted := by decide
  rw [hs, Option.map_some, Option.some.injEq, Prod.mk.injEq] at hend
  obtain ⟨hacc, hempty⟩ := hend
  refine ⟨s, hs, hacc, hempty, ?_⟩
  rcases delayed_event_kept posted s hs hok 1 0 hacc with hat | hsettled
  · unfold Agenda.At at hat
    rw [hempty] at hat
    exact absurd hat not_stands_nil
  · exact hsettled

/-- `Start(1)`, `Stop()`, `Start(1)` and an event, before a worker runs the handler of the wait
that `Stop` cancelled. -/
def restarted : List Action :=
  [.start 0 1, .next 0, .next 0, .next 0, .next 0, .next 0, .next 0, .next 0,
   .stop 0, .next 0, .next 0, .next 0, .next 0, .test 0, .next 0, .next 0,
   .start 0 1, .next 0, .next 0, .next 0, .next 0, .next 0, .next 0, .next 0,
   .postDelayedEvent 0 5, .next 0, .next 0, .test 0, .take 0 0, .work 0]

/-- **An event is lost**: the handler comes after the restart and clears the table. -/
theorem delayed_event_lost_restarted :
    ¬ ∀ as s, (queue 1).run as = some s → ∀ e timeout,
      s.hist[e]? = some (.accepted timeout) →
        s.delay_eventtab_.At timeout e ∨ Settled s.hist e timeout := by
  intro hall
  obtain ⟨s, hs⟩ := Option.isSome_iff_exists.mp
    (show ((queue 1).run restarted).isSome = true by decide)
  have hend : ((queue 1).run restarted).map (fun s => (s.hist, s.delay_eventtab_.entries))
      = some ([.started 1, .stopped, .started 1, .accepted (seconds 5)], []) := by decide
  rw [hs, Option.map_some, Option.some.injEq, Prod.mk.injEq] at hend
  obtain ⟨hhist, hempty⟩ := hend
  have hacc : s.hist[3]? = some (.accepted (seconds 5)) := by
    rw [hhist]
    rfl
  rcases hall restarted s hs 3 (seconds 5) hacc with hat | ⟨j, hj, hset⟩
  · unfold Agenda.At at hat
    rw [hempty] at hat
    exact not_stands_nil hat
  · -- nothing is recorded after the acceptance
    have hnone : s.hist[j]? = none := by
      rw [hhist]
      exact List.getElem?_eq_none hj
    rw [hnone] at hset
    rcases hset with h | h | ⟨_, -, h⟩
    · cases h
    · cases h
    · cases h

end CppDone.Timer
