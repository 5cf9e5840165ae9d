import CppDone.Lib.Progress
import CppDone.Timer.Table
import CppDone.Timer.Ticks
import CppDone.Timer.Transitions

/-!
# The checks go on

`CheckDelayedEventCallback` is the only one that starts the next wait, so a queue in which no wait
is pending, none has ended and none is being handled never looks at its table again. While the
queue is started this does not happen, however many threads call it and however their calls
overlap: `Stop` says that the queue is stopped before it cancels, and `Start` has its own wait
going before it says that the queue is started. In between only a tick cancels a wait, and it puts
another one in its place.

A tick that has come stays until a worker takes it up, and no worker leaves its loop before the
context is stopped. So the workers and the clock by themselves can always bring the next check
about, whatever state the others have left the queue in.

What a caller has found on its way (`Caller.Finds`) is part of the invariant: a `Start` that has
restarted the context and has its threads must still know so when it says that the queue is started,
and in between it is alone, since it holds `startlock`.

That a tick comes is not that it comes soon. How long a worker takes for a handler, and when the
clock moves, is left to the schedule.
-/

set_option autoImplicit false

namespace CppDone.Timer

/-- The context runs, and no worker has left its loop. A worker leaves only when it finds the
context stopped, so the first part keeps the second. -/
structure Running (s : State) : Prop where
  stopped : s.io_context_.stopped = false
  looping : ∀ pc ∈ s.worker_threads_, pc ≠ .exited

def Ticking (s : State) : Prop := 1 ≤ ticks s.io_context_ s.worker_threads_

/-- Without `Start` or `Stop` under way, a stopped queue has no worker. -/
def Rest (s : State) : Prop := s.stoped_ = true → s.worker_threads_ = []

/-- What a caller in `Start` or `Stop` finds. -/
def Caller.Finds (s : State) : Caller → Prop
  | .startLock k => 1 ≤ k
  | .restart k => 1 ≤ k ∧ Rest s
  | .spawn left => Running s ∧ 1 ≤ s.worker_threads_.length + left
  | .await => Running s ∧ 1 ≤ s.worker_threads_.length
  | .start => (Running s ∧ 1 ≤ s.worker_threads_.length) ∧ Ticking s
  | .stop | .unlock => Rest s
  | .cancel | .halt | .join => s.stoped_ = true
  | .idle | .stopLock | .now _ | .insert _ => True

/-- Who is inside of `Start` or `Stop` has the lock and finds what it has done so far; outside of
them the queue is at rest; and a queue that says it is started can be relied on, but for the wait
that `Start` has yet to begin. -/
structure Alive (s : State) : Prop where
  lock : s.callers.countP Caller.inside = if s.startlock then 1 else 0
  finds : ∀ (c : Nat) (pc : Caller), s.callers[c]? = some pc → pc.Finds s
  free : s.startlock = false → Rest s
  runs : s.stoped_ = false →
    (Running s ∧ 1 ≤ s.worker_threads_.length) ∧ (Ticking s ∨ .await ∈ s.callers)

/-- What the workers, the clock and the callers outside keep. Ticks are passed on by them and never
lost, which is one of the fields. -/
structure Steady (s s' : State) : Prop where
  stoped_ : s'.stoped_ = s.stoped_
  startlock : s'.startlock = s.startlock
  length : s'.worker_threads_.length = s.worker_threads_.length
  running : Running s → Running s'
  ticking : Ticking s → Ticking s'

variable {s s' : State} {c w : Nat}

theorem Rest.steady (h : Rest s) (hk : Steady s s') : Rest s' := by
  intro hst
  have hnil := h (hk.stoped_.symm.trans hst)
  rw [← List.length_eq_zero_iff, hk.length, hnil]
  rfl

theorem Caller.Finds.steady {pc : Caller} (h : pc.Finds s) (hk : Steady s s') : pc.Finds s' := by
  cases pc with
  | idle | stopLock | now _ | insert _ => trivial
  | startLock k => exact h
  | restart k => exact ⟨h.1, h.2.steady hk⟩
  | spawn left => exact ⟨hk.running h.1, by rw [hk.length]; exact h.2⟩
  | await => exact ⟨hk.running h.1, by rw [hk.length]; exact h.2⟩
  | start => exact ⟨⟨hk.running h.1.1, by rw [hk.length]; exact h.1.2⟩, hk.ticking h.2⟩
  | stop | unlock => exact Rest.steady h hk
  | cancel | halt | join => exact hk.stoped_.trans h

/-- Outside of `Start` and `Stop` a caller relies on nothing. -/
theorem Caller.Finds.outside {pc : Caller} (h : pc.Finds s) (hout : pc.inside = false) :
    pc.Finds s' := by
  cases pc with
  | idle | stopLock | now _ | insert _ => trivial
  | startLock k => exact h
  | restart _ | spawn _ | await | start | stop | cancel | halt | join | unlock => cases hout

/-! ## Who is inside

At most one caller has `startlock`. The others are outside of the sections of `Start` and `Stop`,
and what they do does not touch the threads. -/

/-- A caller that stays outside. -/
theorem inside_outer (hlock : s.callers.countP Caller.inside = if s.startlock then 1 else 0)
    {pc pc' : Caller} (hc : s.callers[c]? = some pc) (hout : pc.inside = false)
    (hcallers : s'.callers = s.callers.set c pc') (hout' : pc'.inside = false)
    (hl : s'.startlock = s.startlock) :
    s'.callers.countP Caller.inside = if s'.startlock then 1 else 0 := by
  have hset := countP_set_add (p := Caller.inside) hc pc'
  rw [hout, hout', hlock] at hset
  rw [hcallers, hl]
  exact Nat.add_right_cancel hset

/-- The caller that holds the lock, takes it or gives it back. -/
theorem inside_move (hlock : s.callers.countP Caller.inside = if s.startlock then 1 else 0)
    {pc pc' : Caller} (hc : s.callers[c]? = some pc) (hin : pc.inside = s.startlock)
    (hcallers : s'.callers = s.callers.set c pc') (hin' : pc'.inside = s'.startlock) :
    s'.callers.countP Caller.inside = if s'.startlock then 1 else 0 := by
  have hset := countP_set_add (p := Caller.inside) hc pc'
  rw [hlock, hin, hin'] at hset
  rw [hcallers]
  exact Nat.add_right_cancel (hset.trans (Nat.add_comm _ _))

/-- Who is inside holds the lock. -/
theorem inside_locked (hlock : s.callers.countP Caller.inside = if s.startlock then 1 else 0)
    {pc : Caller} (hc : s.callers[c]? = some pc) (hin : pc.inside = true) :
    s.startlock = true := by
  have hpos : 0 < s.callers.countP Caller.inside :=
    List.countP_pos_iff.mpr ⟨pc, List.mem_of_getElem? hc, hin⟩
  rw [hlock] at hpos
  split at hpos
  · next hl => exact hl
  · cases hpos

/-! ## Who moves

One lemma for each kind of party. A worker must keep the tick alive; a caller outside must not touch
it; the caller inside may, and has to say what it has done. -/

/-- A step of a worker or of the timer. -/
theorem Alive.steady (h : Alive s) (hcallers : s'.callers = s.callers) (hk : Steady s s') :
    Alive s' where
  lock := by
    rw [hcallers, hk.startlock]
    exact h.lock
  finds d pd hd := by
    rw [hcallers] at hd
    exact (h.finds d pd hd).steady hk
  free hl := (h.free (hk.startlock.symm.trans hl)).steady hk
  runs hst := by
    obtain ⟨⟨hrun, hlen⟩, htick⟩ := h.runs (hk.stoped_.symm.trans hst)
    rw [hcallers, hk.length]
    exact ⟨⟨hk.running hrun, hlen⟩, htick.imp_left hk.ticking⟩

/-- A step of a caller that stays outside. -/
theorem Alive.outer (h : Alive s) {pc pc' : Caller} (hc : s.callers[c]? = some pc)
    (hout : pc.inside = false) (hcallers : s'.callers = s.callers.set c pc')
    (hout' : pc'.inside = false) (hfinds : pc'.Finds s') (hk : Steady s s') : Alive s' where
  lock := inside_outer h.lock hc hout hcallers hout' hk.startlock
  finds d pd hd := by
    rw [hcallers] at hd
    rcases getElem?_set_cases hd with ⟨rfl, rfl⟩ | ⟨-, hd⟩
    · exact hfinds
    · exact (h.finds d pd hd).steady hk
  free hl := (h.free (hk.startlock.symm.trans hl)).steady hk
  runs hst := by
    obtain ⟨⟨hrun, hlen⟩, htick⟩ := h.runs (hk.stoped_.symm.trans hst)
    rw [hcallers, hk.length]
    refine ⟨⟨hk.running hrun, hlen⟩, htick.imp hk.ticking fun hmem => ?_⟩
    obtain ⟨d, hd⟩ := List.mem_iff_getElem?.mp hmem
    have hne : pc ≠ .await := by
      rintro rfl
      cases hout
    exact List.mem_of_getElem? (getElem?_set_of_ne hc hd hne pc')

/-- A step of the caller that holds the lock, takes it or gives it back. -/
theorem Alive.move (h : Alive s) {pc pc' : Caller} (hc : s.callers[c]? = some pc)
    (hin : pc.inside = s.startlock) (hcallers : s'.callers = s.callers.set c pc')
    (hin' : pc'.inside = s'.startlock) (hfinds : pc'.Finds s')
    (hfree : s'.startlock = false → Rest s')
    (hruns : s'.stoped_ = false →
      (Running s' ∧ 1 ≤ s'.worker_threads_.length) ∧ (Ticking s' ∨ pc' = .await)) : Alive s' where
  lock := inside_move h.lock hc hin hcallers hin'
  finds d pd hd := by
    rw [hcallers] at hd
    rcases getElem?_set_cases hd with ⟨rfl, rfl⟩ | ⟨hne, hd⟩
    · exact hfinds
    · refine (h.finds d pd hd).outside (others_outside hc ?_ hd hne)
      rw [h.lock, hin]
  free := hfree
  runs hst := by
    refine (hruns hst).imp_right fun htick => htick.imp_right fun hpc => ?_
    rw [hcallers, ← hpc]
    exact List.mem_of_getElem? (List.getElem?_set_self (lt_length_of_getElem? hc))

/-- A step of the caller that holds the lock and keeps it. -/
theorem Alive.inner (h : Alive s) {pc pc' : Caller} (hc : s.callers[c]? = some pc)
    (hin : pc.inside = true) (hcallers : s'.callers = s.callers.set c pc')
    (hin' : pc'.inside = true) (hl : s'.startlock = s.startlock) (hfinds : pc'.Finds s')
    (hruns : s'.stoped_ = false →
      (Running s' ∧ 1 ≤ s'.worker_threads_.length) ∧ (Ticking s' ∨ pc' = .await)) : Alive s' := by
  have hheld := inside_locked h.lock hc hin
  have hheld' : s'.startlock = true := hl.trans hheld
  refine h.move hc (hin.trans hheld.symm) hcallers (hin'.trans hheld'.symm) hfinds ?_ hruns
  intro hf
  cases hheld'.symm.trans hf

/-- Unless its caller is about to start the wait of `Start`, a started queue is ticking. -/
theorem Alive.ticking (h : Alive s) {pc : Caller} (hc : s.callers[c]? = some pc)
    (hin : pc.inside = s.startlock) (hne : pc ≠ .await) (hst : s.stoped_ = false) : Ticking s := by
  rcases (h.runs hst).2 with htick | hmem
  · exact htick
  · obtain ⟨d, hd⟩ := List.mem_iff_getElem?.mp hmem
    by_cases hdc : d = c
    · subst hdc
      exact absurd (Option.some.inj (hc.symm.trans hd)) hne
    · have hcount : s.callers.countP Caller.inside = if pc.inside then 1 else 0 := by
        rw [h.lock, hin]
      exact absurd (others_outside hc hcount hd hdc) (by decide)

/-! ## The steps of a caller

`Start` restarts the context, creates its threads and begins the wait, in this order. Only when it
is through does the queue count as started. -/

theorem Running.of_same (h : Running s) (hio : s'.io_context_.stopped = s.io_context_.stopped)
    (hws : s'.worker_threads_ = s.worker_threads_) : Running s' where
  stopped := hio.trans h.stopped
  looping := by
    rw [hws]
    exact h.looping

/-- Nothing happens to the workers and the context. -/
theorem Steady.of_same (hst : s'.stoped_ = s.stoped_) (hl : s'.startlock = s.startlock)
    (hio : s'.io_context_ = s.io_context_) (hws : s'.worker_threads_ = s.worker_threads_) :
    Steady s s' where
  stoped_ := hst
  startlock := hl
  length := by rw [hws]
  running h := h.of_same (by rw [hio]) hws
  ticking h := by
    unfold Ticking
    rw [hio, hws]
    exact h

theorem Alive.start (h : Alive s) {k : Nat} (hk : 1 ≤ k) (hs : s.start c k = some s') :
    Alive s' := by
  obtain ⟨hc, rfl | ⟨-, rfl⟩⟩ := State.start_cases hs
  · exact h
  · exact h.outer hc rfl rfl rfl hk (Steady.of_same rfl rfl rfl rfl)

theorem Alive.stop (h : Alive s) (hs : s.stop c = some s') : Alive s' := by
  obtain ⟨hc, rfl | ⟨-, rfl⟩⟩ := State.stop_cases hs
  · exact h
  · exact h.outer hc rfl rfl rfl trivial (Steady.of_same rfl rfl rfl rfl)

theorem Alive.postDelayedEvent (h : Alive s) {delayed_second : Nat}
    (hs : s.postDelayedEvent c delayed_second = some s') : Alive s' := by
  obtain ⟨hc, rfl | ⟨-, rfl⟩⟩ := State.postDelayedEvent_cases hs
  · exact h
  · exact h.outer hc rfl rfl rfl trivial (Steady.of_same rfl rfl rfl rfl)

theorem Alive.clearDelayedEvent (h : Alive s) (hs : s.clearDelayedEvent c = some s') :
    Alive s' := by
  obtain ⟨-, -, rfl⟩ := State.clearDelayedEvent_cases hs
  exact h.steady rfl (Steady.of_same rfl rfl rfl rfl)

/-- `restart` of a context that is stopped; one that runs is left alone. -/
theorem Running.restart (h : Rest s) (hruns : s.stoped_ = false → Running s)
    (hio : s'.io_context_ =
      if s.io_context_.stopped then s.io_context_.restart else s.io_context_)
    (hws : s'.worker_threads_ = s.worker_threads_) : Running s' where
  stopped := by
    rw [hio]
    split
    · rfl
    · next hrun => exact Bool.eq_false_iff.mpr hrun
  looping := by
    rw [hws]
    cases hst : s.stoped_ with
    | true =>
      rw [h hst]
      exact fun pc hpc => (by cases hpc)
    | false => exact (hruns hst).looping

/-- One worker more, at the test of its loop. -/
theorem Running.spawn (h : Running s) (hio : s'.io_context_ = s.io_context_)
    (hws : s'.worker_threads_ = s.worker_threads_ ++ [.looping]) : Running s' where
  stopped := by
    rw [hio]
    exact h.stopped
  looping pc hpc := by
    rw [hws] at hpc
    rcases List.mem_append.mp hpc with hpc | hpc
    · exact h.looping pc hpc
    · rw [List.mem_singleton.mp hpc]
      exact nofun

/-- The waits and what came of them stay. -/
theorem Ticking.of_waits (h : Ticking s) (hwaits : s'.io_context_.waits = s.io_context_.waits)
    (hready : s'.io_context_.ready = s.io_context_.ready)
    (hws : s'.worker_threads_ = s.worker_threads_) : Ticking s' := by
  unfold Ticking ticks at h ⊢
  rw [hwaits, hready, hws]
  exact h

theorem Ticking.spawn (h : Ticking s) {callers : List Caller} :
    Ticking { s with worker_threads_ := s.worker_threads_ ++ [.looping], callers := callers } := by
  unfold Ticking ticks at h ⊢
  simp only [List.countP_append]
  omega

/-- A caller goes on by one step. What it leaves behind is what it finds at its next place; and at
the end of `Start` and of `Stop` this is what the queue is to be outside of them. -/
theorem Alive.next (h : Alive s) (hs : s.next c = some s') : Alive s' := by
  obtain ⟨pc, hc, hs⟩ := State.next_cases hs
  have hfinds := h.finds c pc hc
  cases pc with
  | idle => cases hs
  | startLock k =>
    unfold State.nextAt at hs
    dsimp only at hs
    split at hs
    · cases hs
    · next hl =>
      obtain rfl := (Option.some.inj hs).symm
      have hfree := Bool.eq_false_iff.mpr hl
      refine h.move hc hfree.symm rfl rfl ⟨hfinds, h.free hfree⟩ (fun hf => ?_) fun hst => ?_
      · cases hf
      -- getting the lock changes nothing that a tick depends on
      · have htick := h.ticking hc hfree.symm nofun hst
        exact ⟨⟨(h.runs hst).1.1.of_same rfl rfl, (h.runs hst).1.2⟩, Or.inl htick⟩
  | restart k =>
    -- `Start` makes the context run again; what was pending or ready stays so
    obtain rfl := (Option.some.inj hs).symm
    refine h.inner hc rfl rfl rfl rfl ⟨?_, ?_⟩ fun hst => ?_
    · exact Running.restart hfinds.2 (fun hst => (h.runs hst).1.1) rfl rfl
    · exact Nat.le_add_left_of_le hfinds.1
    · have htick := h.ticking hc (inside_locked h.lock hc rfl).symm nofun hst
      refine ⟨⟨?_, (h.runs hst).1.2⟩, Or.inl (htick.of_waits ?_ ?_ rfl)⟩
      · exact Running.restart hfinds.2 (fun hst => (h.runs hst).1.1) rfl rfl
      · exact apply_ite IoContext.waits _ _ _ |>.trans (ite_self _)
      · exact apply_ite IoContext.ready _ _ _ |>.trans (ite_self _)
  | spawn left =>
    cases left with
    | succ left =>
      obtain rfl := (Option.some.inj hs).symm
      obtain ⟨hrun, hlen⟩ := hfinds
      -- a thread more, which is in its loop
      have hspawn : Running ({ s with
          worker_threads_ := s.worker_threads_ ++ [.looping] } : State) := hrun.spawn rfl rfl
      have hlonger : 1 ≤ (s.worker_threads_ ++ [Worker.looping]).length := by
        rw [List.length_append]
        exact Nat.le_add_left 1 _
      refine h.inner hc rfl rfl rfl rfl ⟨hspawn.of_same rfl rfl, ?_⟩ fun hst => ?_
      · exact Nat.le_add_right_of_le hlonger
      · have htick := h.ticking hc (inside_locked h.lock hc rfl).symm nofun hst
        exact ⟨⟨hspawn.of_same rfl rfl, hlonger⟩, Or.inl htick.spawn⟩
    | zero =>
      obtain rfl := (Option.some.inj hs).symm
      obtain ⟨hrun, hlen⟩ := hfinds
      refine h.inner hc rfl rfl rfl rfl ⟨⟨hrun.stopped, hrun.looping⟩, hlen⟩ fun _ => ?_
      exact ⟨⟨⟨hrun.stopped, hrun.looping⟩, hlen⟩, Or.inr rfl⟩
  -- the wait that `Start` begins is the one that the queue says it has, from the next step on
  | await =>
    obtain rfl := (Option.some.inj hs).symm
    have hrun : Running s := hfinds.1
    refine h.inner hc rfl rfl rfl rfl ⟨⟨⟨hrun.stopped, hrun.looping⟩, hfinds.2⟩, ?_⟩ fun _ => ?_
    · exact Nat.le_add_right_of_le (Nat.le_add_right_of_le (Nat.le_add_left 1 _))
    · refine ⟨⟨⟨hrun.stopped, hrun.looping⟩, hfinds.2⟩, Or.inl ?_⟩
      exact Nat.le_add_right_of_le (Nat.le_add_right_of_le (Nat.le_add_left 1 _))
  | start =>
    obtain rfl := (Option.some.inj hs).symm
    obtain ⟨⟨hrun, hlen⟩, htick⟩ := hfinds
    refine h.inner hc rfl rfl rfl rfl (fun hst => ?_) fun _ => ?_
    · cases hst
    · exact ⟨⟨⟨hrun.stopped, hrun.looping⟩, hlen⟩, Or.inl htick⟩
  | stopLock =>
    unfold State.nextAt at hs
    dsimp only at hs
    split at hs
    · cases hs
    · next hl =>
      obtain rfl := (Option.some.inj hs).symm
      have hfree := Bool.eq_false_iff.mpr hl
      refine h.move hc hfree.symm rfl rfl (h.free hfree) (fun hf => ?_) fun hst => ?_
      · cases hf
      · have htick := h.ticking hc hfree.symm nofun hst
        exact ⟨⟨(h.runs hst).1.1.of_same rfl rfl, (h.runs hst).1.2⟩, Or.inl htick⟩
  -- from here on the queue is stopped, and nothing is said of it until a `Start` is through
  | stop =>
    obtain rfl := (Option.some.inj hs).symm
    exact h.inner hc rfl rfl rfl rfl rfl fun hst => (by cases hst)
  | cancel =>
    obtain rfl := (Option.some.inj hs).symm
    exact h.inner hc rfl rfl rfl rfl hfinds fun hst => nomatch hst.symm.trans hfinds
  | halt =>
    obtain rfl := (Option.some.inj hs).symm
    exact h.inner hc rfl rfl rfl rfl hfinds fun hst => nomatch hst.symm.trans hfinds
  | join =>
    unfold State.nextAt at hs
    dsimp only at hs
    split at hs
    · obtain rfl := (Option.some.inj hs).symm
      exact h.inner hc rfl rfl rfl rfl (fun _ => rfl) fun hst => nomatch hst.symm.trans hfinds
    · cases hs
  -- outside of the lock the state must stand by itself
  | unlock =>
    obtain rfl := (Option.some.inj hs).symm
    have hin := (inside_locked h.lock hc rfl).symm
    refine h.move hc hin rfl rfl trivial (fun _ => hfinds) fun hst => ?_
    have htick := h.ticking hc hin nofun hst
    exact ⟨⟨(h.runs hst).1.1.of_same rfl rfl, (h.runs hst).1.2⟩, Or.inl htick⟩
  -- `PostDelayedEvent` touches the clock and the table only
  | now delayed_second =>
    obtain rfl := (Option.some.inj hs).symm
    exact h.outer hc rfl rfl rfl trivial (Steady.of_same rfl rfl rfl rfl)
  | insert timeout =>
    obtain ⟨-, rfl⟩ := State.insert_cases hs
    exact h.outer hc rfl rfl rfl trivial (Steady.of_same rfl rfl rfl rfl)

/-! ## The steps of a worker and of the timer

A tick is a pending wait, a ready handler, or a worker that has taken that up. A step moves it from
one to the next, and the worker begins the next wait before it is through. -/

/-- A worker goes on. One that ticked ticks on, unless what it did is another tick. -/
theorem Steady.worker {pc' : Worker} (hws : s'.worker_threads_ = s.worker_threads_.set w pc')
    (hst : s'.stoped_ = s.stoped_) (hl : s'.startlock = s.startlock)
    (hio : s'.io_context_.stopped = s.io_context_.stopped)
    (hexit : s.io_context_.stopped = false → pc' ≠ .exited)
    (htick : Ticking s → Ticking s') : Steady s s' where
  stoped_ := hst
  startlock := hl
  length := by rw [hws, List.length_set]
  running h := by
    refine ⟨hio.trans h.stopped, fun pd hpd => ?_⟩
    rw [hws] at hpd
    obtain ⟨d, hd⟩ := List.mem_iff_getElem?.mp hpd
    rcases getElem?_set_cases hd with ⟨-, rfl⟩ | ⟨-, hd⟩
    · exact hexit h.stopped
    · exact h.looping pd (List.mem_of_getElem? hd)
  ticking := htick

/-- A worker that does nothing to the context. -/
theorem Steady.workerGoto {pc pc' : Worker} (hw : s.worker_threads_[w]? = some pc)
    (hws : s'.worker_threads_ = s.worker_threads_.set w pc') (hst : s'.stoped_ = s.stoped_)
    (hl : s'.startlock = s.startlock) (hio : s'.io_context_ = s.io_context_)
    (hexit : s.io_context_.stopped = false → pc' ≠ .exited)
    (htick : pc.ticking = true → pc'.ticking = true) : Steady s s' := by
  refine Steady.worker hws hst hl (by rw [hio]) hexit fun h => ?_
  have hset := countP_set_add (p := Worker.ticking) hw pc'
  have hle : (if pc.ticking then 1 else 0) ≤ if pc'.ticking then 1 else 0 := by
    split
    · next ht => rw [if_pos (htick ht)]
    · exact Nat.zero_le _
  unfold Ticking ticks at h ⊢
  rw [hio, hws]
  omega

theorem Steady.test (hs : s.test w = some s') : Steady s s' := by
  unfold State.test at hs
  split at hs
  · next hw =>
    obtain rfl := (Option.some.inj hs).symm
    refine Steady.workerGoto hw rfl rfl rfl rfl (fun hrun => ?_) nofun
    rw [hrun]
    exact nofun
  · cases hs

/-- A tick that is taken up goes on in the worker. -/
theorem Steady.take {i : Nat} (hs : s.take w i = some s') : Steady s s' := by
  obtain ⟨handler, hw, hi, -, rfl⟩ := State.take_cases hs
  refine Steady.worker rfl rfl rfl rfl (fun _ => ?_) fun h => ?_
  · cases handler with
    | check error => cases error <;> exact nofun
    | event e => exact nofun
  · have hready := countP_eraseIdx_add (p := fun x => decide (x = .check false)) hi
    have hset := countP_set_add (p := Worker.ticking) hw handler.execute
    have hsame : (if handler.execute.ticking = true then 1 else 0) =
        if decide (handler = .check false) = true then 1 else 0 := by
      cases handler with
      | check error => cases error <;> rfl
      | event e => rfl
    rw [hsame, if_neg (by decide)] at hset
    unfold Ticking ticks at h
    show 1 ≤ s.io_context_.waits + (s.io_context_.ready.eraseIdx i).countP _ +
      (s.worker_threads_.set w handler.execute).countP _
    omega

/-- A worker in its tick is one, whatever becomes of the waits. -/
theorem Ticking.of_worker {pc : Worker} (hw : s.worker_threads_[w]? = some pc)
    (hpc : pc.ticking = true) : Ticking s := by
  have hpos : 0 < s.worker_threads_.countP Worker.ticking :=
    List.countP_pos_iff.mpr ⟨pc, List.mem_of_getElem? hw, hpc⟩
  exact Nat.le_add_left_of_le hpos

theorem getElem?_worker_set {pc pc' : Worker} (hw : s.worker_threads_[w]? = some pc) :
    (s.worker_threads_.set w pc')[w]? = some pc' :=
  List.getElem?_set_self (lt_length_of_getElem? hw)

/-- An event is posted to the context, or dropped where the queue is stopped. The ticks stay as they
are. -/
theorem Steady.post {pc' : Worker} {curr_time e : Nat} {rest : List Nat}
    (hw : s.worker_threads_[w]? = some (.post curr_time (e :: rest)))
    (hpc : pc' = .post curr_time rest) :
    ((s.postEvent e curr_time).workerGoto w pc').callers = s.callers ∧
      Steady s ((s.postEvent e curr_time).workerGoto w pc') := by
  subst hpc
  rcases s.postEvent_cases e curr_time with ⟨-, he⟩ | ⟨-, he⟩
  · rw [he]
    refine ⟨rfl, ?_⟩
    exact Steady.workerGoto hw rfl rfl rfl rfl (fun _ => nofun) fun _ => rfl
  · rw [he]
    refine ⟨rfl, ?_⟩
    exact Steady.worker rfl rfl rfl rfl (fun _ => nofun)
      fun _ => Ticking.of_worker (getElem?_worker_set hw) rfl

/-- In its handler a worker takes no tick away: the wait that it was woken by is the one that it
begins again. -/
theorem Steady.workAt {pc : Worker} (hw : s.worker_threads_[w]? = some pc)
    (hs : s.workAt w pc = some s') : s'.callers = s.callers ∧ Steady s s' := by
  cases pc with
  | looping | running | exited => cases hs
  | event e =>
    obtain rfl := (Option.some.inj hs).symm
    exact ⟨rfl, Steady.workerGoto hw rfl rfl rfl rfl (fun _ => nofun) nofun⟩
  | clear =>
    obtain ⟨-, rfl⟩ := State.clear_cases hs
    exact ⟨rfl, Steady.workerGoto hw rfl rfl rfl rfl (fun _ => nofun) nofun⟩
  | now =>
    obtain rfl := (Option.some.inj hs).symm
    exact ⟨rfl, Steady.workerGoto hw rfl rfl rfl rfl (fun _ => nofun) fun _ => rfl⟩
  | lock curr_time =>
    obtain ⟨-, rfl⟩ := State.lock_cases hs
    exact ⟨rfl, Steady.workerGoto hw rfl rfl rfl rfl (fun _ => nofun) fun _ => rfl⟩
  | check curr_time =>
    obtain ⟨timeout, events, -, -, rfl⟩ | ⟨-, rfl⟩ := State.check_cases hs
    · exact ⟨rfl, Steady.workerGoto hw rfl rfl rfl rfl (fun _ => nofun) fun _ => rfl⟩
    · exact ⟨rfl, Steady.workerGoto hw rfl rfl rfl rfl (fun _ => nofun) fun _ => rfl⟩
  | post curr_time rest =>
    cases rest with
    | nil =>
      obtain rfl := (Option.some.inj hs).symm
      exact ⟨rfl, Steady.workerGoto hw rfl rfl rfl rfl (fun _ => nofun) fun _ => rfl⟩
    | cons e rest =>
      obtain rfl := (Option.some.inj hs).symm
      exact Steady.post hw rfl
  | expires =>
    -- the tick ends the old wait, and has one in hand until it starts the next
    obtain rfl := (Option.some.inj hs).symm
    exact ⟨rfl, Steady.worker rfl rfl rfl rfl (fun _ => nofun)
      fun _ => Ticking.of_worker (getElem?_worker_set hw) rfl⟩
  | wait =>
    obtain rfl := (Option.some.inj hs).symm
    refine ⟨rfl, Steady.worker rfl rfl rfl rfl (fun _ => nofun) fun _ => ?_⟩
    exact Nat.le_add_right_of_le (Nat.le_add_right_of_le (Nat.le_add_left 1 _))

theorem Steady.expire (hs : s.expire = some s') : Steady s s' := by
  obtain ⟨-, rfl⟩ := State.expire_cases hs
  refine ⟨rfl, rfl, rfl, fun h => ⟨h.stopped, h.looping⟩, fun h => ?_⟩
  unfold Ticking ticks IoContext.complete at *
  simp only [List.countP_append, List.countP_replicate, decide_true, if_true]
  omega

/-- A step of anybody. The workers and the clock keep what the callers have set up. -/
theorem Alive.step {a : Action} (h : Alive s) (hk : ∀ c k, a = .start c k → 1 ≤ k)
    (hs : s.step a = some s') : Alive s' := by
  cases a with
  | start c k => exact h.start (hk c k rfl) hs
  | stop c => exact h.stop hs
  | postDelayedEvent c delayed_second => exact h.postDelayedEvent hs
  | clearDelayedEvent c => exact h.clearDelayedEvent hs
  | next c => exact h.next hs
  | test w =>
    obtain ⟨-, rfl | rfl⟩ := State.test_cases hs
    · exact h.steady rfl (Steady.test hs)
    · exact h.steady rfl (Steady.test hs)
  | take w i =>
    have hk := Steady.take hs
    obtain ⟨handler, -, -, -, rfl⟩ := State.take_cases hs
    exact h.steady rfl hk
  | leave w =>
    obtain ⟨hw, rfl⟩ := State.leave_cases hs
    exact h.steady rfl (Steady.workerGoto hw rfl rfl rfl rfl (fun _ => nofun) nofun)
  | work w =>
    obtain ⟨pc, hw, hs⟩ := State.work_cases hs
    obtain ⟨hcallers, hk⟩ := Steady.workAt hw hs
    exact h.steady hcallers hk
  | expire =>
    have hk := Steady.expire hs
    obtain ⟨-, rfl⟩ := State.expire_cases hs
    exact h.steady rfl hk
  | advance d =>
    obtain rfl := (Option.some.inj hs).symm
    exact h.steady rfl (Steady.of_same rfl rfl rfl rfl)

/-- A queue that was never started is at rest. -/
theorem alive_init (n : Nat) : Alive (queue n).init where
  lock := List.countP_eq_zero.mpr fun pc hpc => by
    rw [List.eq_of_mem_replicate hpc]
    exact nofun
  finds c pc hc := by
    obtain rfl : pc = .idle := List.eq_of_mem_replicate (List.mem_of_getElem? hc)
    trivial
  free _ := fun _ => rfl
  runs hst := by cases hst

/-! ## The next check

From a started queue to the next look at the table, by steps of the workers and the clock alone.
First the lock has to be free, then a tick has to come, and then it goes through the table. -/

/-- A step of a worker, of the timer or of the clock. -/
def Action.alone : Action → Prop
  | .test _ | .take _ _ | .leave _ | .work _ | .expire | .advance _ => True
  | .start _ _ | .stop _ | .postDelayedEvent _ _ | .clearDelayedEvent _ | .next _ => False

/-- A queue that can go on by itself. What is needed to get to the next check without the help of a
caller. Nobody of the callers moves meanwhile. -/
structure Going (s : State) : Prop where
  base : Base s
  running : Running s
  manned : 1 ≤ s.worker_threads_.length
  ticking : Ticking s

/-- As long as no caller moves, all is kept. -/
theorem Steady.alone {a : Action} (ha : a.alone) (hs : s.step a = some s') : Steady s s' := by
  cases a with
  | test w => exact Steady.test hs
  | take w i => exact Steady.take hs
  | leave w =>
    obtain ⟨hw, rfl⟩ := State.leave_cases hs
    exact Steady.workerGoto hw rfl rfl rfl rfl (fun _ => nofun) nofun
  | work w =>
    obtain ⟨pc, hw, hs⟩ := State.work_cases hs
    exact (Steady.workAt hw hs).2
  | expire => exact Steady.expire hs
  | advance d =>
    obtain rfl := (Option.some.inj hs).symm
    exact Steady.of_same rfl rfl rfl rfl
  | start c k | stop c | postDelayedEvent c k | clearDelayedEvent c | next c => cases ha

theorem Going.step {a : Action} (h : Going s) (ha : a.alone) (hs : s.step a = some s') :
    Going s' := by
  have hk := Steady.alone ha hs
  exact ⟨(h.base.step hs).1, hk.running h.running, hk.length ▸ h.manned, hk.ticking h.ticking⟩

variable {n : Nat}

/-- The workers and the clock by themselves get from one state to the other. -/
abbrev Alone (n : Nat) (s t : State) : Prop := (queue n).Leads Action.alone s t

theorem Going.alone {t : State} (h : Going s) (ht : Alone n s t) : Going t :=
  ht.inv (fun h ha hs => Going.step h ha hs) h

theorem step_work {pc : Worker} (hw : s.worker_threads_[w]? = some pc) :
    (queue n).step s (.work w) = s.workAt w pc := by
  show s.work w = s.workAt w pc
  unfold State.work
  rw [hw]

/-- How much a tick has to do with the table. -/
def weight (entries : List (Nat × List Nat)) : Nat := total (fun e => e.2.length + 2) entries

/-- And how much of it a worker has yet to do. -/
def Worker.todo (tab : DelayedEventTab) : Worker → Nat
  | .check _ => weight tab.entries + 1
  | .post _ rest => rest.length + 2 + weight tab.entries.tail
  | _ => 0

def State.todo (w : Nat) (s : State) : Nat :=
  (s.worker_threads_[w]?.map (Worker.todo s.delay_eventtab_)).getD 0

/-- Worker `w` has left the table, and nothing that is due at `t` with it. The next thing it does is
to set the timer anew. -/
structure Swept (w t : Nat) (s : State) : Prop where
  worker : s.worker_threads_[w]? = some .expires
  lock : s.delay_event_lock_ = none
  later : ∀ x ∈ s.delay_eventtab_.items, t < x.1

theorem todo_of_worker {pc : Worker} (hw : s.worker_threads_[w]? = some pc) :
    s.todo w = pc.todo s.delay_eventtab_ := by
  unfold State.todo
  rw [hw]
  rfl

theorem weight_first {tab : DelayedEventTab} {timeout : Nat} {events : List Nat}
    (h : tab.first = some (timeout, events)) :
    weight tab.entries = events.length + 2 + weight tab.entries.tail := by
  obtain ⟨entries, sorted⟩ := tab
  cases entries with
  | nil => cases h
  | cons e rest =>
    obtain rfl : e = (timeout, events) := Option.some.inj h
    rfl

theorem later_of_first {tab : DelayedEventTab} {t : Nat}
    (h : ∀ timeout events, tab.first = some (timeout, events) → t < timeout) :
    ∀ x ∈ tab.items, t < x.1 := by
  intro x hx
  obtain ⟨timeout, events, hfirst, hle⟩ := Agenda.first_le hx
  exact Nat.lt_of_lt_of_le (h timeout events hfirst) hle

/-- The tick that has the lock goes through with it, one step at a time. -/
theorem sweep_step {t : Nat} {pc : Worker} (hw : s.worker_threads_[w]? = some pc)
    (hpc : pc.reading = some t) :
    ∃ s', (queue n).step s (.work w) = some s' ∧ s'.clock = s.clock ∧
      ((∃ pc', s'.worker_threads_[w]? = some pc' ∧ pc'.reading = some t) ∨ Swept w t s') ∧
      s'.todo w < s.todo w := by
  rw [step_work hw, todo_of_worker hw]
  cases pc with
  | check t' =>
    obtain rfl : t' = t := Option.some.inj hpc
    obtain ⟨s', hs⟩ : ∃ s', s.workAt w (.check t') = some s' := by
      unfold State.workAt
      dsimp only
      split
      · split
        · exact ⟨_, rfl⟩
        · exact ⟨_, rfl⟩
      · exact ⟨_, rfl⟩
    refine ⟨s', hs, ?_⟩
    -- the first entry is due and its events are posted, or the tick is through
    obtain ⟨timeout, events, hfirst, -, rfl⟩ | ⟨hlate, rfl⟩ := State.check_cases hs
    · refine ⟨rfl, Or.inl ⟨_, getElem?_worker_set hw, rfl⟩, ?_⟩
      rw [todo_of_worker (getElem?_worker_set hw)]
      show events.length + 2 + weight s.delay_eventtab_.entries.tail <
        weight s.delay_eventtab_.entries + 1
      rw [weight_first hfirst]
      exact Nat.lt_succ_self _
    · refine ⟨rfl, Or.inr ⟨getElem?_worker_set hw, rfl, later_of_first hlate⟩, ?_⟩
      rw [todo_of_worker (getElem?_worker_set hw)]
      exact Nat.succ_pos _
  | post t' rest =>
    obtain rfl : t' = t := Option.some.inj hpc
    -- the entry whose events are all posted is erased
    cases rest with
    | nil =>
      refine ⟨_, rfl, rfl, Or.inl ⟨_, getElem?_worker_set hw, rfl⟩, ?_⟩
      rw [todo_of_worker (getElem?_worker_set hw)]
      show weight s.delay_eventtab_.entries.tail + 1 <
        0 + 2 + weight s.delay_eventtab_.entries.tail
      omega
    | cons e rest =>
      refine ⟨_, rfl, ?_⟩
      rcases s.postEvent_cases e t' with ⟨-, he⟩ | ⟨-, he⟩
      all_goals
        rw [he]
        refine ⟨rfl, Or.inl ⟨_, getElem?_worker_set hw, rfl⟩, ?_⟩
        rw [todo_of_worker (getElem?_worker_set hw)]
        show rest.length + 2 + weight s.delay_eventtab_.entries.tail <
          rest.length + 1 + 2 + weight s.delay_eventtab_.entries.tail
        omega
  | looping | running | event _ | clear | now | lock _ | expires | wait | exited => cases hpc

/-- A worker that has read the clock gets through its tick by itself: the entries that are due go
one after the other, and behind them it leaves the table. -/
theorem sweep {t : Nat} {pc : Worker} (hw : s.worker_threads_[w]? = some pc)
    (hpc : pc.reading = some t) : ∃ u, Alone n s u ∧ u.clock = s.clock ∧ Swept w t u := by
  let I : State → Prop := fun u => u.clock = s.clock ∧
    ((∃ pc', u.worker_threads_[w]? = some pc' ∧ pc'.reading = some t) ∨ Swept w t u)
  have hstep : ∀ u, I u → ¬ Swept w t u → ∃ a u', Action.alone a ∧
      (queue n).step u a = some u' ∧ I u' ∧ u'.todo w < u.todo w := by
    rintro u ⟨hclock, ⟨pc', hw', hpc'⟩ | hswept⟩ hgoal
    · obtain ⟨u', hu', hclock', hor, hlt⟩ := sweep_step (n := n) hw' hpc'
      exact ⟨.work w, u', trivial, hu', ⟨hclock'.trans hclock, hor⟩, hlt⟩
    · exact absurd hswept hgoal
  obtain ⟨u, hu, ⟨hclock, -⟩, hswept⟩ :=
    Machine.leads_of_measure (State.todo w) hstep ⟨rfl, Or.inl ⟨pc, hw, hpc⟩⟩
  exact ⟨u, hu, hclock, hswept⟩

/-! ### Where no tick has the lock

A tick that waits for the lock takes it and goes through the table. If there is none, a worker comes
to where it takes one up, and for a wait that is pending the clock goes on until it expires. -/

/-- The lock is free, and the clock has come this far. The clock is a lower bound, since it may have
gone on. -/
structure Open (clock : Nat) (s : State) : Prop where
  going : Going s
  lock : s.delay_event_lock_ = none
  clock_le : clock ≤ s.clock

/-- Whoever has the lock of the table gives it back without anybody's help. -/
theorem Going.open (h : Going s) : ∃ u, Alone n s u ∧ Open s.clock u := by
  cases hl : s.delay_event_lock_ with
  | none => exact ⟨s, Machine.Leads.refl s, h, hl, Nat.le_refl _⟩
  | some w =>
    obtain ⟨pc, hw, hholds⟩ := (h.base.owned w).mp hl
    obtain ⟨t, ht⟩ : ∃ t, pc.reading = some t := by
      cases pc with
      | check t => exact ⟨t, rfl⟩
      | post t rest => exact ⟨t, rfl⟩
      | _ => cases hholds
    obtain ⟨u, hu, hclock, hswept⟩ := sweep (n := n) hw ht
    exact ⟨u, hu, h.alone hu, hswept.lock, Nat.le_of_eq hclock.symm⟩

variable {clock : Nat}

/-- A step that leaves the lock free. -/
theorem Open.step {a : Action} {u : State} (h : Open clock s) (ha : a.alone)
    (hs : (queue n).step s a = some u) (hl : u.delay_event_lock_ = none)
    (hclock : s.clock ≤ u.clock) : Alone n s u ∧ Open clock u :=
  ⟨Machine.Leads.single ha hs, h.going.step ha hs, hl, Nat.le_trans h.clock_le hclock⟩

theorem Open.not_holds (h : Open clock s) {pc : Worker} (hw : s.worker_threads_[w]? = some pc) :
    pc.holds = false := by
  refine Bool.eq_false_iff.mpr fun hholds => ?_
  have hlock := (h.going.base.owned w).mpr ⟨pc, hw, hholds⟩
  rw [h.lock] at hlock
  cases hlock

/-- What is left of a tick once it has left the table. -/
theorem Open.wait (h : Open clock s) (hw : s.worker_threads_[w]? = some .wait) :
    ∃ u, Alone n s u ∧ Open clock u ∧ u.worker_threads_[w]? = some .running ∧
      1 ≤ u.io_context_.waits := by
  obtain ⟨hu, hopen⟩ := h.step (n := n) (a := .work w) trivial (step_work hw) h.lock (Nat.le_refl _)
  exact ⟨_, hu, hopen, getElem?_worker_set hw, Nat.le_add_left 1 _⟩

theorem Open.expires (h : Open clock s) (hw : s.worker_threads_[w]? = some .expires) :
    ∃ u, Alone n s u ∧ Open clock u ∧ u.worker_threads_[w]? = some .running ∧
      1 ≤ u.io_context_.waits := by
  obtain ⟨ht, hopen⟩ := h.step (n := n) (a := .work w) trivial (step_work hw) h.lock (Nat.le_refl _)
  obtain ⟨u, hu, hrest⟩ := hopen.wait (n := n) (getElem?_worker_set hw)
  exact ⟨u, ht.trans hu, hrest⟩

/-- A tick that waits for the lock gets it, and goes through with the table. -/
theorem Open.sweep {t : Nat} (h : Open clock s) (hw : s.worker_threads_[w]? = some (.lock t)) :
    ∃ u, Alone n s u ∧ Open clock u ∧ Swept w t u := by
  let locked : State := ({ s with delay_event_lock_ := some w } : State).workerGoto w (.check t)
  have hs : (queue n).step s (.work w) = some locked := (step_work hw).trans (if_pos h.lock)
  have hw' : locked.worker_threads_[w]? = some (.check t) := getElem?_worker_set hw
  obtain ⟨u, hu, hclock, hswept⟩ := Timer.sweep (n := n) hw' rfl
  have hall : Alone n s u := (Machine.Leads.single (a := .work w) trivial hs).trans hu
  exact ⟨u, hall, ⟨h.going.alone hall, hswept.lock, Nat.le_trans h.clock_le hclock.symm.le⟩, hswept⟩

/-- A tick that has read the clock comes to its end. -/
theorem Open.tick {pc : Worker} (h : Open clock s) (hw : s.worker_threads_[w]? = some pc)
    (htick : pc.ticking = true) (hne : pc ≠ .now) :
    ∃ u, Alone n s u ∧ Open clock u ∧ u.worker_threads_[w]? = some .running ∧
      1 ≤ u.io_context_.waits := by
  cases pc with
  | now => exact absurd rfl hne
  | lock t =>
    obtain ⟨t', ht, hopen, hswept⟩ := h.sweep (n := n) hw
    obtain ⟨u, hu, hrest⟩ := hopen.expires (n := n) hswept.worker
    exact ⟨u, ht.trans hu, hrest⟩
  | check t => exact nomatch h.not_holds hw
  | post t rest => exact nomatch h.not_holds hw
  | expires => exact h.expires hw
  | wait => exact h.wait hw
  | looping | running | event _ | clear | exited => cases htick

/-- A worker comes to where it takes up the next handler, or to the beginning of a tick. -/
theorem Open.idle (h : Open clock s) : ∃ (u : State) (w : Nat), Alone n s u ∧ Open clock u ∧
    (u.worker_threads_[w]? = some .running ∨ u.worker_threads_[w]? = some .now) := by
  obtain ⟨pc, hw⟩ : ∃ pc, s.worker_threads_[0]? = some pc :=
    ⟨_, List.getElem?_eq_getElem h.going.manned⟩
  have hgo : ∀ pc', (queue n).step s (.work 0) = some (s.workerGoto 0 pc') →
      Alone n s (s.workerGoto 0 pc') ∧ Open clock (s.workerGoto 0 pc') := fun pc' hs =>
    h.step (a := .work 0) trivial hs h.lock (Nat.le_refl _)
  -- the first worker does what it is at, to its next look at the queue of handlers
  cases hpc : pc.ticking with
  | true =>
    by_cases hne : pc = .now
    · exact ⟨s, 0, Machine.Leads.refl s, h, Or.inr (hne ▸ hw)⟩
    · obtain ⟨u, hu, hopen, hrun, -⟩ := h.tick (n := n) hw hpc hne
      exact ⟨u, 0, hu, hopen, Or.inl hrun⟩
  | false =>
    cases pc with
    | looping =>
      have hs : (queue n).step s (.test 0) = some (s.workerGoto 0 .running) := by
        show s.test 0 = _
        unfold State.test
        rw [hw, h.going.running.stopped]
        rfl
      obtain ⟨hu, hopen⟩ := h.step (n := n) (a := .test 0) trivial hs h.lock (Nat.le_refl _)
      exact ⟨_, 0, hu, hopen, Or.inl (getElem?_worker_set hw)⟩
    | running => exact ⟨s, 0, Machine.Leads.refl s, h, Or.inl hw⟩
    | event e =>
      obtain ⟨hu, hopen⟩ := hgo .running (step_work hw)
      exact ⟨_, 0, hu, hopen, Or.inl (getElem?_worker_set hw)⟩
    | clear =>
      have hs : (queue n).step s (.work 0) = some
          (({ s with delay_eventtab_ := Agenda.empty } : State).workerGoto 0 .running) :=
        (step_work hw).trans (if_pos h.lock)
      obtain ⟨hu, hopen⟩ := h.step (n := n) (a := .work 0) trivial hs h.lock (Nat.le_refl _)
      exact ⟨_, 0, hu, hopen, Or.inl (getElem?_worker_set hw)⟩
    | exited => exact absurd rfl (h.going.running.looping _ (List.mem_of_getElem? hw))
    | now | lock _ | check _ | post _ _ | expires | wait => cases hpc

/-- A worker in `run_for` takes the tick that is ready. -/
theorem Open.take (h : Open clock s) (hw : s.worker_threads_[w]? = some .running) {i : Nat}
    (hi : s.io_context_.ready[i]? = some (.check false)) :
    ∃ u, Alone n s u ∧ Open clock u ∧ u.worker_threads_[w]? = some .now := by
  have hs : (queue n).step s (.take w i) = some (({ s with io_context_ := { s.io_context_ with
      ready := s.io_context_.ready.eraseIdx i } } : State).workerGoto w .now) := by
    show s.take w i = _
    unfold State.take
    rw [hw, hi]
    dsimp only
    rw [h.going.running.stopped]
    rfl
  obtain ⟨hu, hopen⟩ := h.step (n := n) (a := .take w i) trivial hs h.lock (Nat.le_refl _)
  exact ⟨_, hu, hopen, getElem?_worker_set hw⟩

/-- A wait expires, and a worker takes it up. -/
theorem Open.arrive (h : Open clock s) (hw : s.worker_threads_[w]? = some .running)
    (hwaits : 1 ≤ s.io_context_.waits) :
    ∃ u, Alone n s u ∧ Open clock u ∧ u.worker_threads_[w]? = some .now := by
  let late : State := { s with clock := s.clock + s.io_context_.expiry }
  obtain ⟨ht, hopen⟩ := h.step (n := n) (a := .advance s.io_context_.expiry) (u := late) trivial
    rfl h.lock (Nat.le_add_right _ _)
  have hexpire : (queue n).step late .expire = some
      { late with io_context_ := s.io_context_.complete false } :=
    if_pos (Nat.le_add_left _ _)
  obtain ⟨ht', hopen'⟩ := hopen.step (n := n) (a := .expire) trivial hexpire h.lock (Nat.le_refl _)
  -- the first of the waits stands behind what was ready
  have hi : (s.io_context_.complete false).ready[s.io_context_.ready.length]? =
      some (.check false) := by
    unfold IoContext.complete
    dsimp only
    rw [List.getElem?_append_right (Nat.le_refl _), Nat.sub_self,
      List.getElem?_replicate_of_lt hwaits]
  obtain ⟨u, hu, hrest⟩ := hopen'.take (n := n) hw hi
  exact ⟨u, (ht.trans ht').trans hu, hrest⟩

/-- A tick begins. -/
theorem Open.now (h : Open clock s) : ∃ (u : State) (w : Nat),
    Alone n s u ∧ Open clock u ∧ u.worker_threads_[w]? = some .now := by
  obtain ⟨t, w, ht, hopen, hrun | hnow⟩ := h.idle (n := n)
  · by_cases hwaits : 1 ≤ t.io_context_.waits
    · obtain ⟨u, hu, hrest⟩ := hopen.arrive (n := n) hrun hwaits
      exact ⟨u, w, ht.trans hu, hrest⟩
    · by_cases hready : .check false ∈ t.io_context_.ready
      · obtain ⟨i, hi⟩ := List.mem_iff_getElem?.mp hready
        obtain ⟨u, hu, hrest⟩ := hopen.take (n := n) hrun hi
        exact ⟨u, w, ht.trans hu, hrest⟩
      · -- a worker is in a tick already, and either begins it or ends it in a wait
        have hmem : 0 < t.worker_threads_.countP Worker.ticking := by
          have htick := hopen.going.ticking
          have hnone : t.io_context_.ready.countP (· = .check false) = 0 := by
            refine List.countP_eq_zero.mpr fun x hx heq => hready ?_
            rw [← of_decide_eq_true heq]
            exact hx
          unfold Ticking ticks at htick
          omega
        obtain ⟨pc, hpc, hticking⟩ := List.countP_pos_iff.mp hmem
        obtain ⟨w', hw'⟩ := List.mem_iff_getElem?.mp hpc
        by_cases hne : pc = .now
        · exact ⟨t, w', ht, hopen, hne ▸ hw'⟩
        · obtain ⟨t', ht', hopen', hrun', hwaits'⟩ := hopen.tick (n := n) hw' hticking hne
          obtain ⟨u, hu, hrest⟩ := hopen'.arrive (n := n) hrun' hwaits'
          exact ⟨u, w', (ht.trans ht').trans hu, hrest⟩
  · exact ⟨t, w, ht, hopen, hnow⟩

/-- **The next check always comes about.** Where every `Start` asks for a thread, a started queue
runs its context with a worker in every thread, and outside of a `Start` one wait at least is
pending, has ended or is being handled, however the calls of `Start`, `Stop` and the rest overlap.
From such a state the workers and the clock by themselves get a tick through the table that reads
the clock from now on, so that nothing is left there that is due now. -/
theorem next_check_comes (n : Nat) (as : List Action) (s : State)
    (hrun : (queue n).run as = some s) (hk : ∀ c k, .start c k ∈ as → 1 ≤ k)
    (hst : s.stoped_ = false) :
    (Running s ∧ 1 ≤ s.worker_threads_.length ∧ (Ticking s ∨ .await ∈ s.callers)) ∧
    (.await ∉ s.callers →
      ∃ (u : State) (w t : Nat), Alone n s u ∧ s.clock ≤ t ∧ Swept w t u) := by
  have hok : ∀ a ∈ as, ∀ c k, a = .start c k → 1 ≤ k := by
    rintro a ha c k rfl
    exact hk c k ha
  have hboth : Base s ∧ Alive s :=
    Machine.runFrom_inv_of (I := fun s => Base s ∧ Alive s)
      (fun h hok hs => ⟨(h.1.step hs).1, h.2.step hok hs⟩) hok ⟨Base.init n, alive_init n⟩ hrun
  obtain ⟨hbase, halive⟩ := hboth
  obtain ⟨⟨hrunning, hlen⟩, htick⟩ := halive.runs hst
  refine ⟨⟨hrunning, hlen, htick⟩, fun hawait => ?_⟩
  have hgoing : Going s := ⟨hbase, hrunning, hlen, htick.resolve_right hawait⟩
  obtain ⟨t₀, h₀, hopen₀⟩ := hgoing.open (n := n)
  obtain ⟨t₁, w, h₁, hopen₁, hnow⟩ := hopen₀.now (n := n)
  obtain ⟨h₂, hopen₂⟩ := hopen₁.step (n := n) (a := .work w) trivial (step_work hnow) hopen₁.lock
    (Nat.le_refl _)
  obtain ⟨u, hu, hopen, hswept⟩ := hopen₂.sweep (n := n) (getElem?_worker_set hnow)
  exact ⟨u, w, t₁.clock, ((h₀.trans h₁).trans h₂).trans hu, hopen₁.clock_le, hswept⟩

/-- `Start(1)` by the first caller, and an event without delay by the second. -/
def startedWithEvent : List Action :=
  [.start 0 1, .next 0, .next 0, .next 0, .next 0, .next 0, .next 0, .next 0,
   .postDelayedEvent 1 0, .next 1, .next 1]

theorem next_check_comes_event :
    ∃ s, (queue 2).run startedWithEvent = some s ∧ s.delay_eventtab_.items = [(0, 1)] ∧
      Ticking s ∧ ∃ (u : State) (w t : Nat), Alone 2 s u ∧ s.clock ≤ t ∧ Swept w t u := by
  obtain ⟨s, hs⟩ := Option.isSome_iff_exists.mp
    (show ((queue 2).run startedWithEvent).isSome = true by decide)
  have hend : ((queue 2).run startedWithEvent).map
      (fun s => (s.stoped_, s.callers, s.delay_eventtab_.items)) =
      some (false, [.idle, .idle], [(0, 1)]) := by decide
  rw [hs, Option.map_some, Option.some.injEq, Prod.mk.injEq, Prod.mk.injEq] at hend
  obtain ⟨hst, hcallers, hitems⟩ := hend
  have hawait : .await ∉ s.callers := by
    rw [hcallers]
    decide
  have hstarts : ∀ c k, Action.start c k ∈ startedWithEvent → 1 ≤ k := by
    intro c k hmem
    simp only [startedWithEvent, List.mem_cons, Action.start.injEq, reduceCtorEq,
      or_false, List.not_mem_nil] at hmem
    exact Nat.le_of_eq hmem.2.symm
  obtain ⟨⟨-, -, htick⟩, hcheck⟩ := next_check_comes 2 startedWithEvent s hs hstarts hst
  exact ⟨s, hs, hitems, htick.resolve_right hawait, hcheck hawait⟩

end CppDone.Timer
