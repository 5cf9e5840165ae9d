import CppDone.Timer.Queue

/-!
# `Start` and `Stop` against each other

`startlock` keeps two sections apart, but `stoped_` is tested before the lock is taken and not
again behind it. A `Stop` that comes too late finds nothing to join and does no harm. A `Start`
that comes too late starts its threads beside those of the `Start` before it.

`OneStart` says where the threads of a state come from: there was a state without any, and since
then one `Start` has taken the lock and nobody else.
-/

set_option autoImplicit false

namespace CppDone.Timer

/-- The caller holds `startlock`. -/
def Caller.inside : Caller → Bool
  | .restart _ | .spawn _ | .await | .start | .stop | .cancel | .halt | .join | .unlock => true
  | .idle | .startLock _ | .stopLock | .now _ | .insert _ => false

/-- What `Start` and `Stop` record once they hold the lock. -/
def Event.transition : Event → Bool
  | .started _ | .stopped => true
  | .accepted _ | .cleared | .posted _ _ => false

def State.transitions (s : State) : List Event := s.hist.filter Event.transition

/-- Since there was no worker thread, a `Start(k)` has taken the lock, and nobody else. -/
def OneStart (n k : Nat) (s : State) : Prop :=
  ∃ t c post, (queue n).Reachable t ∧ t.callers[c]? = some (.startLock k) ∧
    t.worker_threads_ = [] ∧ (queue n).runFrom t (.next c :: post) = some s ∧
    s.transitions = t.transitions ++ [.started k]

/-- The queue between two transitions. The flag says whether there are threads, and if there are
they are those that the last `Start` was asked for. -/
structure Exclusive (n : Nat) (s : State) : Prop where
  flag : s.stoped_ = true ↔ s.worker_threads_ = []
  threads : s.worker_threads_ ≠ [] → ∃ k, OneStart n k s ∧ s.worker_threads_.length = k

variable {n k c : Nat} {s s' : State}

/-! ## Where the threads come from

All threads there are were created by the last `Start` that took the lock, with nobody else having
been in since. -/

/-- The section of a `Start` begins with it as the last transition. -/
theorem OneStart.begin (hr : (queue n).Reachable s) (hc : s.callers[c]? = some (.startLock k))
    (hnone : s.worker_threads_ = []) (hs : (queue n).step s (.next c) = some s')
    (ht : s'.transitions = s.transitions ++ [.started k]) : OneStart n k s' := by
  refine ⟨s, c, [], hr, hc, hnone, ?_, ht⟩
  rw [Machine.runFrom_cons, hs]
  rfl

/-- And it stays so for as long as no other transition is recorded. -/
theorem OneStart.step {a : Action} (h : OneStart n k s) (hs : (queue n).step s a = some s')
    (ht : s'.transitions = s.transitions) : OneStart n k s' := by
  obtain ⟨t, d, post, hr, hd, hnone, hrun, htrans⟩ := h
  refine ⟨t, d, post ++ [a], hr, hd, hnone, ?_, ht.trans htrans⟩
  rw [← List.cons_append, Machine.runFrom_append, hrun]
  simpa using hs

/-- It is the last transition there was. -/
theorem OneStart.eq_last (h : OneStart n k s) {ts : List Event} {k' : Nat}
    (ht : s.transitions = ts ++ [.started k']) : k = k' := by
  obtain ⟨t, d, post, -, -, -, -, htrans⟩ := h
  have hlast := List.append_inj' (htrans.symm.trans ht) rfl
  simpa using hlast.2

theorem transitions_log {ev : Event} (h : ev.transition = false) (s : State) :
    (s.log ev).transitions = s.transitions := by
  unfold State.transitions State.log
  dsimp only
  rw [List.filter_append, List.filter_cons_of_neg (by simp [h]), List.filter_nil,
    List.append_nil]

theorem transitions_log_of_transition {ev : Event} (h : ev.transition = true) (s : State) :
    (s.log ev).transitions = s.transitions ++ [ev] := by
  unfold State.transitions State.log
  dsimp only
  rw [List.filter_append, List.filter_cons_of_pos h, List.filter_nil]

/-! ## The invariant

It is about the moments at which nobody is inside, and it says for the caller that is inside how far
it has come. -/

/-- What a caller in `Start` or `Stop` relies on. -/
def Caller.At (n : Nat) (s : State) : Caller → Prop
  | .startLock k => 1 ≤ k
  | .restart k => s.stoped_ = true ∧ 1 ≤ k ∧ OneStart n k s ∧ s.worker_threads_.length = 0
  | .spawn left =>
    s.stoped_ = true ∧ ∃ k, 1 ≤ k ∧ OneStart n k s ∧ s.worker_threads_.length + left = k
  | .await | .start =>
    s.stoped_ = true ∧ ∃ k, 1 ≤ k ∧ OneStart n k s ∧ s.worker_threads_.length = k
  | .stop | .unlock => Exclusive n s
  | .cancel | .halt | .join => s.stoped_ = true
  | .idle | .stopLock | .now _ | .insert _ => True

/-- Between the transitions the queue is as `Exclusive` says, and inside of one the caller knows how
far it is. -/
structure Guarded (n : Nat) (s : State) : Prop where
  lock : s.callers.countP Caller.inside = if s.startlock then 1 else 0
  at_ : ∀ (c : Nat) (pc : Caller), s.callers[c]? = some pc → pc.At n s
  free : s.startlock = false → Exclusive n s

/-- What nobody outside the sections changes. The workers move, and their number stays. -/
structure Same (n : Nat) (s s' : State) : Prop where
  stoped_ : s'.stoped_ = s.stoped_
  startlock : s'.startlock = s.startlock
  length : s'.worker_threads_.length = s.worker_threads_.length
  oneStart : ∀ k, OneStart n k s → OneStart n k s'

/-! ### What the others keep

Whoever is not in `Start` or in `Stop` changes no flag, no lock and no number of threads, and so
nothing that the invariant is about. -/

theorem Same.of_transitions {a : Action} (hs : (queue n).step s a = some s')
    (hst : s'.stoped_ = s.stoped_) (hl : s'.startlock = s.startlock)
    (hlen : s'.worker_threads_.length = s.worker_threads_.length)
    (ht : s'.transitions = s.transitions) : Same n s s' :=
  ⟨hst, hl, hlen, fun _ h => h.step hs ht⟩

theorem Same.eq_nil_iff (h : Same n s s') : s'.worker_threads_ = [] ↔ s.worker_threads_ = [] := by
  rw [← List.length_eq_zero_iff, ← List.length_eq_zero_iff, h.length]

theorem Exclusive.same (h : Exclusive n s) (hs : Same n s s') : Exclusive n s' where
  flag := by
    rw [hs.stoped_, hs.eq_nil_iff]
    exact h.flag
  threads hne := by
    obtain ⟨k, hone, hlen⟩ := h.threads fun hnil => hne (hs.eq_nil_iff.mpr hnil)
    exact ⟨k, hs.oneStart k hone, hs.length.trans hlen⟩

/-- What the others do between two steps of a caller does not touch what it relies on. -/
theorem Caller.At.same {pc : Caller} (h : pc.At n s) (hs : Same n s s') : pc.At n s' := by
  cases pc with
  | idle | stopLock | now _ | insert _ => trivial
  | startLock k => exact h
  | restart k =>
    obtain ⟨hst, hk, hone, hlen⟩ := h
    exact ⟨hs.stoped_.trans hst, hk, hs.oneStart k hone, hs.length.trans hlen⟩
  | spawn left =>
    obtain ⟨hst, k, hk, hone, hlen⟩ := h
    refine ⟨hs.stoped_.trans hst, k, hk, hs.oneStart k hone, ?_⟩
    rw [hs.length]
    exact hlen
  | await | start =>
    obtain ⟨hst, k, hk, hone, hlen⟩ := h
    exact ⟨hs.stoped_.trans hst, k, hk, hs.oneStart k hone, hs.length.trans hlen⟩
  | stop | unlock => exact Exclusive.same h hs
  | cancel | halt | join => exact hs.stoped_.trans h

/-- A caller outside relies on nothing of the state. -/
theorem Caller.At.outside {pc : Caller} (h : pc.At n s) (hout : pc.inside = false) :
    pc.At n s' := by
  cases pc with
  | idle | stopLock | now _ | insert _ => trivial
  | startLock k => exact h
  | restart _ | spawn _ | await | start | stop | cancel | halt | join | unlock => cases hout

/-- If one caller accounts for the lock, all others are outside. -/
theorem others_outside {callers : List Caller} {pc pd : Caller} {d : Nat}
    (hc : callers[c]? = some pc)
    (hcount : callers.countP Caller.inside = if pc.inside then 1 else 0)
    (hd : callers[d]? = some pd) (hne : d ≠ c) : pd.inside = false := by
  have hset := countP_set_add (p := Caller.inside) hc .idle
  have hzero : (callers.set c .idle).countP Caller.inside = 0 := by
    rw [hcount] at hset
    exact Nat.add_right_cancel (hset.trans (Nat.add_comm _ _))
  have hmem : pd ∈ callers.set c .idle := by
    refine List.mem_of_getElem? (i := d) ?_
    rw [List.getElem?_set_ne (Ne.symm hne), hd]
  exact Bool.eq_false_iff.mpr (List.countP_eq_zero.mp hzero pd hmem)

/-- A step of the caller that holds the lock, takes it or gives it back. -/
theorem Guarded.move (h : Guarded n s) {pc pc' : Caller} (hc : s.callers[c]? = some pc)
    (hin : pc.inside = s.startlock) (hcallers : s'.callers = s.callers.set c pc')
    (hin' : pc'.inside = s'.startlock) (hat : pc'.At n s')
    (hfree : s'.startlock = false → Exclusive n s') : Guarded n s' where
  lock := by
    have hset := countP_set_add (p := Caller.inside) hc pc'
    rw [h.lock, hin, hin'] at hset
    rw [hcallers]
    exact Nat.add_right_cancel (hset.trans (Nat.add_comm _ _))
  at_ d pd hd := by
    rw [hcallers] at hd
    rcases getElem?_set_cases hd with ⟨rfl, rfl⟩ | ⟨hne, hd⟩
    · exact hat
    · refine (h.at_ d pd hd).outside (others_outside hc ?_ hd hne)
      rw [h.lock, hin]
  free := hfree

/-- A step of a caller that stays outside. -/
theorem Guarded.outer (h : Guarded n s) {pc pc' : Caller} (hc : s.callers[c]? = some pc)
    (hout : pc.inside = false) (hcallers : s'.callers = s.callers.set c pc')
    (hout' : pc'.inside = false) (hat : pc'.At n s') (hs : Same n s s') : Guarded n s' where
  lock := by
    have hset := countP_set_add (p := Caller.inside) hc pc'
    rw [hout, hout', h.lock] at hset
    rw [hcallers, hs.startlock]
    exact Nat.add_right_cancel hset
  at_ d pd hd := by
    rw [hcallers] at hd
    rcases getElem?_set_cases hd with ⟨rfl, rfl⟩ | ⟨-, hd⟩
    · exact hat
    · exact (h.at_ d pd hd).same hs
  free hl := (h.free (hs.startlock.symm.trans hl)).same hs

/-- A step of a worker or of the timer. -/
theorem Guarded.same (h : Guarded n s) (hcallers : s'.callers = s.callers) (hs : Same n s s') :
    Guarded n s' where
  lock := by
    rw [hcallers, hs.startlock]
    exact h.lock
  at_ d pd hd := by
    rw [hcallers] at hd
    exact (h.at_ d pd hd).same hs
  free hl := (h.free (hs.startlock.symm.trans hl)).same hs

/-- Who is inside holds the lock. -/
theorem Guarded.locked (h : Guarded n s) {pc : Caller} (hc : s.callers[c]? = some pc)
    (hin : pc.inside = true) : s.startlock = true := by
  have hpos : 0 < s.callers.countP Caller.inside :=
    List.countP_pos_iff.mpr ⟨pc, List.mem_of_getElem? hc, hin⟩
  rw [h.lock] at hpos
  split at hpos
  · next hl => exact hl
  · cases hpos

/-- A step of the caller that holds the lock and keeps it. -/
theorem Guarded.inner (h : Guarded n s) {pc pc' : Caller} (hc : s.callers[c]? = some pc)
    (hin : pc.inside = true) (hcallers : s'.callers = s.callers.set c pc')
    (hin' : pc'.inside = true) (hl : s'.startlock = s.startlock) (hat : pc'.At n s') :
    Guarded n s' := by
  have hheld := h.locked hc hin
  have hheld' : s'.startlock = true := hl.trans hheld
  refine h.move hc (hin.trans hheld.symm) hcallers (hin'.trans hheld'.symm) hat fun hf => ?_
  cases hheld'.symm.trans hf

/-! ## The steps

A `Start` that takes the lock must find the queue stopped. Nothing in the code sees to that, so it
is asked of the run. -/

/-- A `Start` that takes the lock finds the queue stopped. -/
def findsStopped (s : State) : Action → Bool
  | .next c =>
    match s.callers[c]? with
    | some (.startLock _) => s.startlock || s.stoped_
    | _ => true
  | _ => true

theorem Guarded.start (h : Guarded n s) (hk : 1 ≤ k) (hs : s.start c k = some s') :
    Guarded n s' := by
  have hstep : (queue n).step s (.start c k) = some s' := hs
  obtain ⟨hc, rfl | ⟨-, rfl⟩⟩ := State.start_cases hs
  · exact h
  · exact h.outer hc rfl rfl rfl hk (Same.of_transitions hstep rfl rfl rfl rfl)

theorem Guarded.stop (h : Guarded n s) (hs : s.stop c = some s') : Guarded n s' := by
  have hstep : (queue n).step s (.stop c) = some s' := hs
  obtain ⟨hc, rfl | ⟨-, rfl⟩⟩ := State.stop_cases hs
  · exact h
  · exact h.outer hc rfl rfl rfl trivial (Same.of_transitions hstep rfl rfl rfl rfl)

theorem Guarded.postDelayedEvent (h : Guarded n s) {delayed_second : Nat}
    (hs : s.postDelayedEvent c delayed_second = some s') : Guarded n s' := by
  have hstep : (queue n).step s (.postDelayedEvent c delayed_second) = some s' := hs
  obtain ⟨hc, rfl | ⟨-, rfl⟩⟩ := State.postDelayedEvent_cases hs
  · exact h
  · exact h.outer hc rfl rfl rfl trivial (Same.of_transitions hstep rfl rfl rfl rfl)

theorem Guarded.clearDelayedEvent (h : Guarded n s) (hs : s.clearDelayedEvent c = some s') :
    Guarded n s' := by
  have hstep : (queue n).step s (.clearDelayedEvent c) = some s' := hs
  obtain ⟨-, -, rfl⟩ := State.clearDelayedEvent_cases hs
  exact h.same rfl (Same.of_transitions hstep rfl rfl rfl (transitions_log rfl _))

/-- A caller goes on in its call. -/
theorem Guarded.next (h : Guarded n s) (hr : (queue n).Reachable s)
    (hok : findsStopped s (.next c) = true) (hs : s.next c = some s') : Guarded n s' := by
  have hstep : (queue n).step s (.next c) = some s' := hs
  obtain ⟨pc, hc, hs⟩ := State.next_cases hs
  have hat := h.at_ c pc hc
  cases pc with
  | idle => cases hs
  | startLock k =>
    unfold State.nextAt at hs
    dsimp only at hs
    split at hs
    · cases hs
    · next hfree =>
      -- the threads of the last `Start` are joined
      have hfree := eq_false_of_ne_true hfree
      have hst : s.stoped_ = true := by
        simpa only [findsStopped, hc, hfree, Bool.false_or] using hok
      have hnil := (h.free hfree).flag.mp hst
      obtain rfl := Option.some.inj hs
      refine h.move hc hfree.symm rfl rfl ⟨hst, hat, ?_, ?_⟩ nofun
      · exact OneStart.begin hr hc hnil hstep (transitions_log_of_transition rfl _)
      · exact List.length_eq_zero_iff.mpr hnil
  | restart k =>
    obtain rfl := Option.some.inj hs
    obtain ⟨hst, hk, hone, hlen⟩ := hat
    refine h.inner hc rfl rfl rfl rfl ⟨hst, k, hk, hone.step hstep rfl, ?_⟩
    show s.worker_threads_.length + k = k
    rw [hlen, Nat.zero_add]
  | spawn left =>
    obtain ⟨hst, k, hk, hone, hlen⟩ := hat
    cases left with
    | zero =>
      obtain rfl := Option.some.inj hs
      exact h.inner hc rfl rfl rfl rfl ⟨hst, k, hk, hone.step hstep rfl, hlen⟩
    | succ left =>
      obtain rfl := Option.some.inj hs
      refine h.inner hc rfl rfl rfl rfl ⟨hst, k, hk, hone.step hstep rfl, ?_⟩
      show (s.worker_threads_ ++ [Worker.looping]).length + left = k
      rw [List.length_append, List.length_singleton]
      omega
  | await =>
    obtain rfl := Option.some.inj hs
    obtain ⟨hst, k, hk, hone, hlen⟩ := hat
    exact h.inner hc rfl rfl rfl rfl ⟨hst, k, hk, hone.step hstep rfl, hlen⟩
  | start =>
    obtain rfl := Option.some.inj hs
    obtain ⟨hst, k, hk, hone, hlen⟩ := hat
    refine h.inner hc rfl rfl rfl rfl ⟨⟨nofun, fun hnil => ?_⟩, ?_⟩
    · have hnil : s.worker_threads_ = [] := hnil
      rw [hnil] at hlen
      rw [← hlen] at hk
      cases hk
    · exact fun _ => ⟨k, hone.step hstep rfl, hlen⟩
  | stopLock =>
    unfold State.nextAt at hs
    dsimp only at hs
    split at hs
    · cases hs
    · next hfree =>
      have hfree := eq_false_of_ne_true hfree
      obtain rfl := Option.some.inj hs
      refine h.move hc hfree.symm rfl rfl ?_ nofun
      obtain ⟨hflag, hthreads⟩ := h.free hfree
      refine ⟨hflag, fun hne => ?_⟩
      obtain ⟨k, hone, hlen⟩ := hthreads hne
      exact ⟨k, hone.step hstep rfl, hlen⟩
  | stop =>
    obtain rfl := Option.some.inj hs
    exact h.inner hc rfl rfl rfl rfl rfl
  | cancel | halt =>
    obtain rfl := Option.some.inj hs
    exact h.inner hc rfl rfl rfl rfl hat
  | join =>
    unfold State.nextAt at hs
    dsimp only at hs
    split at hs
    · obtain rfl := Option.some.inj hs
      have hst : s.stoped_ = true := hat
      refine h.inner hc rfl rfl rfl rfl ⟨⟨fun _ => rfl, fun _ => hst⟩, ?_⟩
      exact fun hne => absurd rfl hne
    · cases hs
  | unlock =>
    obtain rfl := Option.some.inj hs
    have hl := h.locked hc rfl
    have hexcl : Exclusive n s := hat
    refine h.move hc hl.symm rfl rfl trivial fun _ => ⟨hexcl.flag, fun hne => ?_⟩
    obtain ⟨k, hone, hlen⟩ := hexcl.threads hne
    exact ⟨k, hone.step hstep rfl, hlen⟩
  | now delayed_second =>
    obtain rfl := Option.some.inj hs
    exact h.outer hc rfl rfl rfl trivial (Same.of_transitions hstep rfl rfl rfl rfl)
  | insert timeout =>
    obtain ⟨-, rfl⟩ := State.insert_cases hs
    exact h.outer hc rfl rfl rfl trivial
      (Same.of_transitions hstep rfl rfl rfl (transitions_log rfl _))

/-- A worker moves. -/
theorem Same.workerGoto {a : Action} {w : Nat} {pc : Worker} {t : State}
    (hs : (queue n).step s a = some (t.workerGoto w pc)) (hst : t.stoped_ = s.stoped_)
    (hl : t.startlock = s.startlock) (hw : t.worker_threads_ = s.worker_threads_)
    (ht : t.transitions = s.transitions) : Same n s (t.workerGoto w pc) := by
  refine Same.of_transitions hs hst hl ?_ ht
  show (t.worker_threads_.set w pc).length = s.worker_threads_.length
  rw [List.length_set, hw]

/-- Whatever a worker is at, it has the threads and the flag as before. -/
theorem Guarded.work (h : Guarded n s) {w : Nat} (hs : s.work w = some s') : Guarded n s' := by
  have hstep : (queue n).step s (.work w) = some s' := hs
  obtain ⟨pc, hw, hs⟩ := State.work_cases hs
  -- no worker touches the threads, `startlock` or the flag; one of them adds to the history
  cases pc with
  | looping | running | exited => cases hs
  | event e =>
    obtain rfl := Option.some.inj hs
    exact h.same rfl (Same.workerGoto hstep rfl rfl rfl rfl)
  | clear =>
    obtain ⟨-, rfl⟩ := State.clear_cases hs
    exact h.same rfl (Same.workerGoto hstep rfl rfl rfl rfl)
  | now =>
    obtain rfl := Option.some.inj hs
    exact h.same rfl (Same.workerGoto hstep rfl rfl rfl rfl)
  | lock curr_time =>
    obtain ⟨-, rfl⟩ := State.lock_cases hs
    exact h.same rfl (Same.workerGoto hstep rfl rfl rfl rfl)
  | check curr_time =>
    rcases State.check_cases hs with ⟨timeout, events, -, -, rfl⟩ | ⟨-, rfl⟩
    · exact h.same rfl (Same.workerGoto hstep rfl rfl rfl rfl)
    · exact h.same rfl (Same.workerGoto hstep rfl rfl rfl rfl)
  | post curr_time rest =>
    cases rest with
    | nil =>
      obtain rfl := Option.some.inj hs
      exact h.same rfl (Same.workerGoto hstep rfl rfl rfl rfl)
    | cons e rest =>
      obtain rfl := Option.some.inj hs
      rcases State.postEvent_cases s e curr_time with ⟨-, hpost⟩ | ⟨-, hpost⟩
      · rw [hpost] at hstep ⊢
        exact h.same rfl (Same.workerGoto hstep rfl rfl rfl rfl)
      · rw [hpost] at hstep ⊢
        exact h.same rfl (Same.workerGoto hstep rfl rfl rfl (transitions_log rfl _))
  | expires =>
    obtain rfl := Option.some.inj hs
    exact h.same rfl (Same.workerGoto hstep rfl rfl rfl rfl)
  | wait =>
    obtain rfl := Option.some.inj hs
    exact h.same rfl (Same.workerGoto hstep rfl rfl rfl rfl)

/-- A step of anybody. `findsStopped` is needed at one of them only, where a `Start` takes the lock.
-/
theorem Guarded.step (h : Guarded n s) (hr : (queue n).Reachable s) {a : Action}
    (hok : findsStopped s a = true) (hk : ∀ c k, a = .start c k → 1 ≤ k)
    (hs : (queue n).step s a = some s') : Guarded n s' := by
  have hstep := hs
  cases a with
  | start c k => exact h.start (hk c k rfl) hs
  | stop c => exact h.stop hs
  | postDelayedEvent c delayed_second => exact h.postDelayedEvent hs
  | clearDelayedEvent c => exact h.clearDelayedEvent hs
  | next c => exact h.next hr hok hs
  | test w =>
    obtain ⟨-, rfl | rfl⟩ := State.test_cases hs <;>
      exact h.same rfl (Same.workerGoto hstep rfl rfl rfl rfl)
  | take w i =>
    obtain ⟨handler, -, -, -, rfl⟩ := State.take_cases hs
    exact h.same rfl (Same.workerGoto hstep rfl rfl rfl rfl)
  | leave w =>
    obtain ⟨-, rfl⟩ := State.leave_cases hs
    exact h.same rfl (Same.workerGoto hstep rfl rfl rfl rfl)
  | work w => exact h.work hs
  | expire =>
    obtain ⟨-, rfl⟩ := State.expire_cases hs
    exact h.same rfl (Same.of_transitions hstep rfl rfl rfl rfl)
  | advance d =>
    obtain rfl := Option.some.inj hs
    exact h.same rfl (Same.of_transitions hstep rfl rfl rfl rfl)

theorem guarded_init : Guarded n (queue n).init where
  lock := by
    show (List.replicate n Caller.idle).countP Caller.inside = 0
    rw [List.countP_replicate]
    rfl
  at_ c pc hc := by
    obtain rfl : pc = .idle := List.eq_of_mem_replicate (List.mem_of_getElem? hc)
    trivial
  free _ := ⟨⟨fun _ => rfl, fun _ => rfl⟩, fun hne => absurd rfl hne⟩

/-- The two assumptions about the run, put together to one about its steps. -/
theorem guarded_of_meets {as : List Action} (hrun : (queue n).run as = some s)
    (hk : ∀ c k, .start c k ∈ as → 1 ≤ k)
    (hok : (queue n).Meets (fun s a => findsStopped s a = true) as) : Guarded n s := by
  have hboth : (queue n).Meets
      (fun s a => findsStopped s a = true ∧ ∀ c k, a = .start c k → 1 ≤ k) as := by
    intro pre a post t he ht
    refine ⟨hok pre a post t he ht, ?_⟩
    rintro c k rfl
    exact hk c k (by rw [he]; exact List.mem_append_right _ List.mem_cons_self)
  have hI : (queue n).Reachable s ∧ Guarded n s := by
    refine hboth.inv (I := fun s => (queue n).Reachable s ∧ Guarded n s)
      ⟨Machine.Reachable.init, guarded_init⟩ ?_ hrun
    rintro s a s' ⟨hr, h⟩ ⟨hok, hk⟩ hs
    exact ⟨hr.step hs, h.step hr hok hk hs⟩
  exact hI.2

/-! ## A `Start` that comes too late

The converse. From a `Start` that takes the lock of a running queue the caller goes on by itself,
and its loop creates threads beside those that are there. -/

/-- Caller `c` goes on, and then the rest follows. -/
theorem runFrom_next {pc : Caller} {t u : State} {post : List Action}
    (hc : s.callers[c]? = some pc) (ht : s.nextAt c pc = some t)
    (hrest : (queue n).runFrom t post = some u) :
    (queue n).runFrom s (.next c :: post) = some u := by
  have hnext : (queue n).step s (.next c) = some t := by
    show s.next c = some t
    unfold State.next
    rw [hc]
    exact ht
  rw [Machine.runFrom_cons, hnext]
  exact hrest

theorem callers_goto {pc : Caller} (hc : c < s.callers.length) :
    (s.goto c pc).callers[c]? = some pc :=
  List.getElem?_set_self hc

/-- The loop of `Start` and what is behind it, with nobody else moving. -/
theorem spawns (left : Nat) (hc : s.callers[c]? = some (.spawn left)) :
    ∃ post t, (queue n).runFrom s post = some t ∧ t.startlock = false ∧
      t.worker_threads_.length = s.worker_threads_.length + left ∧
      t.transitions = s.transitions := by
  induction left generalizing s with
  | zero =>
    have hlt := lt_length_of_getElem? hc
    -- the timer is armed, the queue opens, and the lock is free
    let s₁ : State := ({ s with io_context_ := s.io_context_.expiresAt (s.clock + seconds 1) } :
      State).goto c .await
    let s₂ : State := ({ s₁ with io_context_ := s₁.io_context_.asyncWait } : State).goto c .start
    let s₃ : State := ({ s₂ with stoped_ := false } : State).goto c .unlock
    let s₄ : State := ({ s₃ with startlock := false } : State).goto c .idle
    have hlt₁ : c < s₁.callers.length := Nat.lt_of_lt_of_eq hlt List.length_set.symm
    have hlt₂ : c < s₂.callers.length := Nat.lt_of_lt_of_eq hlt₁ List.length_set.symm
    refine ⟨[.next c, .next c, .next c, .next c], s₄, ?_, rfl, rfl, rfl⟩
    refine runFrom_next hc rfl ?_
    refine runFrom_next (callers_goto hlt) rfl ?_
    refine runFrom_next (callers_goto hlt₁) rfl ?_
    exact runFrom_next (callers_goto hlt₂) rfl rfl
  | succ left ih =>
    have hlt := lt_length_of_getElem? hc
    obtain ⟨post, t, hrun, hfree, hlen, ht⟩ := ih (s :=
      ({ s with worker_threads_ := s.worker_threads_ ++ [.looping] } : State).goto c
        (.spawn left)) (callers_goto hlt)
    refine ⟨.next c :: post, t, runFrom_next hc rfl hrun, hfree, ?_, ht⟩
    rw [hlen]
    show (s.worker_threads_ ++ [Worker.looping]).length + left = _
    rw [List.length_append, List.length_singleton]
    omega

/-- A `Start` that takes the lock of a queue that runs goes on all the same, and puts its threads
beside those that are there. It needs nobody else for that. -/
theorem Guarded.late (h : Guarded n s) (hc : s.callers[c]? = some (.startLock k))
    (hfree : s.startlock = false) (hst : s.stoped_ = false) :
    ∃ post t, (queue n).runFrom s (.next c :: post) = some t ∧ t.startlock = false ∧
      ¬ Exclusive n t := by
  have hlt := lt_length_of_getElem? hc
  have hk : 1 ≤ k := h.at_ c _ hc
  have hne : s.worker_threads_ ≠ [] := fun hnil => by
    rw [(h.free hfree).flag.mpr hnil] at hst
    cases hst
  -- the state behind the lock, and behind the restart of the context
  let s₁ := (({ s with startlock := true } : State).log (.started k)).goto c (.restart k)
  let io := if s₁.io_context_.stopped then s₁.io_context_.restart else s₁.io_context_
  let s₂ := ({ s₁ with io_context_ := io } : State).goto c (.spawn k)
  have h₁ : s.nextAt c (.startLock k) = some s₁ := by
    unfold State.nextAt
    dsimp only
    rw [hfree]
    rfl
  have hlt₁ : c < s₁.callers.length := Nat.lt_of_lt_of_eq hlt List.length_set.symm
  obtain ⟨post, t, hrun, hunlocked, hlen, ht⟩ := spawns (n := n) (s := s₂) k (callers_goto hlt₁)
  refine ⟨.next c :: post, t, ?_, hunlocked, fun hexcl => ?_⟩
  · refine runFrom_next hc h₁ ?_
    exact runFrom_next (callers_goto hlt) rfl hrun
  · have hlen' : t.worker_threads_.length = s.worker_threads_.length + k := hlen
    have htrans : t.transitions = s.transitions ++ [.started k] :=
      ht.trans (transitions_log_of_transition rfl _)
    obtain ⟨k', hone, hk'⟩ := hexcl.threads fun hnil => by
      rw [hnil] at hlen'
      have hzero : 0 = s.worker_threads_.length + k := hlen'
      omega
    -- the last transition is this `Start`, and its threads are not all there are
    obtain rfl := hone.eq_last htrans
    have hpos := List.length_pos_iff.mpr hne
    omega

/-- **`Start` and `Stop` exclude each other, unless a `Start` takes the lock of a queue that
runs.** If every `Start` that takes the lock finds the queue stopped, then whenever the lock is
free the flag tells whether there are worker threads, and if so they are those of one `Start`. The
first `Start` that finds the queue running can go on to a state where this fails. -/
theorem transitions_exclusive (n : Nat) (as : List Action) (s : State)
    (hrun : (queue n).run as = some s) (hk : ∀ c k, .start c k ∈ as → 1 ≤ k)
    (hok : (queue n).Meets (fun s a => findsStopped s a = true) as) :
    (s.startlock = false → Exclusive n s) ∧
    ∀ c, findsStopped s (.next c) = false →
      ∃ post t, (queue n).runFrom s (.next c :: post) = some t ∧ t.startlock = false ∧
        ¬ Exclusive n t := by
  have h := guarded_of_meets hrun hk hok
  refine ⟨h.free, fun c hnot => ?_⟩
  unfold findsStopped at hnot
  dsimp only at hnot
  split at hnot
  · next k hc =>
    obtain ⟨hfree, hst⟩ := Bool.or_eq_false_iff.mp hnot
    exact h.late hc hfree hst
  · cases hnot

/-- Two threads call `Start`, and both test the flag before either takes the lock. -/
def twoStarts : List Action :=
  [.start 0 1, .start 1 1, .next 0, .next 0, .next 0, .next 0, .next 0, .next 0, .next 0]

theorem transitions_exclusive_twoStarts :
    ∃ s, (queue 2).run twoStarts = some s ∧ Exclusive 2 s ∧
      ∃ post t, (queue 2).runFrom s (.next 1 :: post) = some t ∧ t.startlock = false ∧
        ¬ Exclusive 2 t := by
  obtain ⟨s, hs⟩ := Option.isSome_iff_exists.mp
    (show ((queue 2).run twoStarts).isSome = true by decide)
  have hend : ((queue 2).run twoStarts).map (fun s => (s.startlock, findsStopped s (.next 1)))
      = some (false, false) := by decide
  have hk : ∀ c k, .start c k ∈ twoStarts → 1 ≤ k := by
    intro c k hmem
    simp only [twoStarts, List.mem_cons, Action.start.injEq, reduceCtorEq, List.not_mem_nil,
      or_false] at hmem
    omega
  rw [hs, Option.map_some, Option.some.injEq, Prod.mk.injEq] at hend
  obtain ⟨hfree, hfinds⟩ := hend
  obtain ⟨hexcl, hlate⟩ := transitions_exclusive 2 twoStarts s hs hk (by decide)
  exact ⟨s, hs, hexcl hfree, hlate 1 hfinds⟩

/-- The second `Start` goes on, and its thread joins that of the first. -/
theorem start_start_overlap :
    ∃ s, (queue 2).run (twoStarts ++ List.replicate 7 (.next 1)) = some s ∧
      s.startlock = false ∧ s.stoped_ = false ∧ s.transitions = [.started 1, .started 1] ∧
      s.worker_threads_.length = 2 ∧ ¬ Exclusive 2 s := by
  obtain ⟨s, hs⟩ := Option.isSome_iff_exists.mp
    (show ((queue 2).run (twoStarts ++ List.replicate 7 (.next 1))).isSome = true by decide)
  have hend : ((queue 2).run (twoStarts ++ List.replicate 7 (.next 1))).map
      (fun s => (s.startlock, s.stoped_, s.transitions, s.worker_threads_.length))
      = some (false, false, [.started 1, .started 1], 2) := by decide
  rw [hs, Option.map_some, Option.some.injEq, Prod.mk.injEq, Prod.mk.injEq, Prod.mk.injEq] at hend
  obtain ⟨hfree, hst, htrans, hlen⟩ := hend
  refine ⟨s, hs, hfree, hst, htrans, hlen, fun hexcl => ?_⟩
  obtain ⟨k, hone, hk⟩ := hexcl.threads fun hnil => by
    rw [hnil] at hlen
    cases hlen
  have htwo : s.transitions = [Event.started 1] ++ [.started 1] := htrans
  obtain rfl := hone.eq_last htwo
  rw [hlen] at hk
  cases hk

end CppDone.Timer
