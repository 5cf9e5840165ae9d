import CppDone.HttpClient.ThreadPool

/-!
# The threads of `net::ThreadPool`

`threads_` names every worker there is, except the one `start` is about to put in, and a thread
marked as joined belongs to a worker that has left `runInThread`. So when the loop of joins is
through, no worker is left (`exited_of_joined`).

Between a worker's beginning and its place in `threads_` there is one step of `start`
(`Control.pushing`). Nobody can look at `threads_` there, since one thread controls the pool.
-/

set_option autoImplicit false

namespace CppDone.Net.ThreadPool

variable {T : Type} {m : Nat} {s s' : State T}

/-- `threads_` against the workers. A worker that is not named there is the one that `start` has
just created; a thread that is marked has ended; and behind the index of the loop all are marked. -/
structure Tracked (s : State T) : Prop where
  covered : ∀ w < s.workers.length,
    (∃ thread ∈ s.threads_, thread.worker = w) ∨ ∃ turns, s.control = .pushing w turns
  joined : ∀ thread ∈ s.threads_, thread.joined_ = true →
    s.workers[thread.worker]? = some .exited
  passed : ∀ i, s.control = .joining i → ∀ j thread, j < i → s.threads_[j]? = some thread →
    thread.joined_ = true

theorem tracked_init : Tracked (State.init : State T) where
  covered w h := absurd h (Nat.not_lt_zero w)
  joined thread h := by cases h
  passed i h := by cases h

/-- While no thread is being put in, every worker is in `threads_`. -/
theorem Tracked.mem_threads (h : Tracked s) (hc : ∀ w turns, s.control ≠ .pushing w turns) {w : Nat}
    (hw : w < s.workers.length) : ∃ thread ∈ s.threads_, thread.worker = w := by
  rcases h.covered w hw with hthread | ⟨turns, hpush⟩
  · exact hthread
  · exact absurd hpush (hc w turns)

/-- A step that leaves the controlling thread's data alone. -/
theorem Tracked.frame (h : Tracked s) {a : Action T} (hs : s.step m a = some s')
    (ht : s'.threads_ = s.threads_) (hc : s'.control = s.control)
    (hlen : s'.workers.length = s.workers.length) : Tracked s' where
  covered w hw := by
    rw [ht, hc]
    exact h.covered w (hlen ▸ hw)
  joined thread hmem hj := by
    rw [ht] at hmem
    exact State.exited_step (h.joined thread hmem hj) hs
  passed i hi := by
    rw [ht]
    exact h.passed i (hc ▸ hi)

theorem Tracked.join (h : Tracked s) (hs : s.join = some s') : Tracked s' := by
  -- the joins are over, or one fails, or one is done
  obtain ⟨i, hi, ⟨-, rfl⟩ | ⟨thread, hthread, ⟨-, rfl⟩ | ⟨-, hexit, rfl⟩⟩⟩ := State.join_cases hs
  · refine ⟨fun w hw => Or.inl (h.mem_threads ?_ hw), h.joined, fun _ hj => by cases hj⟩
    simp [hi]
  · refine ⟨fun w hw => Or.inl (h.mem_threads ?_ hw), h.joined, fun _ hj => by cases hj⟩
    simp [hi]
  -- the thread is marked; its worker is the same and has left
  · refine ⟨fun w hw => Or.inl ?_, fun th hth hj => ?_, fun i' hi' j th hlt hth => ?_⟩
    · obtain ⟨th, hth, rfl⟩ := h.mem_threads (by simp [hi]) hw
      obtain ⟨j, hj⟩ := List.mem_iff_getElem?.mp hth
      have hget := List.getElem?_set (l := s.threads_) (i := i) (j := j)
        (a := { thread with joined_ := true })
      -- the entry of the worker is the one that is marked, or another
      by_cases hij : i = j
      · subst hij
        rw [hthread] at hj
        cases hj
        rw [if_pos rfl, if_pos (List.getElem?_eq_some_iff.mp hthread).1] at hget
        exact ⟨_, List.mem_of_getElem? hget, rfl⟩
      · rw [if_neg hij, hj] at hget
        exact ⟨_, List.mem_of_getElem? hget, rfl⟩
    · rcases List.mem_or_eq_of_mem_set hth with hth | rfl
      · exact h.joined th hth hj
      · exact hexit
    · obtain rfl : i + 1 = i' := by simpa using hi'
      have hth' : (s.threads_.set i { thread with joined_ := true })[j]? = some th := hth
      rcases getElem?_set_cases hth' with ⟨-, rfl⟩ | ⟨hne, hth'⟩
      · rfl
      · exact h.passed i hi j th (by omega) hth'

theorem Tracked.step (h : Tracked s) {a : Action T} (hs : s.step m a = some s') : Tracked s' := by
  cases hctl : a.isControl with
  | false =>
    -- neither `threads_` nor the number of workers changes
    obtain ⟨-, ht, hc, hlen⟩ := State.step_frame hctl hs
    exact h.frame hs ht hc hlen
  | true =>
    cases a with
    | start n =>
      obtain ⟨hidle, rfl⟩ := State.start_cases hs
      refine ⟨fun w hw => Or.inl (h.mem_threads ?_ hw), h.joined, fun _ hj => by cases hj⟩
      simp [hidle]
    | spawn =>
      rcases State.spawn_cases hs with ⟨hst, rfl⟩ | ⟨turns, hst, rfl⟩
      · refine ⟨fun w hw => Or.inl (h.mem_threads ?_ hw), h.joined, fun _ hj => by cases hj⟩
        simp [hst]
      -- the new worker is the one that `start` is about to put in
      · refine ⟨fun w hw => ?_, fun th hth hj => ?_, fun _ hj => by cases hj⟩
        · have hlen : (s.workers ++ [Worker.test]).length = s.workers.length + 1 :=
            List.length_append
          have hw' : w < s.workers.length + 1 := hlen ▸ hw
          rcases Nat.lt_succ_iff_lt_or_eq.mp hw' with hlt | rfl
          · exact Or.inl (h.mem_threads (by simp [hst]) hlt)
          · exact Or.inr ⟨turns, rfl⟩
        · exact State.exited_step (h.joined th hth hj) hs
    | pushBack =>
      obtain ⟨worker, turns, hpush, rfl⟩ := State.pushBack_cases hs
      refine ⟨fun w hw => Or.inl ?_, fun th hth hj => ?_, fun _ hj => by cases hj⟩
      -- put in: from here on `threads_` names it
      · rcases h.covered w hw with ⟨th, hth, rfl⟩ | ⟨turns', hpush'⟩
        · exact ⟨th, List.mem_append_left _ hth, rfl⟩
        · rw [hpush] at hpush'
          cases hpush'
          exact ⟨_, List.mem_append_right _ (List.mem_singleton.mpr rfl), rfl⟩
      · rcases List.mem_append.mp hth with hth | hth
        · exact h.joined th hth hj
        · rw [List.mem_singleton.mp hth] at hj
          cases hj
    | stop =>
      -- notifying wakes workers and moves none in or out of the loop
      obtain ⟨hidle, heq⟩ := State.stop_cases hs
      have hjoined : ∀ th ∈ s.threads_, th.joined_ = true →
          s'.workers[th.worker]? = some .exited :=
        fun th hth hj => State.exited_step (h.joined th hth hj) hs
      subst heq
      refine ⟨fun w hw => Or.inl (h.mem_threads (by simp [hidle]) ?_), hjoined, ?_⟩
      · simpa [CondVar.notifyAll] using hw
      · intro i hi j th hlt
        obtain rfl : 0 = i := by simpa using hi
        omega
    | join => exact h.join hs
    | run | enter | push | wakeCall | endCall | test | take | wake | exec | finish => cases hctl

/-- At the end of the loop of joins every thread is joined. -/
theorem Tracked.all_joined (h : Tracked s) {i : Nat} (hi : s.control = .joining i)
    (hend : s.threads_[i]? = none) : ∀ thread ∈ s.threads_, thread.joined_ = true := by
  intro thread hmem
  obtain ⟨j, hj⟩ := List.mem_iff_getElem?.mp hmem
  have hlt := (List.getElem?_eq_some_iff.mp hj).1
  have hle := List.getElem?_eq_none_iff.mp hend
  exact h.passed i hi j thread (by omega) hj

/-- When all threads are joined, all workers have exited. -/
theorem Tracked.exited_of_joined (h : Tracked s) (hc : ∀ w turns, s.control ≠ .pushing w turns)
    (hj : ∀ thread ∈ s.threads_, thread.joined_ = true) : ∀ p ∈ s.workers, p = .exited := by
  intro p hp
  obtain ⟨w, hw⟩ := List.mem_iff_getElem?.mp hp
  obtain ⟨thread, hmem, rfl⟩ := h.mem_threads hc (List.getElem?_eq_some_iff.mp hw).1
  rw [h.joined thread hmem (hj thread hmem)] at hw
  exact (Option.some.inj hw).symm

/-! ## Who can have left

A worker leaves when it finds `running_` false. In a pool that has just been started all are in
their loops, and in one that is being stopped any of them may be out. -/

/-- Which workers can have left, by where the controlling thread is. In a pool that runs, only
threads that were joined before it was started can have left: a restart keeps them in `threads_`. -/
structure Staffed (s : State T) : Prop where
  starting : ∀ turns, s.control = .starting turns → s.running_ = true
  pushing : ∀ w turns, s.control = .pushing w turns →
    s.running_ = true ∧ ∃ p, s.workers[w]? = some p ∧ p ≠ .exited
  joining : ∀ i, s.control = .joining i → s.running_ = false
  known : ∀ thread ∈ s.threads_, thread.worker < s.workers.length
  joined : s.control = .idle → s.running_ = false → ∀ thread ∈ s.threads_, thread.joined_ = true
  left : s.running_ = true → ∀ thread ∈ s.threads_,
    s.workers[thread.worker]? = some .exited → thread.joined_ = true

theorem staffed_init : Staffed (State.init : State T) where
  starting _ h := (by cases h)
  pushing _ _ h := (by cases h)
  joining _ h := (by cases h)
  known _ h := (by cases h)
  joined _ _ _ h := (by cases h)
  left h := (by cases h)

/-- A step of a worker or of a caller. -/
theorem Staffed.frame (h : Staffed s) {a : Action T} (ha : a.isControl = false)
    (hs : s.step m a = some s') : Staffed s' := by
  obtain ⟨hr, ht, hc, hlen⟩ := State.step_frame ha hs
  refine ⟨fun turns hst => ?_, fun w turns hpush => ?_, fun i hi => ?_, fun thread hmem => ?_,
    fun hidle hstop thread hmem => ?_, fun hrun thread hmem hexit => ?_⟩
  · rw [hr]
    exact h.starting turns (hc ▸ hst)
  · obtain ⟨hrun, p, hp, hne⟩ := h.pushing w turns (hc ▸ hpush)
    have hlt : w < s'.workers.length := hlen ▸ lt_length_of_getElem? hp
    refine ⟨hr.trans hrun, s'.workers[w], List.getElem?_eq_getElem hlt, fun hexit => ?_⟩
    have hold := State.exited_of_step ha hrun hs ((List.getElem?_eq_getElem hlt).trans
      (congrArg some hexit))
    rw [hp] at hold
    exact hne (Option.some.inj hold)
  · rw [hr]
    exact h.joining i (hc ▸ hi)
  · rw [hlen]
    exact h.known thread (ht ▸ hmem)
  · exact h.joined (hc ▸ hidle) (hr ▸ hstop) thread (ht ▸ hmem)
  · rw [hr] at hrun
    exact h.left hrun thread (ht ▸ hmem) (State.exited_of_step ha hrun hs hexit)

theorem Staffed.join (h : Staffed s) (ht : Tracked s) (hs : s.join = some s') : Staffed s' := by
  obtain ⟨i, hi, ⟨hend, rfl⟩ | ⟨thread, hthread, ⟨-, rfl⟩ | ⟨-, hexit, rfl⟩⟩⟩ :=
    State.join_cases hs
  · exact ⟨nofun, nofun, nofun, h.known, fun _ _ => ht.all_joined hi hend, h.left⟩
  · exact ⟨nofun, nofun, nofun, h.known, nofun, h.left⟩
  · refine ⟨nofun, nofun, fun _ _ => h.joining i hi, fun th hmem => ?_, nofun, fun hrun => ?_⟩
    · rcases List.mem_or_eq_of_mem_set hmem with hmem | rfl
      · exact h.known th hmem
      · exact lt_length_of_getElem? hexit
    · have hstop := h.joining i hi
      have hrun : s.running_ = true := hrun
      rw [hstop] at hrun
      cases hrun

theorem Staffed.step (h : Staffed s) (ht : Tracked s) {a : Action T} (hs : s.step m a = some s') :
    Staffed s' := by
  cases hctl : a.isControl with
  | false => exact h.frame hctl hs
  | true =>
    cases a with
    | start n =>
      obtain ⟨hidle, rfl⟩ := State.start_cases hs
      -- a second `start` in a pool that runs is no different from the first
      refine ⟨fun _ _ => rfl, nofun, nofun, h.known, nofun, fun _ thread hmem hexit => ?_⟩
      cases hr : s.running_ with
      | true => exact h.left hr thread hmem hexit
      | false => exact h.joined hidle hr thread hmem
    | spawn =>
      rcases State.spawn_cases hs with ⟨hst, rfl⟩ | ⟨turns, hst, rfl⟩
      · have hr := h.starting 0 hst
        refine ⟨nofun, nofun, nofun, h.known, fun _ hstop => ?_, h.left⟩
        have hstop : s.running_ = false := hstop
        -- the pool has just been started
        rw [hr] at hstop
        cases hstop
      · have hr := h.starting _ hst
        refine ⟨nofun, fun w turns' hpush => ?_, nofun, fun thread hmem => ?_, nofun,
          fun _ thread hmem hexit => ?_⟩
        -- it is at the test of `running_`, and will find it true
        · obtain ⟨rfl, -⟩ := Control.pushing.inj hpush
          exact ⟨hr, .test, getElem?_snoc.mpr (Or.inr ⟨rfl, rfl⟩), nofun⟩
        · show thread.worker < (s.workers ++ [Worker.test]).length
          rw [List.length_append]
          exact Nat.lt_add_right _ (h.known thread hmem)
        · rcases getElem?_snoc.mp hexit with hexit | ⟨-, heq⟩
          · exact h.left hr thread hmem hexit
          · cases heq
    | pushBack =>
      obtain ⟨worker, turns, hpush, rfl⟩ := State.pushBack_cases hs
      obtain ⟨hr, p, hp, hne⟩ := h.pushing worker turns hpush
      refine ⟨fun _ _ => hr, nofun, nofun, fun thread hmem => ?_, nofun,
        fun _ thread hmem hexit => ?_⟩
      · rcases List.mem_append.mp hmem with hmem | hmem
        · exact h.known thread hmem
        · rw [List.mem_singleton.mp hmem]
          exact lt_length_of_getElem? hp
      -- the thread put in belongs to a worker that is still in its loop
      · rcases List.mem_append.mp hmem with hmem | hmem
        · exact h.left hr thread hmem hexit
        · rw [List.mem_singleton.mp hmem] at hexit
          exact absurd (Option.some.inj (hp.symm.trans hexit)) hne
    -- stopped: who has left is nobody's concern until the next `start`
    | stop =>
      obtain ⟨-, rfl⟩ := State.stop_cases hs
      refine ⟨nofun, nofun, fun _ _ => rfl, fun thread hmem => ?_, nofun, nofun⟩
      show thread.worker < (notEmpty_.notifyAll s.workers).length
      rw [CondVar.notifyAll, List.length_map]
      exact h.known thread hmem
    | join => exact h.join ht hs
    | run | enter | push | wakeCall | endCall | test | take | wake | exec | finish => cases hctl

theorem staffed_inductive : (pool T m).Inductive fun s => Tracked s ∧ Staffed s where
  init := ⟨tracked_init, staffed_init⟩
  step h hs := ⟨h.1.step hs, h.2.step h.1 hs⟩

end CppDone.Net.ThreadPool
