import CppDone.Lib.Progress
import CppDone.WorkThread.Order
import CppDone.WorkThread.Wakeups

/-!
# What the worker comes to

The worker has only so many steps to take: each of them, `effort` says, brings it nearer to its
next sleep or uses up a part of what a push, a wake-up or its creation has brought. So it does not
spin, whatever the others do. And it cannot stick anywhere but in its wait: what it pops is there,
and the `Work` it looks at exists, as long as nobody pushes a pointer to one that does not.

Hence a running `WorkThread` works off what it was given. A stopped one does not: the worker goes
through what it has in its hand, leaves the queue as it is and returns, and `StopWork` can join it,
except where its notification got lost.

A null pointer in the queue does no harm: the worker drops it. A pointer to no object would be
another matter, which is why `pointsToWork` is asked of the calls.
-/

set_option autoImplicit false

namespace CppDone.WorkThread

variable {s s' : State} {stoped_ : Bool}

/-! ## How much there is to do

Two measures: the steps of the worker to its next sleep, and its steps to the end of the thread once
the flag is up. A work in the queue counts for a whole turn in the first, and for nothing in the
second. -/

/-- The steps before the worker's next sleep, those for the works in the queue aside. -/
def Worker.effort : Worker → Nat
  | .waiting | .exited | .pop => 0
  | .sleep | .check => 1
  | .test => 2
  | .lock | .woken _ => 3
  | .finishing _ => 4
  | .running _ => 5
  | .starting _ => 6
  | .doing _ => 7
  | .got _ => 8

def State.effort (s : State) : Nat := (s.worker_.map Worker.effort).getD 0 + 9 * s.works_.length

/-- What a step of somebody else may bring. -/
def Action.brings : Action → Nat
  | .push _ => 9
  | .create _ | .notify | .wake => 3
  | _ => 0

/-- The steps before a worker that is told to stop has left, `notify` among them if it sleeps. -/
def Worker.way : Worker → Nat
  | .exited => 0
  | .check => 1
  | .test => 2
  | .lock | .woken _ => 3
  | .waiting | .finishing _ => 4
  | .sleep | .running _ => 5
  | .starting _ => 6
  | .doing _ => 7
  | .got _ => 8
  | .pop => 9

def State.way (s : State) : Nat := (s.worker_.map Worker.way).getD 0

/-- The callback that may begin although the flag is up. -/
def Worker.due : Worker → Nat
  | .pop | .got _ | .doing _ | .starting _ => 1
  | _ => 0

def State.due (s : State) : Nat := (s.worker_.map Worker.due).getD 0

/-- The work whose object the worker is going to look at. -/
def Worker.has : Worker → Option Nat
  | .got work => work
  | .doing work | .starting work | .running work | .finishing work => some work
  | _ => none

/-! ### The loop of the worker

All that the measures need of a step of the worker, in one structure and for one case analysis. -/

/-- A step of the worker from `pc` to `pc'`, as far as getting on goes. Everything that is needed of
a step of the worker, for both measures, so that its loop is gone through once. -/
structure Goes (s : State) (pc : Worker) (s' : State) (pc' : Worker) : Prop where
  worker_ : s'.worker_ = some pc'
  objects : s'.objects.length = s.objects.length
  works_ : s'.works_ ⊆ s.works_
  has : ∀ w, pc'.has = some w → pc.has = some w ∨ some w ∈ s.works_
  effort : pc'.effort + 9 * s'.works_.length + 1 ≤ pc.effort + 9 * s.works_.length
  check : pc' = .check → s.stoped_ = true ∨ s'.works_ ≠ []
  pop : pc' = .pop → pc = .check ∧ s.stoped_ = false ∧ s'.works_ = s.works_
  way : s.stoped_ = true → pc'.way + 1 ≤ pc.way
  due : s.stoped_ = true → s'.begun.length + pc'.due ≤ s.begun.length + pc.due

/-- A step that takes nothing from the queue, and comes neither to `check` nor to `pop`. -/
theorem Goes.goto {pc pc' : Worker} {t : State} (hobjects : t.objects.length = s.objects.length)
    (hworks : t.works_ = s.works_) (hhas : ∀ w, pc'.has = some w → pc.has = some w)
    (heffort : pc'.effort + 1 ≤ pc.effort) (hcheck : pc' ≠ .check) (hpop : pc' ≠ .pop)
    (hway : pc'.way + 1 ≤ pc.way)
    (hdue : t.begun.length + pc'.due ≤ s.begun.length + pc.due) :
    Goes s pc (t.goto pc') pc' where
  worker_ := rfl
  objects := hobjects
  works_ := by
    rw [show (t.goto pc').works_ = s.works_ from hworks]
    exact List.Subset.refl _
  has w hw := .inl (hhas w hw)
  effort := by
    rw [show (t.goto pc').works_ = s.works_ from hworks]
    omega
  check h := absurd h hcheck
  pop h := absurd h hpop
  way _ := hway
  due _ := hdue

/-- One turn of the loop after the other, from the lock to the callback. This is the only place
where the loop of the worker is gone through for what follows. -/
theorem State.workAt_goes {pc : Worker} (h : s.workAt pc = some s') :
    ∃ pc', Goes s pc s' pc' := by
  unfold State.workAt at h
  cases pc with
  | waiting | exited => cases h
  | lock | woken notified =>
    obtain rfl := (Option.some.inj h).symm
    exact ⟨.test, Goes.goto rfl rfl nofun (Nat.le_refl 3) nofun nofun (Nat.le_refl 3)
      (Nat.le_refl _)⟩
  | test =>
    obtain rfl := (Option.some.inj h).symm
    split
    · next hpred =>
      refine ⟨.check, rfl, rfl, List.Subset.refl _, nofun, ?_, fun _ => ?_, nofun, ?_, ?_⟩
      · simp only [State.goto, Worker.effort]
        omega
      · simpa [State.goto] using hpred
      · simp [Worker.way]
      · simp [State.goto, Worker.due]
    · next hpred =>
      -- with the flag up the predicate would have been true
      have hdown : s.stoped_ ≠ true := fun hst => hpred (by simp [hst])
      refine ⟨.sleep, rfl, rfl, List.Subset.refl _, nofun, ?_, nofun, nofun,
        fun hst => absurd hst hdown, fun hst => absurd hst hdown⟩
      simp only [State.goto, Worker.effort]
      omega
  | sleep =>
    obtain rfl := (Option.some.inj h).symm
    exact ⟨.waiting, Goes.goto rfl rfl nofun (by decide) nofun nofun (by decide) (Nat.le_refl _)⟩
  | check =>
    obtain rfl := (Option.some.inj h).symm
    split
    · exact ⟨.exited, Goes.goto rfl rfl nofun (by decide) nofun nofun (by decide) (Nat.le_refl _)⟩
    · next hdown =>
      refine ⟨.pop, rfl, rfl, List.Subset.refl _, nofun, ?_, nofun,
        fun _ => ⟨rfl, Bool.eq_false_iff.mpr hdown, rfl⟩, fun hst => absurd hst hdown,
        fun hst => absurd hst hdown⟩
      simp only [State.goto, Worker.effort]
      omega
  | pop =>
    dsimp only at h
    split at h
    · cases h
    · next work works_ hworks =>
      obtain rfl := (Option.some.inj h).symm
      refine ⟨.got work, rfl, rfl, ?_, fun w hw => .inr ?_, ?_, nofun, nofun, ?_, ?_⟩
      · rw [hworks]
        exact List.subset_cons_self work works_
      · rw [hworks, ← hw]
        exact List.mem_cons_self
      · simp only [State.goto, Worker.effort, hworks, List.length_cons]
        omega
      · simp [Worker.way]
      · simp [State.goto, Worker.due]
  | got work =>
    cases work with
    | none =>
      obtain rfl := (Option.some.inj h).symm
      exact ⟨.lock, Goes.goto rfl rfl nofun (by decide) nofun nofun (by decide)
        (Nat.le_add_right _ _)⟩
    | some work =>
      dsimp only at h
      split at h
      · obtain rfl := (Option.some.inj h).symm
        split
        · exact ⟨.lock, Goes.goto rfl rfl nofun (by simp [Worker.effort]) nofun nofun
            (by simp [Worker.way]) (Nat.le_add_right _ _)⟩
        · exact ⟨.doing work, Goes.goto rfl rfl (fun _ hw => hw) (by simp [Worker.effort]) nofun
            nofun (by simp [Worker.way]) (Nat.le_refl _)⟩
      · cases h
  | doing work =>
    dsimp only at h
    split at h
    · split at h
      · obtain rfl := (Option.some.inj h).symm
        exact ⟨.starting work, Goes.goto (List.length_set ..) rfl (fun _ hw => hw)
          (by simp [Worker.effort]) nofun nofun (by simp [Worker.way]) (Nat.le_refl _)⟩
      · obtain rfl := (Option.some.inj h).symm
        exact ⟨.lock, Goes.goto rfl rfl nofun (by simp [Worker.effort]) nofun nofun
          (by simp [Worker.way]) (Nat.le_add_right _ _)⟩
    · cases h
  | starting work =>
    obtain rfl := (Option.some.inj h).symm
    refine ⟨.running work, Goes.goto rfl rfl (fun _ hw => hw) (by simp [Worker.effort]) nofun nofun
      (by simp [Worker.way]) ?_⟩
    simp [Worker.due]
  | running work =>
    obtain rfl := (Option.some.inj h).symm
    exact ⟨.finishing work, Goes.goto rfl rfl (fun _ hw => hw) (by simp [Worker.effort]) nofun nofun
      (by simp [Worker.way]) (Nat.le_refl _)⟩
  | finishing work =>
    dsimp only at h
    split at h
    · obtain rfl := (Option.some.inj h).symm
      exact ⟨.lock, Goes.goto (List.length_set ..) rfl nofun (by simp [Worker.effort]) nofun nofun
        (by simp [Worker.way]) (Nat.le_refl _)⟩
    · cases h

/-! ## The worker does not spin

It tests, finds something and works on it, or finds nothing and sleeps. There is no way round
without one of the two. -/

theorem Worker.effort_notify (pc : Worker) : pc.notify.effort ≤ pc.effort + 3 := by
  rcases pc.notify_cases with ⟨rfl, hpc⟩ | ⟨-, hpc⟩
  · rw [hpc]
    decide
  · rw [hpc]
    exact Nat.le_add_right _ 3

/-- **Every step of the worker is paid for**: it lowers `effort`, and what another one brings is
`brings`. -/
theorem State.effort_step {a : Action} (h : s.step a = some s') :
    s'.effort + (if a = .work then 1 else 0) ≤ s.effort + a.brings := by
  -- the steps of the others bring what `brings` says; the worker's own one uses something up
  cases a with
  | start =>
    obtain ⟨-, rfl⟩ := State.start_cases h
    exact Nat.le_refl _
  | create ok =>
    obtain ⟨-, ⟨hnone, rfl⟩ | rfl⟩ := State.create_cases h
    · simp only [State.effort, hnone, Action.brings, Worker.effort, Option.map_some,
        Option.map_none, Option.getD_some, Option.getD_none, reduceCtorEq, if_false]
      omega
    · exact Nat.le_add_right _ 3
  | stop =>
    obtain ⟨-, rfl⟩ := State.stop_cases h
    exact Nat.le_refl _
  | notify =>
    obtain ⟨-, rfl⟩ := State.notify_cases h
    cases hw : s.worker_ with
    | none => simp [State.effort, hw]
    | some pc =>
      -- who is woken has a test before it, and no more than that
      have hnotify := pc.effort_notify
      simp only [State.effort, hw, Action.brings, Option.map_some, Option.getD_some, reduceCtorEq,
        if_false]
      omega
  | join =>
    obtain ⟨-, -, rfl⟩ := State.join_cases h
    simp only [State.effort, Option.map_none, Option.getD_none, reduceCtorEq, if_false]
    omega
  | newWork | setWorkStatus | callPush | testStoped =>
    obtain ⟨-, -, hw, hq⟩ := State.prepares_frame rfl h
    simp only [State.effort, hw, hq, reduceCtorEq, if_false]
    omega
  | push i =>
    obtain ⟨ptr, -, -, rfl⟩ := State.push_cases h
    simp only [State.effort, Action.brings, List.length_append, List.length_singleton, reduceCtorEq,
      if_false]
    omega
  | work =>
    obtain ⟨pc, hw, hs⟩ := State.work_cases h
    -- each place of the loop is worth one less than the place before it, or the queue got shorter
    obtain ⟨pc', hgoes⟩ := State.workAt_goes hs
    have heffort := hgoes.effort
    simp only [State.effort, hw, hgoes.worker_, Option.map_some, Option.getD_some, if_true]
    omega
  | wake =>
    obtain ⟨hw, rfl⟩ := State.wake_cases h
    simp only [State.effort, State.goto, hw, Action.brings, Worker.effort, Option.map_some,
      Option.getD_some, reduceCtorEq, if_false]
    omega

/-! ## The worker does not stick

The three places where it could: a pop from an empty queue, a pointer to no work, and a sleep that
nobody ends. The first two are ruled out here, the third one where it is asked about. -/

/-- What is pushed points to a `Work` that exists. -/
def pointsToWork (s : State) : Action → Bool
  | .callPush (some work) => work < s.objects.length
  | _ => true

/-- Every pointer is to a `Work` that exists. A null pointer is to nothing, and allowed. -/
structure Made (s : State) : Prop where
  pushes : ∀ push ∈ s.pushes, ∀ w, push.ptr = some w → w < s.objects.length
  works_ : ∀ w, some w ∈ s.works_ → w < s.objects.length
  worker_ : ∀ pc w, s.worker_ = some pc → pc.has = some w → w < s.objects.length

/-- No `Work` is there, and no pointer to one. -/
theorem made_init : Made (workThread stoped_).init where
  pushes _ h := (by cases h)
  works_ _ h := (by cases h)
  worker_ _ _ h := (by cases h)

/-- No pointer is new, and no `Work` goes. -/
theorem Made.frame (h : Made s) (hobjects : s.objects.length ≤ s'.objects.length)
    (hpushes : s'.pushes ⊆ s.pushes) (hworks : s'.works_ ⊆ s.works_)
    (hworker : ∀ pc w, s'.worker_ = some pc → pc.has = some w →
      (∃ pc, s.worker_ = some pc ∧ pc.has = some w) ∨ some w ∈ s.works_) : Made s' where
  pushes push hpush w hw := (h.pushes push (hpushes hpush) w hw).trans_le hobjects
  works_ w hw := (h.works_ w (hworks hw)).trans_le hobjects
  worker_ pc w hpc hw := by
    refine Nat.lt_of_lt_of_le ?_ hobjects
    rcases hworker pc w hpc hw with ⟨pc, hpc, hw⟩ | hw
    · exact h.worker_ pc w hpc hw
    · exact h.works_ w hw

/-- A call of `PushWork` goes on with its pointer. -/
theorem Made.set (h : Made s) {i : Nat} {ptr : Option Nat} {pc : PushPc}
    (hi : s.pushes[i]? = some { ptr, pc }) (pc' : PushPc) :
    ∀ push ∈ s.pushes.set i { ptr, pc := pc' }, ∀ w, push.ptr = some w → w < s.objects.length := by
  intro push hpush
  rcases List.mem_or_eq_of_mem_set hpush with hold | rfl
  · exact h.pushes push hold
  · exact h.pushes { ptr, pc } (List.mem_of_getElem? hi)

/-- A pointer comes in with a call of `PushWork`, where the assumption is about it; from there it
goes to the queue and to the worker's hand. -/
theorem Made.step (h : Made s) {a : Action} (hok : pointsToWork s a = true)
    (hs : s.step a = some s') : Made s' := by
  -- pointers go from the call into the queue and from there to the worker; objects stay
  cases a with
  | start =>
    obtain ⟨-, rfl⟩ := State.start_cases hs
    exact ⟨h.pushes, h.works_, h.worker_⟩
  | create ok =>
    obtain ⟨-, ⟨-, rfl⟩ | rfl⟩ := State.create_cases hs
    · refine ⟨h.pushes, h.works_, fun pc w hpc hw => ?_⟩
      obtain rfl := Option.some.inj hpc
      cases hw
    · exact ⟨h.pushes, h.works_, h.worker_⟩
  | stop =>
    obtain ⟨-, rfl⟩ := State.stop_cases hs
    exact ⟨h.pushes, h.works_, h.worker_⟩
  | notify =>
    obtain ⟨-, rfl⟩ := State.notify_cases hs
    refine ⟨h.pushes, h.works_, fun pc w hpc hw => ?_⟩
    obtain ⟨pc₀, hpc₀, rfl⟩ := Option.map_eq_some_iff.mp hpc
    rcases pc₀.notify_cases with ⟨rfl, hwoken⟩ | ⟨-, hsame⟩
    · rw [hwoken] at hw
      cases hw
    · rw [hsame] at hw
      exact h.worker_ pc₀ w hpc₀ hw
  | join =>
    obtain ⟨-, -, rfl⟩ := State.join_cases hs
    exact ⟨h.pushes, h.works_, fun _ _ => nofun⟩
  | newWork cb_func_ =>
    obtain rfl := (Option.some.inj hs).symm
    refine h.frame ?_ (List.Subset.refl _) (List.Subset.refl _)
      fun pc w hpc hw => .inl ⟨pc, hpc, hw⟩
    simp
  | setWorkStatus work status =>
    obtain ⟨object, -, rfl⟩ := State.setWorkStatus_cases hs
    refine h.frame ?_ (List.Subset.refl _) (List.Subset.refl _)
      fun pc w hpc hw => .inl ⟨pc, hpc, hw⟩
    simp
  | callPush ptr =>
    obtain rfl := (Option.some.inj hs).symm
    refine ⟨fun push hpush w hw => ?_, h.works_, h.worker_⟩
    rcases List.mem_append.mp hpush with hold | hnew
    · exact h.pushes push hold w hw
    · obtain rfl := List.mem_singleton.mp hnew
      obtain rfl : ptr = some w := hw
      -- this is where a pointer comes in
      simpa [pointsToWork] using hok
  | testStoped i =>
    obtain ⟨ptr, hptr, rfl⟩ := State.testStoped_cases hs
    exact ⟨h.set hptr _, h.works_, h.worker_⟩
  | push i =>
    obtain ⟨ptr, hptr, -, rfl⟩ := State.push_cases hs
    refine ⟨h.set hptr _, fun w hw => ?_, h.worker_⟩
    rcases List.mem_append.mp hw with hold | hnew
    · exact h.works_ w hold
    · exact h.pushes _ (List.mem_of_getElem? hptr) w (List.mem_singleton.mp hnew).symm
  | work =>
    obtain ⟨pc, hw, hs⟩ := State.work_cases hs
    obtain ⟨pc', hgoes⟩ := State.workAt_goes hs
    have hpushes := State.workAt_pushes hs
    refine h.frame (Nat.le_of_eq hgoes.objects.symm) ?_ hgoes.works_ fun pc₁ w hpc₁ hw₁ => ?_
    · rw [hpushes]
      exact List.Subset.refl _
    · obtain rfl := Option.some.inj (hgoes.worker_.symm.trans hpc₁)
      -- the worker has it from before, or from the queue
      exact (hgoes.has w hw₁).imp_left fun hhas => ⟨pc, hw, hhas⟩
  | wake =>
    obtain ⟨-, rfl⟩ := State.wake_cases hs
    refine ⟨h.pushes, h.works_, fun pc w hpc hw => ?_⟩
    obtain rfl := Option.some.inj hpc
    cases hw

/-! ### With something to take

Behind its test the worker pops without looking again. It may, since nobody else takes from the
queue. -/

/-- What the worker found out under the lock still holds, and it has left only if it was told. It
rests on the lock: between the test and the pop nobody else takes from the queue. -/
structure Ready (s : State) : Prop where
  check : s.worker_ = some .check → s.stoped_ = true ∨ s.works_ ≠ []
  pop : s.worker_ = some .pop → s.works_ ≠ []
  exited : s.worker_ = some .exited → s.control = .notifying ∨ s.control = .joining

theorem ready_init : Ready (workThread stoped_).init where
  check h := (by cases h)
  pop h := (by cases h)
  exited h := (by cases h)

theorem map_notify_of_ne {w : Option Worker} {pc : Worker} (hpc : pc ≠ .woken true)
    (h : w.map Worker.notify = some pc) : w = some pc := by
  obtain ⟨pc₀, rfl, hpc₀⟩ := Option.map_eq_some_iff.mp h
  rcases pc₀.notify_cases with ⟨-, hwoken⟩ | ⟨-, hsame⟩
  · exact absurd (hpc₀.symm.trans hwoken) hpc
  · rw [← hpc₀, hsame]

/-- A worker that runs while the flag is up is being stopped. -/
theorem Tested.stopping_of_up (h : Tested s) (hw : s.worker_ ≠ none) (hst : s.stoped_ = true) :
    s.control = .notifying ∨ s.control = .joining := by
  cases hc : s.control with
  | idle =>
    have hdown := h.idle hc hw
    rw [hst] at hdown
    cases hdown
  | creating =>
    have hdown := h.creating hc
    rw [hst] at hdown
    cases hdown
  | notifying => exact .inl rfl
  | joining => exact .inr rfl

/-- The worker is past its test with something to take. Nobody takes it away, since the others only
push. -/
theorem Ready.step (h : Ready s) (ht : Tested s) {a : Action} (hs : s.step a = some s') :
    Ready s' := by
  cases a with
  | start =>
    obtain ⟨hc, rfl⟩ := State.start_cases hs
    refine ⟨fun hw => ?_, h.pop, fun hw => ?_⟩
    · -- a worker that is there has not been told to stop
      have hw : s.worker_ = some .check := hw
      have hdown := ht.idle hc (by rw [hw]; exact nofun)
      exact .inr ((h.check hw).resolve_left (by rw [hdown]; exact nofun))
    · rcases h.exited hw with hc' | hc'
      · cases hc.symm.trans hc'
      · cases hc.symm.trans hc'
  | create ok =>
    obtain ⟨hc, ⟨-, rfl⟩ | rfl⟩ := State.create_cases hs
    · exact ⟨nofun, nofun, nofun⟩
    · refine ⟨h.check, h.pop, fun hw => ?_⟩
      rcases h.exited hw with hc' | hc'
      · cases hc.symm.trans hc'
      · cases hc.symm.trans hc'
  | stop =>
    obtain ⟨-, rfl⟩ := State.stop_cases hs
    exact ⟨fun _ => .inl rfl, h.pop, fun _ => .inl rfl⟩
  | notify =>
    obtain ⟨-, rfl⟩ := State.notify_cases hs
    exact ⟨fun hw => h.check (map_notify_of_ne nofun hw),
      fun hw => h.pop (map_notify_of_ne nofun hw), fun _ => .inr rfl⟩
  | join =>
    obtain ⟨-, -, rfl⟩ := State.join_cases hs
    exact ⟨nofun, nofun, nofun⟩
  | newWork | setWorkStatus | callPush | testStoped =>
    obtain ⟨hst, hc, hw, hq⟩ := State.prepares_frame rfl hs
    refine ⟨?_, ?_, ?_⟩
    · rw [hw, hst, hq]
      exact h.check
    · rw [hw, hq]
      exact h.pop
    · rw [hw, hc]
      exact h.exited
  | push i =>
    obtain ⟨ptr, -, -, rfl⟩ := State.push_cases hs
    have hsome : s.works_ ++ [ptr] ≠ [] := List.append_ne_nil_of_right_ne_nil _ nofun
    exact ⟨fun _ => .inr hsome, fun _ => hsome, h.exited⟩
  | work =>
    obtain ⟨pc, hw, hs⟩ := State.work_cases hs
    obtain ⟨pc', hgoes⟩ := State.workAt_goes hs
    obtain ⟨pc₁, hm⟩ := State.workAt_moves hs
    obtain rfl := Option.some.inj (hgoes.worker_.symm.trans hm.worker_)
    refine ⟨fun hw' => ?_, fun hw' => ?_, fun hw' => ?_⟩
    · rw [hm.stoped_]
      exact hgoes.check (Option.some.inj (hm.worker_.symm.trans hw'))
    · obtain ⟨rfl, hdown, hq⟩ := hgoes.pop (Option.some.inj (hm.worker_.symm.trans hw'))
      rw [hq]
      exact (h.check hw).resolve_left (by rw [hdown]; exact nofun)
    · rw [hm.control]
      refine ht.stopping_of_up (by rw [hw]; exact nofun) ?_
      exact hm.exited (Option.some.inj (hm.worker_.symm.trans hw'))
  | wake =>
    obtain ⟨-, rfl⟩ := State.wake_cases hs
    exact ⟨nofun, nofun, nofun⟩

/-- What holds of a `WorkThread` that is only given pointers to works. Together they are what keeps
the worker from sticking. -/
structure Fit (s : State) : Prop where
  tested : Tested s
  made : Made s
  ready : Ready s

theorem Fit.step (h : Fit s) {a : Action} (hok : pointsToWork s a = true)
    (hs : s.step a = some s') : Fit s' where
  tested := h.tested.step hs
  made := h.made.step hok hs
  ready := h.ready.step h.tested hs

theorem Fit.of_run {as : List Action} (hrun : (workThread stoped_).run as = some s)
    (hptrs : (workThread stoped_).Meets (fun s a => pointsToWork s a = true) as) : Fit s := by
  refine hptrs.inv (I := Fit) ⟨tested_init, made_init, ready_init⟩ ?_ hrun
  exact fun h hok hs => h.step hok hs

theorem Made.object (h : Made s) {pc : Worker} {work : Nat} (hw : s.worker_ = some pc)
    (hhas : pc.has = some work) : ∃ object, s.objects[work]? = some object :=
  ⟨_, List.getElem?_eq_getElem (h.worker_ pc work hw hhas)⟩

/-- **The worker can always go on**, unless it sleeps or has left. -/
theorem Fit.goes (h : Fit s) {pc : Worker} (hw : s.worker_ = some pc) (hsleep : pc ≠ .waiting)
    (hexit : pc ≠ .exited) : ∃ s', s.step .work = some s' := by
  have hstep : s.step .work = s.workAt pc := by
    show s.work = _
    rw [State.work, hw]
  rw [hstep]
  -- it could stick on an empty queue, or at a work that is not there
  cases pc with
  | waiting => exact absurd rfl hsleep
  | exited => exact absurd rfl hexit
  | lock | woken _ | test | sleep | check | starting _ | running _ => exact ⟨_, rfl⟩
  | pop =>
    -- it pops what it has seen, and nobody else takes from the queue
    obtain ⟨work, works_, hq⟩ := List.exists_cons_of_ne_nil (h.ready.pop hw)
    simp [State.workAt, hq]
  | got work =>
    cases work with
    | none => exact ⟨_, rfl⟩
    | some work =>
      obtain ⟨object, ho⟩ := h.made.object hw rfl
      simp [State.workAt, ho]
  | doing work =>
    obtain ⟨object, ho⟩ := h.made.object hw rfl
    cases hcb : object.cb_func_ with
    | true => simp [State.workAt, ho, hcb]
    | false => simp [State.workAt, ho, hcb]
  | finishing work =>
    obtain ⟨object, ho⟩ := h.made.object hw rfl
    simp [State.workAt, ho]

/-! ## A running thread

Where nobody stops it, the worker comes to its sleep, and it sleeps over an empty queue. -/

/-- At work, or asleep over an empty queue. Until a `StopWork` comes or somebody pushes over a
sleeping worker. -/
structure AtWork (s : State) : Prop extends Fit s where
  down : s.stoped_ = false
  there : s.worker_ ≠ none
  asleep : s.worker_ = some .waiting → s.works_ = []

/-- A worker that nobody has told to stop has not left. -/
theorem Fit.not_exited (h : Fit s) (hst : s.stoped_ = false) : s.worker_ ≠ some .exited := by
  intro hw
  have hup := h.tested.stopping (h.ready.exited hw)
  rw [hst] at hup
  cases hup

/-- The worker has nobody to wait for: it goes on, and goes to sleep with an empty queue only. -/
theorem AtWork.work (h : AtWork s) (hs : s.step .work = some s') : AtWork s' := by
  have hfit := h.toFit.step rfl hs
  obtain ⟨pc, hw, hs⟩ := State.work_cases hs
  obtain ⟨pc', hm⟩ := State.workAt_moves hs
  refine ⟨hfit, hm.stoped_.trans h.down, ?_, fun hw' => ?_⟩
  · rw [hm.worker_]
    exact nofun
  · -- what it tested was an empty queue, and nobody pushed since
    obtain rfl := hm.waiting (Option.some.inj (hm.worker_.symm.trans hw'))
    rcases hm.works_ with hq | hpop
    · exact hq.trans (h.tested.sleep hw)
    · cases hpop

/-- The worker's steps, and no others, lead to its sleep. -/
theorem AtWork.drains (stoped_ : Bool) (h : AtWork s) :
    ∃ t, (workThread stoped_).Leads (· = .work) s t ∧ AtWork t ∧ t.worker_ = some .waiting := by
  refine Machine.leads_of_measure State.effort (fun s h hawake => ?_) h
  obtain ⟨pc, hw⟩ := Option.ne_none_iff_exists'.mp h.there
  have hexit := h.toFit.not_exited h.down
  rw [hw] at hawake hexit
  obtain ⟨s', hs⟩ := h.toFit.goes hw (fun he => hawake (congrArg some he))
    (fun he => hexit (congrArg some he))
  have heffort := State.effort_step hs
  simp only [if_true, Action.brings] at heffort
  exact ⟨.work, s', rfl, hs, h.work hs, by omega⟩

/-- Where it sleeps it has to wake up first. -/
theorem Fit.drains (stoped_ : Bool) (h : Fit s) (hst : s.stoped_ = false) (hw : s.worker_ ≠ none) :
    ∃ t, (workThread stoped_).Leads
        (fun a => a = .work ∨ a = .wake ∧ s.worker_ = some .waiting) s t ∧
      AtWork t ∧ t.worker_ = some .waiting := by
  by_cases hsleep : s.worker_ = some .waiting
  · have hwake : s.step .wake = some (s.goto (.woken false)) := by
      show s.wake = _
      rw [State.wake, hsleep]
    have hwork : AtWork (s.goto (.woken false)) :=
      ⟨h.step rfl hwake, hst, Option.some_ne_none _, fun hw => (by cases hw)⟩
    obtain ⟨t, hleads, ht⟩ := hwork.drains stoped_
    exact ⟨t, (Machine.Leads.single (.inr ⟨rfl, hsleep⟩) hwake).trans
      (hleads.mono fun _ => .inl), ht⟩
  · have hwork : AtWork s := ⟨h, hst, hw, fun hw => absurd hw hsleep⟩
    obtain ⟨t, hleads, ht⟩ := hwork.drains stoped_
    exact ⟨t, hleads.mono fun _ => .inl, ht⟩

/-- None of these answers a call. -/
theorem answers_of_own {s : State} {bs : List Action}
    (hbs : ∀ a ∈ bs, a = .work ∨ a = .wake) :
    (workThread stoped_).emitted State.answer s bs = [] := by
  induction bs generalizing s with
  | nil => rfl
  | cons a bs ih =>
    obtain ⟨ha, hrest⟩ := List.forall_mem_cons.mp hbs
    have hanswer : s.answer a = none := by
      rcases ha with rfl | rfl
      · rfl
      · rfl
    simp only [Machine.emitted, hanswer, Option.toList_none, List.nil_append]
    split
    · exact ih hrest
    · rfl

/-- **A running thread does what it is given**, and does not spin. However a run goes on, the worker
takes no more steps than `effort` says and the others bring. It can take one unless it sleeps. Its
own steps, after one wake-up if it slept, lead to its sleep over an empty queue, and what was under
way has then met its fate, in the order in which it was pushed. -/
theorem worker_gets_done (stoped_ : Bool) (as : List Action) (s : State)
    (hrun : (workThread stoped_).run as = some s)
    (hptrs : (workThread stoped_).Meets (fun s a => pointsToWork s a = true) as)
    (hst : s.stoped_ = false) (hw : s.worker_ ≠ none) :
    (∀ bs t, (workThread stoped_).runFrom s bs = some t →
      bs.countP (· = .work) + t.effort ≤ s.effort + total Action.brings bs) ∧
    (s.step .work = none ↔ s.worker_ = some .waiting) ∧
    ∃ bs t, (workThread stoped_).runFrom s bs = some t ∧
      (∀ a ∈ bs, a = .work ∨ a = .wake ∧ s.worker_ = some .waiting) ∧
      t.worker_ = some .waiting ∧ t.works_ = [] ∧
      ((workThread stoped_).emitted State.fate s bs).map Fate.work = s.hand ++ s.works_ := by
  have hfit := Fit.of_run hrun hptrs
  obtain ⟨pc, hpc⟩ := Option.ne_none_iff_exists'.mp hw
  have hexit := hfit.not_exited hst
  rw [hpc] at hexit
  refine ⟨fun bs t hbs => ?_, ⟨fun hstill => ?_, fun hsleep => ?_⟩, ?_⟩
  -- any schedule: the effort pays for the steps of the worker
  · exact Machine.countP_le_of_paid _ Action.brings State.effort
      (fun h => by simpa using State.effort_step h) hbs
  · by_contra hawake
    rw [hpc] at hawake
    obtain ⟨s', hs⟩ := hfit.goes hpc (fun he => hawake (congrArg some he))
      (fun he => hexit (congrArg some he))
    cases hstill.symm.trans hs
  · show s.work = none
    rw [State.work, hsleep]
    rfl
  -- it works alone, from a first wake-up at most, until it sleeps
  · obtain ⟨t, ⟨bs, hbs, hown⟩, hwork, hsleep⟩ := hfit.drains stoped_ hst hw
    -- and it goes to sleep on an empty queue only
    have hempty := hwork.asleep hsleep
    have horder := (passes_run hbs).1
    have hanswers : (workThread stoped_).emitted State.answer s bs = [] :=
      answers_of_own fun a ha => (hown a ha).imp_right And.left
    rw [hanswers, State.hand_eq hsleep, hempty] at horder
    exact ⟨bs, t, hbs, hown, hsleep, hempty, by simpa [Worker.hand] using horder⟩

/-- Posted while the worker slept. -/
def pushedAsleep : List Action :=
  [.start, .create true, .work, .work, .work, .newWork true, .callPush (some 0), .testStoped 0,
    .push 0]

theorem worker_gets_done_pushedAsleep :
    ∃ s t bs, (workThread true).run pushedAsleep = some s ∧ s.works_ = [some 0] ∧
      (workThread true).runFrom s bs = some t ∧ t.works_ = [] ∧
      ((workThread true).emitted State.fate s bs).map Fate.work = [some 0] := by
  obtain ⟨s, hs⟩ := Option.isSome_iff_exists.mp
    (show ((workThread true).run pushedAsleep).isSome = true by decide)
  have hend : ((workThread true).run pushedAsleep).map
      (fun s => (s.stoped_, s.worker_, s.works_, s.hand)) =
      some (false, some .waiting, [some 0], []) := by decide
  rw [hs, Option.map_some, Option.some.injEq, Prod.mk.injEq, Prod.mk.injEq, Prod.mk.injEq] at hend
  obtain ⟨hst, hw, hq, hhand⟩ := hend
  obtain ⟨-, -, bs, t, hbs, -, -, hempty, hfates⟩ :=
    worker_gets_done true pushedAsleep s hs (by decide) hst (by rw [hw]; exact nofun)
  rw [hhand, hq] at hfates
  exact ⟨s, t, bs, hs, hq, hbs, hempty, hfates⟩

/-! ## Stopping

With the flag up the worker leaves at its next test. It may have one callback before it, that of the
work it has in its hand. -/

/-- Until the next `StartWork`, the flag stays up. `Tested` comes along, since it says what the flag
has to do with the controlling thread. -/
structure Leaving (s : State) : Prop where
  tested : Tested s
  up : s.stoped_ = true

/-- The notification brings the worker nearer to its end, and begins no callback. -/
theorem Worker.way_notify (pc : Worker) :
    pc.notify.way ≤ pc.way ∧ pc.notify.due = pc.due := by
  rcases pc.notify_cases with ⟨rfl, hpc⟩ | ⟨-, hpc⟩
  · rw [hpc]
    decide
  · rw [hpc]
    exact ⟨Nat.le_refl _, rfl⟩

/-- Where the flag is up, no step but `StartWork` lengthens the way or lets more callbacks begin. -/
theorem Leaving.step (h : Leaving s) {a : Action} (ha : a ≠ .start) (hs : s.step a = some s') :
    Leaving s' ∧ s'.way + (if a = .work then 1 else 0) ≤ s.way ∧
      s'.begun.length + s'.due ≤ s.begun.length + s.due := by
  have htested := h.tested.step hs
  cases a with
  | start => exact absurd rfl ha
  | create ok =>
    -- `StartWork` has put the flag down before it creates the worker
    obtain ⟨hc, -⟩ := State.create_cases hs
    have hdown := h.tested.creating hc
    rw [h.up] at hdown
    cases hdown
  | stop =>
    obtain ⟨-, rfl⟩ := State.stop_cases hs
    exact ⟨⟨htested, rfl⟩, Nat.le_refl _, Nat.le_refl _⟩
  | notify =>
    obtain ⟨-, rfl⟩ := State.notify_cases hs
    refine ⟨⟨htested, h.up⟩, ?_⟩
    cases hw : s.worker_ with
    | none => simp [State.way, State.due, hw]
    | some pc =>
      obtain ⟨hway, hdue⟩ := pc.way_notify
      simp only [State.way, State.due, hw, Option.map_some, Option.getD_some, reduceCtorEq,
        if_false]
      omega
  | join =>
    obtain ⟨-, -, rfl⟩ := State.join_cases hs
    refine ⟨⟨htested, h.up⟩, ?_⟩
    simp [State.way, State.due]
  | newWork cb_func_ =>
    obtain rfl := (Option.some.inj hs).symm
    exact ⟨⟨htested, h.up⟩, Nat.le_refl _, Nat.le_refl _⟩
  | setWorkStatus work status =>
    obtain ⟨object, -, rfl⟩ := State.setWorkStatus_cases hs
    exact ⟨⟨htested, h.up⟩, Nat.le_refl _, Nat.le_refl _⟩
  | callPush ptr =>
    obtain rfl := (Option.some.inj hs).symm
    exact ⟨⟨htested, h.up⟩, Nat.le_refl _, Nat.le_refl _⟩
  | testStoped i =>
    obtain ⟨ptr, -, rfl⟩ := State.testStoped_cases hs
    exact ⟨⟨htested, h.up⟩, Nat.le_refl _, Nat.le_refl _⟩
  | push i =>
    obtain ⟨ptr, -, -, rfl⟩ := State.push_cases hs
    exact ⟨⟨htested, h.up⟩, Nat.le_refl _, Nat.le_refl _⟩
  | work =>
    obtain ⟨pc, hw, hs⟩ := State.work_cases hs
    obtain ⟨pc', hgoes⟩ := State.workAt_goes hs
    obtain ⟨pc₁, hm⟩ := State.workAt_moves hs
    have hway := hgoes.way h.up
    have hdue := hgoes.due h.up
    refine ⟨⟨htested, hm.stoped_.trans h.up⟩, ?_, ?_⟩
    · simpa [State.way, hw, hgoes.worker_] using hway
    · simpa [State.due, hw, hgoes.worker_] using hdue
  | wake =>
    obtain ⟨hw, rfl⟩ := State.wake_cases hs
    refine ⟨⟨htested, h.up⟩, ?_, ?_⟩
    · simp [State.way, State.goto, hw, Worker.way]
    · simp [State.due, State.goto, hw, Worker.due]

theorem State.way_le (s : State) : s.way ≤ 9 := by
  cases hw : s.worker_ with
  | none => simp [State.way, hw]
  | some pc => cases pc <;> simp [State.way, hw, Worker.way]

theorem State.due_le (s : State) : s.due ≤ 1 := by
  cases hw : s.worker_ with
  | none => simp [State.due, hw]
  | some pc => cases pc <;> simp [State.due, hw, Worker.due]

/-! ### A lost notification

`StopWork` notifies without the lock. If the worker is between its test and its sleep then, it
sleeps for good. -/

/-- The notification got lost. -/
def Lost (s : State) : Prop :=
  s.control = .joining ∧ (s.worker_ = some .sleep ∨ s.worker_ = some .waiting)

/-- The worker and `StopWork`. -/
def Action.stops : Action → Bool
  | .work | .notify => true
  | _ => false

/-- Neither of the two comes on from there: the worker sleeps or is about to, and `StopWork` has
notified already. -/
theorem Lost.step (h : Lost s) {a : Action} (ha : a.stops = true) (hs : s.step a = some s') :
    Lost s' := by
  obtain ⟨hc, hw⟩ := h
  cases a with
  | work =>
    obtain ⟨pc, hpc, hs⟩ := State.work_cases hs
    obtain rfl | rfl : pc = .sleep ∨ pc = .waiting := by
      rw [hpc] at hw
      exact hw.imp Option.some.inj Option.some.inj
    · obtain rfl := (Option.some.inj hs).symm
      exact ⟨hc, .inr rfl⟩
    · cases hs
  | notify =>
    obtain ⟨hc', -⟩ := State.notify_cases hs
    cases hc.symm.trans hc'
  | _ => cases ha

/-- In `StopWork`, and not past a notification that got lost. From the flag to the join. -/
structure Stopping (s : State) : Prop extends Fit s where
  within : s.control = .notifying ∨ s.control = .joining
  kept : ¬ Lost s

/-- Either the worker goes on first, or `StopWork` does, up to the join. -/
theorem Stopping.goes (h : Stopping s) :
    (∃ u, s.step .join = some u) ∨
    ∃ a s', a.stops = true ∧ s.step a = some s' ∧ Stopping s' ∧
      s'.way + (if s'.control = .notifying then 1 else 0) <
        s.way + (if s.control = .notifying then 1 else 0) := by
  have hup := h.tested.stopping h.within
  have hleaving : Leaving s := ⟨h.tested, hup⟩
  by_cases hover : s.worker_ = none ∨ s.worker_ = some .exited ∨ s.worker_ = some .waiting
  · rcases h.within with hc | hc
    · -- `StopWork` notifies
      have hs : s.step .notify =
          some { s with worker_ := s.worker_.map Worker.notify, control := .joining } := by
        show s.notify = _
        rw [State.notify, if_pos hc]
      have hway := (hleaving.step (a := .notify) nofun hs).2.1
      refine .inr ⟨.notify, _, rfl, hs, ⟨h.toFit.step rfl hs, .inr rfl, fun hlost => ?_⟩, ?_⟩
      · rcases hlost.2 with hw | hw
        · have hw := map_notify_sleep hw
          rcases hover with hover | hover | hover
          · cases hover.symm.trans hw
          · cases hover.symm.trans hw
          · cases hover.symm.trans hw
        · exact map_notify_ne_waiting _ hw
      · rw [if_pos hc]
        simp only [reduceCtorEq, if_false] at hway ⊢
        omega
    · -- there is nobody to wait for
      left
      rcases hover with hw | hw | hw
      · refine ⟨{ s with worker_ := none, control := .idle }, ?_⟩
        show s.join = _
        rw [State.join, if_pos hc, hw]
      · refine ⟨{ s with worker_ := none, control := .idle }, ?_⟩
        show s.join = _
        rw [State.join, if_pos hc, hw]
      · exact absurd ⟨hc, .inr hw⟩ h.kept
  · rw [not_or, not_or] at hover
    obtain ⟨pc, hw⟩ := Option.ne_none_iff_exists'.mp hover.1
    rw [hw] at hover
    obtain ⟨s', hs⟩ := h.toFit.goes hw (fun he => hover.2.2 (congrArg some he))
      (fun he => hover.2.1 (congrArg some he))
    have hway := (hleaving.step (a := .work) nofun hs).2.1
    obtain ⟨pc₀, hpc₀, hs₀⟩ := State.work_cases hs
    obtain ⟨pc', hm⟩ := State.workAt_moves hs₀
    refine .inr ⟨.work, s', rfl, hs, ⟨h.toFit.step rfl hs, ?_, fun hlost => ?_⟩, ?_⟩
    · rw [hm.control]
      exact h.within
    · -- it neither tests in vain nor, having done so, sleeps past the notification
      obtain ⟨hc, hsleep | hsleep⟩ := hlost
      · have hdown := (hm.sleep (Option.some.inj (hm.worker_.symm.trans hsleep))).1
        rw [hup] at hdown
        cases hdown
      · obtain rfl := hm.waiting (Option.some.inj (hm.worker_.symm.trans hsleep))
        exact h.kept ⟨hm.control ▸ hc, .inl hpc₀⟩
    · rw [hm.control]
      simp only [if_true] at hway
      omega

/-- **After `StopWork` has raised the flag the worker is as good as gone.** However the run goes on,
until the next `StartWork` it takes nine steps at most and begins one callback at most. And its own
steps together with those of `StopWork` come to where the join returns, unless the notification got
lost; if it did, they never do. -/
theorem stopWork_ends (stoped_ : Bool) (as : List Action) (s : State)
    (hrun : (workThread stoped_).run as = some s)
    (hptrs : (workThread stoped_).Meets (fun s a => pointsToWork s a = true) as)
    (hc : s.control = .notifying ∨ s.control = .joining) :
    (∀ bs t, (workThread stoped_).runFrom s bs = some t → .start ∉ bs →
      bs.countP (· = .work) ≤ 9 ∧ t.begun.length ≤ s.begun.length + 1) ∧
    ((∃ t u, (workThread stoped_).Leads (Action.stops · = true) s t ∧ t.step .join = some u) ↔
      ¬ (s.control = .joining ∧ (s.worker_ = some .sleep ∨ s.worker_ = some .waiting))) := by
  have hfit := Fit.of_run hrun hptrs
  have hleaving : Leaving s := ⟨hfit.tested, hfit.tested.stopping hc⟩
  refine ⟨fun bs t hbs hstart => ?_, ⟨?_, fun hkept => ?_⟩⟩
  · have hne : ∀ a ∈ bs, a ≠ .start := fun a ha he => hstart (he ▸ ha)
    constructor
    · have hle := Machine.countP_le_of_measure (M := workThread stoped_) (I := Leaving)
        (fun a => decide (a = Action.work)) State.way
        (fun h ha hs => ⟨(h.step ha hs).1, by simpa using (h.step ha hs).2.1⟩) hne hleaving hbs
      have hway := s.way_le
      omega
    · have hbegun := (Machine.runFrom_inv_of (M := workThread stoped_)
        (I := fun t => Leaving t ∧ t.begun.length + t.due ≤ s.begun.length + s.due)
        (fun h ha hs => ⟨(h.1.step ha hs).1, (h.1.step ha hs).2.2.trans h.2⟩) hne
        ⟨hleaving, Nat.le_refl _⟩ hbs).2
      have hdue := s.due_le
      omega
  · -- nobody but a spurious wake-up gets the worker out of its wait
    rintro ⟨t, u, hleads, hjoin⟩ hlost
    have hlost : Lost t := hleads.inv (fun h ha hs => h.step ha hs) hlost
    obtain ⟨-, hw, -⟩ := State.join_cases hjoin
    rcases hlost.2 with hw' | hw'
    · rcases hw with hw | hw
      · cases hw.symm.trans hw'
      · cases hw.symm.trans hw'
    · rcases hw with hw | hw
      · cases hw.symm.trans hw'
      · cases hw.symm.trans hw'
  · have hstopping : Stopping s := ⟨hfit, hc, hkept⟩
    have hend : ∃ t, (workThread stoped_).Leads (Action.stops · = true) s t ∧ Stopping t ∧
        ∃ u, t.step .join = some u :=
      Machine.leads_of_measure (fun s => s.way + (if s.control = .notifying then 1 else 0))
        (fun s h hnot => h.goes.resolve_left hnot) hstopping
    obtain ⟨t, hleads, -, u, hjoin⟩ := hend
    exact ⟨t, u, hleads, hjoin⟩

/-- `StopWork` comes when the worker has popped, with another work still posted. -/
def stopPopped : List Action :=
  [.start, .create true, .newWork true, .callPush (some 0), .testStoped 0, .push 0,
    .callPush (some 0), .testStoped 1, .push 1, .work, .work, .work, .work, .stop]

theorem stopWork_ends_stopPopped :
    ∃ s t u, (workThread true).run stopPopped = some s ∧ s.works_ = [some 0] ∧ s.hand = [some 0] ∧
      (workThread true).Leads (Action.stops · = true) s t ∧ t.step .join = some u := by
  obtain ⟨s, hs⟩ := Option.isSome_iff_exists.mp
    (show ((workThread true).run stopPopped).isSome = true by decide)
  have hend : ((workThread true).run stopPopped).map (fun s => (s.control, s.works_, s.hand)) =
      some (.notifying, [some 0], [some 0]) := by decide
  rw [hs, Option.map_some, Option.some.injEq, Prod.mk.injEq, Prod.mk.injEq] at hend
  obtain ⟨hc, hq, hhand⟩ := hend
  have hkept : ¬ (s.control = .joining ∧
      (s.worker_ = some .sleep ∨ s.worker_ = some .waiting)) := by
    rw [hc]
    exact nofun
  obtain ⟨t, u, hleads, hjoin⟩ :=
    (stopWork_ends true stopPopped s hs (by decide) (.inl hc)).2.mpr hkept
  exact ⟨s, t, u, hs, hq, hhand, hleads, hjoin⟩

end CppDone.WorkThread
