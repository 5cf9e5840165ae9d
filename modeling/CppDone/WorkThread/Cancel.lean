import CppDone.WorkThread.Loop

/-!
# Cancelled work of `WorkThread`

`DeleteWork` sets the status of a work to `kInvalid`, and the worker drops a work whose status it
reads as `kInvalid`. It reads the status once, before `Doing`, and `Doing` then writes `kStarting`
over whatever is there. So between that read and the beginning of the callback a cancellation goes
unseen, and at every other time before the callback it is final.

`DeleteWork` is therefore without effect exactly in that window (`Window`), from which the worker
comes to the callback by itself.
-/

set_option autoImplicit false

namespace CppDone.WorkThread

variable {s s' : State} {stoped_ : Bool} {w : Nat}

/-- The worker has read the status of `w`, and goes on to its callback. Two places: in `Doing`
before the status is written, and behind that before the callback. -/
def Window (w : Nat) (s : State) : Prop :=
  s.worker_ = some (.starting w) ∨
    s.worker_ = some (.doing w) ∧ ∃ object, s.objects[w]? = some object ∧ object.cb_func_ = true

/-- No status is set but the one that `DeleteWork` sets. -/
def Action.asDeleteWork : Action → Bool
  | .setWorkStatus _ status => decide (status = .kInvalid)
  | _ => true

/-- `w` has not begun, is cancelled, and the worker is not past the check. The worker may have `w`
in its hand still, in front of the check or behind the callback of another turn. -/
structure Cancelled (w : Nat) (s : State) : Prop where
  fresh : w ∉ s.begun
  invalid : ∃ object, s.objects[w]? = some object ∧ object.status_ = .kInvalid
  closed : ¬ Window w s

/-- Not in `Doing` with `w`, or past its callback. -/
def Worker.away (w : Nat) (pc : Worker) : Prop := pc ≠ .doing w ∧ pc ≠ .starting w

/-! ## A cancelled work

Once the status is invalid and the worker is not in the window, the work is out of reach: each step
keeps this, the one that checks the status included. -/

theorem not_window_of_away (h : ∀ pc, s.worker_ = some pc → pc.away w) : ¬ Window w s := by
  rintro (hstart | ⟨hdoing, -⟩)
  · exact (h _ hstart).2 rfl
  · exact (h _ hdoing).1 rfl

/-- A step that begins nothing and leaves `w` alone, with the worker where it was or away. -/
theorem Cancelled.frame (h : Cancelled w s) (hb : s'.begun = s.begun)
    (ho : s'.objects[w]? = s.objects[w]?)
    (hw : ∀ pc, s'.worker_ = some pc → s.worker_ = some pc ∨ pc.away w) : Cancelled w s' where
  fresh := by
    rw [hb]
    exact h.fresh
  invalid := by
    rw [ho]
    exact h.invalid
  closed := by
    rintro (hstart | ⟨hdoing, hcb⟩)
    · rcases hw _ hstart with hsame | haway
      · exact h.closed (Or.inl hsame)
      · exact haway.2 rfl
    · rw [ho] at hcb
      rcases hw _ hdoing with hsame | haway
      · exact h.closed (Or.inr ⟨hsame, hcb⟩)
      · exact haway.1 rfl

/-- The worker goes on to a place away from `w`. -/
theorem Cancelled.goto (h : Cancelled w s) {pc : Worker} (haway : pc.away w) :
    Cancelled w (s.goto pc) := by
  refine h.frame rfl rfl fun pc' hpc' => Or.inr ?_
  obtain rfl := Option.some.inj hpc'
  exact haway

/-- What setting a status leaves of the objects. -/
theorem getElem?_set_status {work : Nat} {object : Work} {status : WorkStatusType}
    (ho : s.objects[work]? = some object) :
    (s.objects.set work { object with status_ := status })[work]? =
      some { object with status_ := status } :=
  List.getElem?_set_self (lt_length_of_getElem? ho)

/-- The window is about where the worker is, not about the status. -/
theorem window_set_iff {work : Nat} {object : Work} {status : WorkStatusType}
    (ho : s.objects[work]? = some object) :
    Window w { s with objects := s.objects.set work { object with status_ := status } } ↔
      Window w s := by
  by_cases hwork : work = w
  · subst hwork
    constructor
    · rintro (hstart | ⟨hdoing, object', ho', hcb⟩)
      · exact Or.inl hstart
      · obtain rfl := Option.some.inj ((getElem?_set_status ho).symm.trans ho')
        exact Or.inr ⟨hdoing, object, ho, hcb⟩
    · rintro (hstart | ⟨hdoing, object', ho', hcb⟩)
      · exact Or.inl hstart
      · obtain rfl := Option.some.inj (ho.symm.trans ho')
        exact Or.inr ⟨hdoing, _, getElem?_set_status ho, hcb⟩
  · unfold Window
    rw [List.getElem?_set_ne hwork]

/-- The status of a work is set, of `w` to `kInvalid` only. -/
theorem Cancelled.set (h : Cancelled w s) {work : Nat} {object : Work} (status : WorkStatusType)
    (ho : s.objects[work]? = some object) (hst : work = w → status = .kInvalid) :
    Cancelled w { s with objects := s.objects.set work { object with status_ := status } } := by
  refine ⟨h.fresh, ?_, fun hopen => h.closed ((window_set_iff ho).mp hopen)⟩
  by_cases hwork : work = w
  · obtain rfl := hwork
    exact ⟨_, getElem?_set_status ho, hst rfl⟩
  · obtain ⟨object', ho', hinvalid⟩ := h.invalid
    exact ⟨object', (List.getElem?_set_ne hwork).trans ho', hinvalid⟩

/-- The worker comes to the check with `w` and finds it cancelled, so it does not get into the
window. -/
theorem Cancelled.workAt (h : Cancelled w s) {pc : Worker} (hw : s.worker_ = some pc)
    (hs : s.workAt pc = some s') : Cancelled w s' := by
  unfold State.workAt at hs
  cases pc with
  | waiting | exited => cases hs
  | lock | woken _ | sleep | running _ =>
    obtain rfl := (Option.some.inj hs).symm
    exact h.goto ⟨nofun, nofun⟩
  | test | check =>
    obtain rfl := (Option.some.inj hs).symm
    split
    · exact h.goto ⟨nofun, nofun⟩
    · exact h.goto ⟨nofun, nofun⟩
  | pop =>
    dsimp only at hs
    split at hs
    · cases hs
    · next work works_ _ =>
      obtain rfl := (Option.some.inj hs).symm
      have htake : Cancelled w { s with works_ } := h.frame rfl rfl fun _ => Or.inl
      exact htake.goto ⟨nofun, nofun⟩
  | got work =>
    cases work with
    | none =>
      obtain rfl := (Option.some.inj hs).symm
      exact h.goto ⟨nofun, nofun⟩
    | some work =>
      dsimp only at hs
      split at hs
      · next object ho =>
        obtain rfl := (Option.some.inj hs).symm
        split
        · exact h.goto ⟨nofun, nofun⟩
        · next hvalid =>
          -- the status it read is not that of `w`
          refine h.goto ⟨fun hdoing => ?_, nofun⟩
          obtain rfl := Worker.doing.inj hdoing
          obtain ⟨object', ho', hinvalid⟩ := h.invalid
          obtain rfl := Option.some.inj (ho.symm.trans ho')
          exact hvalid hinvalid
      · cases hs
  | doing work =>
    dsimp only at hs
    split at hs
    · next object ho =>
      split at hs
      · next hcb =>
        obtain rfl := (Option.some.inj hs).symm
        have hne : work ≠ w := by
          rintro rfl
          exact h.closed (Or.inr ⟨hw, object, ho, hcb⟩)
        have hset := h.set .kStarting ho fun he => absurd he hne
        exact hset.goto ⟨nofun, fun hstart => hne (Worker.starting.inj hstart)⟩
      · obtain rfl := (Option.some.inj hs).symm
        exact h.goto ⟨nofun, nofun⟩
    · cases hs
  | starting work =>
    obtain rfl := (Option.some.inj hs).symm
    have hfresh : w ∉ s.begun ++ [work] := by
      rw [List.mem_append, List.mem_singleton]
      rintro (hold | rfl)
      · exact h.fresh hold
      · exact h.closed (Or.inl hw)
    refine ⟨hfresh, h.invalid, not_window_of_away fun pc hpc => ?_⟩
    obtain rfl := Option.some.inj hpc
    exact ⟨nofun, nofun⟩
  | finishing work =>
    dsimp only at hs
    split at hs
    · next object ho =>
      obtain rfl := (Option.some.inj hs).symm
      exact (h.set .kInvalid ho fun _ => rfl).goto ⟨nofun, nofun⟩
    · cases hs

/-- Nobody writes the status back, by the assumption; pushes and notifications do not matter to a
cancelled work. -/
theorem Cancelled.step (h : Cancelled w s) {a : Action} (hok : a.asDeleteWork = true)
    (hs : s.step a = some s') : Cancelled w s' := by
  -- it stays invalid, and the worker stays away from it
  cases a with
  | start =>
    obtain ⟨-, rfl⟩ := State.start_cases hs
    exact h.frame rfl rfl fun _ => Or.inl
  | create ok =>
    obtain ⟨-, ⟨-, rfl⟩ | rfl⟩ := State.create_cases hs
    · refine h.frame rfl rfl fun pc hpc => Or.inr ?_
      obtain rfl := Option.some.inj hpc
      exact ⟨nofun, nofun⟩
    · exact h.frame rfl rfl fun _ => Or.inl
  | stop =>
    obtain ⟨-, rfl⟩ := State.stop_cases hs
    exact h.frame rfl rfl fun _ => Or.inl
  | notify =>
    obtain ⟨-, rfl⟩ := State.notify_cases hs
    refine h.frame rfl rfl fun pc hpc => ?_
    obtain ⟨pc₀, hpc₀, rfl⟩ := Option.map_eq_some_iff.mp hpc
    -- a worker that is woken has nothing in its hand
    rcases Worker.notify_cases pc₀ with ⟨-, hwoken⟩ | ⟨-, hsame⟩
    · rw [hwoken]
      exact Or.inr ⟨nofun, nofun⟩
    · rw [hsame]
      exact Or.inl hpc₀
  | join =>
    obtain ⟨-, -, rfl⟩ := State.join_cases hs
    exact h.frame rfl rfl fun _ => nofun
  | newWork cb_func_ =>
    obtain rfl := (Option.some.inj hs).symm
    obtain ⟨object, ho, -⟩ := h.invalid
    refine h.frame rfl ?_ fun _ => Or.inl
    exact List.getElem?_append_left (lt_length_of_getElem? ho)
  | setWorkStatus work status =>
    obtain ⟨object, ho, rfl⟩ := State.setWorkStatus_cases hs
    -- who sets a status here cancels
    exact h.set status ho fun _ => of_decide_eq_true hok
  | callPush ptr =>
    obtain rfl := (Option.some.inj hs).symm
    exact h.frame rfl rfl fun _ => Or.inl
  | testStoped i =>
    obtain ⟨ptr, -, rfl⟩ := State.testStoped_cases hs
    exact h.frame rfl rfl fun _ => Or.inl
  | push i =>
    obtain ⟨ptr, -, -, rfl⟩ := State.push_cases hs
    exact h.frame rfl rfl fun _ => Or.inl
  | work =>
    obtain ⟨pc, hw, hs⟩ := State.work_cases hs
    exact h.workAt hw hs
  | wake =>
    obtain ⟨-, rfl⟩ := State.wake_cases hs
    exact h.goto ⟨nofun, nofun⟩

/-- The cancellation outside the window. -/
theorem cancelled_of_setWorkStatus (hfresh : w ∉ s.begun) (hclosed : ¬ Window w s)
    (hs : s.setWorkStatus w .kInvalid = some s') : Cancelled w s' := by
  obtain ⟨object, ho, rfl⟩ := State.setWorkStatus_cases hs
  exact ⟨hfresh, ⟨_, getElem?_set_status ho, rfl⟩,
    fun hopen => hclosed ((window_set_iff ho).mp hopen)⟩

/-! ## In the window

The worker has looked at the status and goes on to the callback, whatever is written by then. One or
two of its own steps get it there. -/

/-- From the window, the steps of the worker alone begin the callback. -/
theorem Window.begins (stoped_ : Bool) (h : Window w s) :
    ∃ as t, (∀ a ∈ as, a.asDeleteWork = true) ∧ (workThread stoped_).runFrom s as = some t ∧
      w ∈ t.begun := by
  -- the last step is the same for both places of the window
  have hbegin : ∀ {s : State}, s.worker_ = some (.starting w) →
      ∃ t, (workThread stoped_).step s .work = some t ∧ w ∈ t.begun := by
    intro s hw
    refine ⟨{ s with begun := s.begun ++ [w], worker_ := some (.running w) }, ?_, ?_⟩
    · show s.work = _
      rw [State.work, hw]
      rfl
    · exact List.mem_append_right _ (List.mem_singleton_self w)
  -- it is about to begin, or has looked at the status and not yet written its own
  rcases h with hstart | ⟨hdoing, object, ho, hcb⟩
  · obtain ⟨t, ht, hmem⟩ := hbegin hstart
    exact ⟨[.work], t, by decide, Option.bind_eq_some_iff.mpr ⟨t, ht, rfl⟩, hmem⟩
  · obtain ⟨s', hs', hw'⟩ : ∃ s', (workThread stoped_).step s .work = some s' ∧
        s'.worker_ = some (.starting w) := by
      refine ⟨{ s with objects := s.objects.set w { object with status_ := .kStarting },
                       worker_ := some (.starting w) }, ?_, rfl⟩
      show s.work = _
      rw [State.work, hdoing]
      show s.workAt (.doing w) = _
      simp only [State.workAt, ho, hcb, if_true]
      rfl
    obtain ⟨t, ht, hmem⟩ := hbegin hw'
    refine ⟨[.work, .work], t, by decide, ?_, hmem⟩
    exact Option.bind_eq_some_iff.mpr ⟨s', hs', Option.bind_eq_some_iff.mpr ⟨t, ht, rfl⟩⟩

/-- The cancellation does not close the window. -/
theorem Window.setWorkStatus (h : Window w s) {status : WorkStatusType}
    (hs : s.setWorkStatus w status = some s') : Window w s' := by
  obtain ⟨object, ho, rfl⟩ := State.setWorkStatus_cases hs
  exact (window_set_iff ho).mpr h

/-! ## Both together

So it is exactly the window that decides. -/

/-- **A cancelled work does not run, unless the worker has already read its status.** Cancel a
work whose callback has not begun, at any point of any run: however the run goes on, the callback
does not begin, if and only if the worker was not between the check of the status and the
callback of that work. -/
theorem cancelled_never_begins_iff (stoped_ : Bool) (pre : List Action) (s : State) (w : Nat)
    (hrun : (workThread stoped_).run pre = some s) (hw : w < s.objects.length)
    (hfresh : w ∉ s.begun) :
    (∀ post t, (∀ a ∈ post, a.asDeleteWork = true) →
      (workThread stoped_).run (pre ++ .setWorkStatus w .kInvalid :: post) = some t →
      w ∉ t.begun) ↔ ¬ Window w s := by
  obtain ⟨s', hs'⟩ : ∃ s', s.setWorkStatus w .kInvalid = some s' := by
    rw [State.setWorkStatus, List.getElem?_eq_getElem hw]
    exact ⟨_, rfl⟩
  constructor
  · intro h hopen
    obtain ⟨post, t, hok, ht, hmem⟩ := (hopen.setWorkStatus hs').begins stoped_
    refine h post t hok ?_ hmem
    exact Machine.run_append.mpr ⟨s, hrun, Option.bind_eq_some_iff.mpr ⟨s', hs', ht⟩⟩
  · intro hclosed post t hok ht
    obtain ⟨s₁, hs₁, hrest⟩ := Machine.run_append.mp ht
    obtain rfl := Option.some.inj (hrun.symm.trans hs₁)
    obtain ⟨s₂, hs₂, hpost⟩ := Option.bind_eq_some_iff.mp hrest
    have hc : Cancelled w s₂ := cancelled_of_setWorkStatus hfresh hclosed hs₂
    have hend : Cancelled w t := by
      refine Machine.runFrom_inv_of (I := Cancelled w) ?_ hok hc hpost
      exact fun h ha hs => h.step ha hs
    exact hend.fresh

/-- The work is in the queue, and the worker at the lock. -/
def queued : List Action :=
  [.start, .create true, .newWork true, .callPush (some 0), .testStoped 0, .push 0]

theorem cancelled_never_begins_queued :
    ∃ s, (workThread true).run queued = some s ∧
      ∀ post t, (∀ a ∈ post, a.asDeleteWork = true) →
        (workThread true).run (queued ++ .setWorkStatus 0 .kInvalid :: post) = some t →
        0 ∉ t.begun := by
  obtain ⟨s, hs⟩ := Option.isSome_iff_exists.mp
    (show ((workThread true).run queued).isSome = true by decide)
  have hend : ((workThread true).run queued).map
      (fun s => (s.worker_, s.objects.length, s.begun)) = some (some .lock, 1, []) := by decide
  rw [hs, Option.map_some, Option.some.injEq, Prod.mk.injEq, Prod.mk.injEq] at hend
  obtain ⟨hw, hlen, hb⟩ := hend
  refine ⟨s, hs, (cancelled_never_begins_iff true queued s 0 hs ?_ ?_).mpr ?_⟩
  · rw [hlen]
    exact Nat.zero_lt_one
  · rw [hb]
    exact List.not_mem_nil
  · refine not_window_of_away fun pc hpc => ?_
    rw [hw] at hpc
    obtain rfl := Option.some.inj hpc
    exact ⟨nofun, nofun⟩

/-- **The cancellation is lost**: the worker has read the status when it is set. -/
theorem cancelled_begins :
    ∃ s t, (workThread true).run (queued ++ [.work, .work, .work, .work, .work]) = some s ∧
      0 ∉ s.begun ∧
      (workThread true).run (queued ++ [.work, .work, .work, .work, .work] ++
        [.setWorkStatus 0 .kInvalid, .work, .work]) = some t ∧
      0 ∈ t.begun := by
  obtain ⟨s, hs⟩ := Option.isSome_iff_exists.mp
    (show ((workThread true).run (queued ++ [.work, .work, .work, .work, .work])).isSome = true by
      decide)
  obtain ⟨t, ht⟩ := Option.isSome_iff_exists.mp
    (show ((workThread true).run (queued ++ [.work, .work, .work, .work, .work] ++
      [.setWorkStatus 0 .kInvalid, .work, .work])).isSome = true by decide)
  have hbefore : ((workThread true).run (queued ++ [.work, .work, .work, .work, .work])).map
      State.begun = some [] := by decide
  have hafter : ((workThread true).run (queued ++ [.work, .work, .work, .work, .work] ++
      [.setWorkStatus 0 .kInvalid, .work, .work])).map State.begun = some [0] := by decide
  rw [hs, Option.map_some, Option.some.injEq] at hbefore
  rw [ht, Option.map_some, Option.some.injEq] at hafter
  refine ⟨s, t, hs, ?_, ht, ?_⟩
  · rw [hbefore]
    exact List.not_mem_nil
  · rw [hafter]
    exact List.mem_singleton_self 0

end CppDone.WorkThread
