import CppDone.Lib.Log
import CppDone.WorkThread.Cancel

/-!
# What becomes of a pushed work

`works_` is the queue between the calls of `PushWork` and the worker, and the worker is the only one
that takes from it. A call answers once: it has pushed its pointer, or it found the thread stopped.
What was pushed has met its fate in the worker, or is in the worker's hand, or waits in the queue,
and this in the order in which it was pushed; also across `StopWork`, which leaves the queue as it
is, and a `StartWork` that takes it up again.

A work may be pushed twice, and is run once all the same: the worker marks it `kInvalid` when its
callback has returned, and drops what it finds marked.

What the worker has popped and not decided on is its hand. So the fates, the hand and the queue
together are what was pushed, and a step can only move a work from one of them to the next: this is
what `Passes` says, and all there is to prove about a step.

That a work begins once is an invariant of its own (`Spent`). The mark is set when the callback has
returned, so until then the worker itself must be known to be on its way to it.
-/

set_option autoImplicit false

namespace CppDone.WorkThread

variable {s s' : State} {stoped_ : Bool} {as : List Action}

/-- How the worker comes to be through with what it popped, as far as the callback's beginning. A
work that has begun may still be running. -/
inductive Fate where
  | null
  | invalid (work : Nat)
  | empty (work : Nat)  -- without a callback
  | begun (work : Nat)
deriving DecidableEq, Repr

def Fate.work : Fate → Option Nat
  | .null => none
  | .invalid work | .empty work | .begun work => some work

def Fate.begins : Fate → Option Nat
  | .begun work => some work
  | _ => none

/-- What the next step of the worker decides, which is at `pc`. -/
def State.decides (s : State) : Worker → Option Fate
  | .got none => some .null
  | .got (some work) =>
    if s.objects[work]?.any fun object => object.status_ = .kInvalid then some (.invalid work)
    else none
  | .doing work =>
    if s.objects[work]?.any fun object => object.cb_func_ then none else some (.empty work)
  | .starting work => some (.begun work)
  | _ => none

def State.fate (s : State) : Action → Option Fate
  | .work => s.worker_.bind s.decides
  | _ => none

/-- The end of a call of `PushWork`. -/
structure Answer where
  call : Nat
  ptr : Option Nat
  pushed : Bool
deriving DecidableEq, Repr

/-- The pointer, if it was pushed. -/
def Answer.entry (answer : Answer) : Option (Option Nat) :=
  if answer.pushed then some answer.ptr else none

def State.answer (s : State) : Action → Option Answer
  | .testStoped i =>
    if s.stoped_ then s.pushes[i]?.map fun push => { call := i, ptr := push.ptr, pushed := false }
    else none
  | .push i => s.pushes[i]?.map fun push => { call := i, ptr := push.ptr, pushed := true }
  | _ => none

/-- The fates of a schedule, in their order. -/
def fates (stoped_ : Bool) (as : List Action) : List Fate :=
  (workThread stoped_).emitted State.fate (workThread stoped_).init as

def answers (stoped_ : Bool) (as : List Action) : List Answer :=
  (workThread stoped_).emitted State.answer (workThread stoped_).init as

/-- Popped, and without a fate as yet. -/
def Worker.hand : Worker → List (Option Nat)
  | .got work => [work]
  | .doing work | .starting work => [some work]
  | _ => []

def State.hand (s : State) : List (Option Nat) :=
  match s.worker_ with
  | some pc => pc.hand
  | none => []

/-! ## The order

What is pushed comes in at the back and what has met its fate is gone at the front. In between, each
step leaves the line as it is. -/

/-- What a step does to the works under way: one comes in behind, or one is through in front. At
most one of the two, so the line of works moves by one. -/
structure Passes (s : State) (fate : Option Fate) (entry : Option (Option Nat)) (s' : State) :
    Prop where
  order : fate.toList.map Fate.work ++ (s'.hand ++ s'.works_) =
    s.hand ++ s.works_ ++ entry.toList
  begun : s'.begun = s.begun ++ (fate.bind Fate.begins).toList

/-- Nothing moves. -/
theorem Passes.frame (hhand : s'.hand = s.hand) (hworks : s'.works_ = s.works_)
    (hbegun : s'.begun = s.begun) : Passes s none none s' where
  order := by simp [hhand, hworks]
  begun := by simp [hbegun]

/-- What the worker had in its hand has met its fate. -/
theorem Passes.settle {fate : Fate} (hhand : s.hand = [fate.work]) (hempty : s'.hand = [])
    (hworks : s'.works_ = s.works_) (hbegun : s'.begun = s.begun ++ fate.begins.toList) :
    Passes s (some fate) none s' where
  order := by simp [hhand, hempty, hworks]
  begun := hbegun

theorem hand_goto (pc : Worker) : (s.goto pc).hand = pc.hand := rfl

theorem State.hand_eq {pc : Worker} (h : s.worker_ = some pc) : s.hand = pc.hand := by
  rw [State.hand, h]

theorem State.workAt_passes {pc : Worker} (hw : s.worker_ = some pc)
    (h : s.workAt pc = some s') : Passes s (s.decides pc) none s' := by
  have hhand := State.hand_eq hw
  unfold State.workAt at h
  -- the hand is empty up to the pop and behind the callback
  cases pc with
  | waiting | exited => cases h
  | lock | woken notified | sleep | running work =>
    obtain rfl := (Option.some.inj h).symm
    exact Passes.frame hhand.symm rfl rfl
  | test | check =>
    obtain rfl := (Option.some.inj h).symm
    refine Passes.frame (Eq.trans ?_ hhand.symm) rfl rfl
    rw [hand_goto]
    split
    · rfl
    · rfl
  | pop =>
    dsimp only at h
    split at h
    · cases h
    · next work works_ hworks =>
      obtain rfl := (Option.some.inj h).symm
      -- from the head of the queue into the hand
      refine ⟨?_, (List.append_nil _).symm⟩
      rw [show s.hand = [] from hhand, hworks]
      exact (List.append_nil (work :: works_)).symm
  | got work =>
    cases work with
    | none =>
      obtain rfl := (Option.some.inj h).symm
      -- a null pointer is dropped
      exact Passes.settle hhand rfl rfl (List.append_nil _).symm
    | some work =>
      dsimp only at h
      split at h
      · next object ho =>
        obtain rfl := (Option.some.inj h).symm
        split
        · next hinvalid =>
          have hdecides : s.decides (.got (some work)) = some (.invalid work) := by
            simp [State.decides, ho, hinvalid]
          rw [hdecides]
          exact Passes.settle hhand rfl rfl (List.append_nil _).symm
        · next hvalid =>
          -- looked at, and kept in the hand
          have hdecides : s.decides (.got (some work)) = none := by
            simp [State.decides, ho, hvalid]
          rw [hdecides]
          exact Passes.frame hhand.symm rfl rfl
      · cases h
  -- here the work is dropped only if it has no callback
  | doing work =>
    dsimp only at h
    split at h
    · next object ho =>
      split at h
      · next hcb =>
        obtain rfl := (Option.some.inj h).symm
        have hdecides : s.decides (.doing work) = none := by simp [State.decides, ho, hcb]
        rw [hdecides]
        exact Passes.frame hhand.symm rfl rfl
      · next hcb =>
        obtain rfl := (Option.some.inj h).symm
        have hdecides : s.decides (.doing work) = some (.empty work) := by
          simp [State.decides, ho, hcb]
        rw [hdecides]
        exact Passes.settle hhand rfl rfl (List.append_nil _).symm
    · cases h
  -- the callback begins, which is the fate of the work
  | starting work =>
    obtain rfl := (Option.some.inj h).symm
    exact Passes.settle hhand rfl rfl rfl
  | finishing work =>
    dsimp only at h
    split at h
    · obtain rfl := (Option.some.inj h).symm
      exact Passes.frame hhand.symm rfl rfl
    · cases h

theorem State.step_passes {a : Action} (h : s.step a = some s') :
    Passes s (s.fate a) ((s.answer a).bind Answer.entry) s' := by
  -- only a push brings something, and only the worker decides on it
  cases a with
  | start =>
    obtain ⟨-, rfl⟩ := State.start_cases h
    exact Passes.frame rfl rfl rfl
  | create ok =>
    obtain ⟨-, ⟨hnone, rfl⟩ | rfl⟩ := State.create_cases h
    · exact Passes.frame (by rw [State.hand, State.hand, hnone]; rfl) rfl rfl
    · exact Passes.frame rfl rfl rfl
  | stop =>
    obtain ⟨-, rfl⟩ := State.stop_cases h
    exact Passes.frame rfl rfl rfl
  | notify =>
    obtain ⟨-, rfl⟩ := State.notify_cases h
    -- a worker that can be notified sleeps, with nothing in its hand
    refine Passes.frame ?_ rfl rfl
    rw [State.hand, State.hand]
    cases s.worker_ with
    | none => rfl
    | some pc =>
      rcases Worker.notify_cases pc with ⟨rfl, hpc⟩ | ⟨-, hpc⟩
      · rfl
      · simp [hpc]
  | join =>
    obtain ⟨-, hw, rfl⟩ := State.join_cases h
    -- a worker that can be joined has left its loop
    refine Passes.frame ?_ rfl rfl
    rcases hw with hw | hw
    · rw [State.hand, State.hand, hw]
    · rw [State.hand, State.hand, hw]
      rfl
  | newWork cb_func_ =>
    obtain rfl := (Option.some.inj h).symm
    exact Passes.frame rfl rfl rfl
  | setWorkStatus work status =>
    obtain ⟨object, -, rfl⟩ := State.setWorkStatus_cases h
    exact Passes.frame rfl rfl rfl
  | callPush ptr =>
    obtain rfl := (Option.some.inj h).symm
    exact Passes.frame rfl rfl rfl
  | testStoped i =>
    obtain ⟨ptr, hptr, rfl⟩ := State.testStoped_cases h
    -- stopped or not, nothing is pushed yet
    have hentry : (s.answer (.testStoped i)).bind Answer.entry = none := by
      cases hst : s.stoped_ with
      | true => simp [State.answer, hst, hptr, Answer.entry]
      | false => simp [State.answer, hst]
    rw [hentry]
    exact Passes.frame rfl rfl rfl
  | push i =>
    obtain ⟨ptr, hptr, -, rfl⟩ := State.push_cases h
    have hentry : (s.answer (.push i)).bind Answer.entry = some ptr := by
      simp [State.answer, hptr, Answer.entry]
    rw [hentry]
    -- behind all that is there
    exact ⟨(List.append_assoc s.hand s.works_ [ptr]).symm, (List.append_nil _).symm⟩
  | work =>
    obtain ⟨pc, hw, hs⟩ := State.work_cases h
    have hfate : s.fate .work = s.decides pc := by simp [State.fate, hw]
    rw [hfate]
    exact State.workAt_passes hw hs
  | wake =>
    obtain ⟨hw, rfl⟩ := State.wake_cases h
    exact Passes.frame (State.hand_eq hw).symm rfl rfl

/-! ## The answers

A call has one answer, given when it returns. It says whether the pointer was pushed, and the pushed
ones are the entries of the line. -/

theorem State.workAt_pushes {pc : Worker} (h : s.workAt pc = some s') : s'.pushes = s.pushes := by
  -- the worker does not know who has pushed
  unfold State.workAt at h
  cases pc with
  | waiting | exited => cases h
  | lock | woken _ | test | sleep | check | starting _ | running _ =>
    obtain rfl := (Option.some.inj h).symm
    rfl
  | pop =>
    dsimp only at h
    split at h
    · cases h
    · obtain rfl := (Option.some.inj h).symm
      rfl
  | got work =>
    cases work with
    | none =>
      obtain rfl := (Option.some.inj h).symm
      rfl
    | some work =>
      dsimp only at h
      split at h
      · obtain rfl := (Option.some.inj h).symm
        rfl
      · cases h
  | doing work =>
    dsimp only at h
    split at h
    · split at h
      · obtain rfl := (Option.some.inj h).symm
        rfl
      · obtain rfl := (Option.some.inj h).symm
        rfl
    · cases h
  | finishing work =>
    dsimp only at h
    split at h
    · obtain rfl := (Option.some.inj h).symm
      rfl
    · cases h

/-- What a step does to the calls: nothing, one begins or goes on, or one answers. -/
theorem State.pushes_cases {a : Action} (h : s.step a = some s') :
    (s.answer a = none ∧ s'.pushes = s.pushes) ∨
    (s.answer a = none ∧ ∃ ptr, s'.pushes = s.pushes ++ [{ ptr, pc := .test }]) ∨
    (s.answer a = none ∧ ∃ i ptr, s.pushes[i]? = some { ptr, pc := .test } ∧
      s'.pushes = s.pushes.set i { ptr, pc := .lock }) ∨
    (∃ answer push, s.answer a = some answer ∧ s.pushes[answer.call]? = some push ∧
      push.pc ≠ .returned ∧
      s'.pushes = s.pushes.set answer.call { ptr := answer.ptr, pc := .returned }) := by
  -- a call begins, finds the thread running or stopped, and pushes
  cases a with
  | start =>
    obtain ⟨-, rfl⟩ := State.start_cases h
    exact .inl ⟨rfl, rfl⟩
  | create ok =>
    obtain ⟨-, ⟨-, rfl⟩ | rfl⟩ := State.create_cases h
    · exact .inl ⟨rfl, rfl⟩
    · exact .inl ⟨rfl, rfl⟩
  | stop =>
    obtain ⟨-, rfl⟩ := State.stop_cases h
    exact .inl ⟨rfl, rfl⟩
  | notify =>
    obtain ⟨-, rfl⟩ := State.notify_cases h
    exact .inl ⟨rfl, rfl⟩
  | join =>
    obtain ⟨-, -, rfl⟩ := State.join_cases h
    exact .inl ⟨rfl, rfl⟩
  | newWork cb_func_ =>
    obtain rfl := (Option.some.inj h).symm
    exact .inl ⟨rfl, rfl⟩
  | setWorkStatus work status =>
    obtain ⟨object, -, rfl⟩ := State.setWorkStatus_cases h
    exact .inl ⟨rfl, rfl⟩
  | callPush ptr =>
    obtain rfl := (Option.some.inj h).symm
    exact .inr (.inl ⟨rfl, ptr, rfl⟩)
  | testStoped i =>
    obtain ⟨ptr, hptr, rfl⟩ := State.testStoped_cases h
    cases hst : s.stoped_ with
    -- stopped: this is its answer
    | true =>
      refine .inr (.inr (.inr ⟨{ call := i, ptr, pushed := false }, _, ?_, hptr, nofun, rfl⟩))
      simp [State.answer, hst, hptr]
    | false => exact .inr (.inr (.inl ⟨by simp [State.answer, hst], i, ptr, hptr, rfl⟩))
  | push i =>
    obtain ⟨ptr, hptr, -, rfl⟩ := State.push_cases h
    refine .inr (.inr (.inr ⟨{ call := i, ptr, pushed := true }, _, ?_, hptr, nofun, rfl⟩))
    simp [State.answer, hptr]
  | work =>
    obtain ⟨pc, -, hs⟩ := State.work_cases h
    exact .inl ⟨rfl, State.workAt_pushes hs⟩
  | wake =>
    obtain ⟨-, rfl⟩ := State.wake_cases h
    exact .inl ⟨rfl, rfl⟩

/-! ### What a call has got

Each call gets one answer, at its end. The log has the answers in the order in which the calls came
to their ends, and an answer says which call it belongs to. -/

/-- Every call that has returned has answered once, and no other one has. A call that has not
returned has no answer in the log. -/
structure Answered (log : List Answer) (s : State) : Prop where
  once : (log.map Answer.call).Nodup
  returned : ∀ i ptr, s.pushes[i]? = some { ptr, pc := .returned } ↔
    ∃ pushed, ({ call := i, ptr, pushed } : Answer) ∈ log

/-- A call that is not through stays so. -/
theorem Answered.frame {log : List Answer} (h : Answered log s)
    (hpushes : ∀ (i : Nat) (ptr : Option Nat),
      s'.pushes[i]? = some { ptr, pc := .returned } ↔
        s.pushes[i]? = some { ptr, pc := .returned }) : Answered log s' where
  once := h.once
  returned i ptr := (hpushes i ptr).trans (h.returned i ptr)

theorem Answered.answer {log : List Answer} (h : Answered log s) {answer : Answer} {push : Push}
    (hcall : s.pushes[answer.call]? = some push) (hpc : push.pc ≠ .returned)
    (hpushes : s'.pushes = s.pushes.set answer.call { ptr := answer.ptr, pc := .returned }) :
    Answered (log ++ [answer]) s' := by
  have hlt := lt_length_of_getElem? hcall
  -- the call has not answered before, since it is still under way
  have hnew : ∀ ptr pushed, ({ call := answer.call, ptr, pushed } : Answer) ∉ log := by
    intro ptr pushed hmem
    have hreturned := (h.returned answer.call ptr).mpr ⟨pushed, hmem⟩
    obtain rfl := Option.some.inj (hcall.symm.trans hreturned)
    exact hpc rfl
  constructor
  · rw [List.map_append, List.nodup_append]
    refine ⟨h.once, List.nodup_singleton _, fun i hi j hj => ?_⟩
    obtain ⟨other, hmem, rfl⟩ := List.mem_map.mp hi
    rw [List.mem_singleton.mp hj]
    rintro heq
    exact hnew other.ptr other.pushed (by simpa [← heq] using hmem)
  · intro i ptr
    rw [hpushes]
    -- the call that answers, or another one
    by_cases hi : answer.call = i
    · subst hi
      rw [List.getElem?_set_self hlt]
      constructor
      · intro heq
        obtain rfl := (Push.mk.inj (Option.some.inj heq)).1
        exact ⟨answer.pushed, List.mem_append_right _ (List.mem_singleton.mpr rfl)⟩
      · rintro ⟨pushed, hmem⟩
        rcases List.mem_append.mp hmem with hmem | hmem
        · exact absurd hmem (hnew ptr pushed)
        · rw [← List.mem_singleton.mp hmem]
    · rw [List.getElem?_set_ne hi, h.returned]
      refine exists_congr fun pushed => ?_
      rw [List.mem_append, List.mem_singleton, or_iff_left]
      rintro rfl
      exact hi rfl

theorem Answered.step {log : List Answer} (h : Answered log s) {a : Action}
    (hs : s.step a = some s') : Answered (log ++ (s.answer a).toList) s' := by
  rcases State.pushes_cases hs with ⟨hanswer, hpushes⟩ | ⟨hanswer, ptr', hpushes⟩ |
    ⟨hanswer, j, ptr', hj, hpushes⟩ | ⟨answer, push, hanswer, hcall, hpc, hpushes⟩
  · rw [hanswer, Option.toList_none, List.append_nil]
    exact h.frame fun i ptr => by rw [hpushes]
  -- a call begins behind the others, with its answer still to come
  · rw [hanswer, Option.toList_none, List.append_nil]
    refine h.frame fun i ptr => ?_
    rw [hpushes, List.getElem?_append]
    split
    · rfl
    · next hlt =>
      have hnone : s.pushes[i]? = none := List.getElem?_eq_none_iff.mpr (Nat.le_of_not_lt hlt)
      rw [hnone]
      constructor
      · intro hi
        cases List.mem_singleton.mp (List.mem_of_getElem? hi)
      · exact nofun
  -- it goes on to the mutex, without an answer
  · rw [hanswer, Option.toList_none, List.append_nil]
    refine h.frame fun i ptr => ?_
    rw [hpushes]
    by_cases hi : j = i
    · subst hi
      rw [List.getElem?_set_self (lt_length_of_getElem? hj), hj]
      simp
    · rw [List.getElem?_set_ne hi]
  · rw [hanswer]
    exact h.answer hcall hpc hpushes

/-- Along any part of a run, what was under way and what comes in is what has met its fate, in this
order, and what is still under way. -/
theorem passes_run {t : State} {bs : List Action}
    (h : (workThread stoped_).runFrom s bs = some t) :
    ((workThread stoped_).emitted State.fate s bs).map Fate.work ++ (t.hand ++ t.works_) =
      s.hand ++ s.works_ ++
        ((workThread stoped_).emitted State.answer s bs).filterMap Answer.entry ∧
    t.begun = s.begun ++ ((workThread stoped_).emitted State.fate s bs).filterMap Fate.begins := by
  refine Machine.runFrom_induction (P := fun bs t =>
    ((workThread stoped_).emitted State.fate s bs).map Fate.work ++ (t.hand ++ t.works_) =
      s.hand ++ s.works_ ++
        ((workThread stoped_).emitted State.answer s bs).filterMap Answer.entry ∧
    t.begun = s.begun ++ ((workThread stoped_).emitted State.fate s bs).filterMap Fate.begins)
    (by simp [Machine.emitted]) (fun bs t a t' hrun ih hs => ?_) h
  obtain ⟨horder, hbegun⟩ := ih
  have hpasses := State.step_passes hs
  rw [Machine.emitted_snoc hrun, Machine.emitted_snoc hrun]
  constructor
  · rw [List.map_append, List.append_assoc, hpasses.order, List.filterMap_append,
      Machine.filterMap_toList, ← List.append_assoc, ← List.append_assoc, ← List.append_assoc]
    congr 1
    rw [List.append_assoc, horder]
  · rw [hpasses.begun, hbegun, List.filterMap_append, Machine.filterMap_toList, List.append_assoc]

/-- **First come, first served, and nobody is lost or served twice.** The pointers of the calls
that pushed, in the order of the pushes, are those that have met their fate, in this order, then
what is in the worker's hand and then the queue. What has begun are those whose fate was to begin;
and a call has answered once if it has returned, and not otherwise. -/
theorem works_in_order (stoped_ : Bool) (as : List Action) (s : State)
    (hrun : (workThread stoped_).run as = some s) :
    (answers stoped_ as).filterMap Answer.entry =
      (fates stoped_ as).map Fate.work ++ (s.hand ++ s.works_) ∧
    s.begun = (fates stoped_ as).filterMap Fate.begins ∧
    Answered (answers stoped_ as) s := by
  obtain ⟨horder, hbegun⟩ := passes_run hrun
  refine ⟨horder.symm, hbegun, ?_⟩
  refine Machine.run_induction (P := fun as s => Answered (answers stoped_ as) s)
    ⟨List.nodup_nil, by simp [workThread, answers, Machine.emitted]⟩ ?_ hrun
  intro as s a s' hrun hanswered hs
  have hanswers : answers stoped_ (as ++ [a]) = answers stoped_ as ++ (s.answer a).toList :=
    Machine.emitted_snoc hrun
  rw [hanswers]
  exact hanswered.step hs

/-- One work, pushed twice. The worker has run it, and come upon it again. -/
def pushedTwice : List Action :=
  [.start, .create true, .newWork true, .callPush (some 0), .testStoped 0, .push 0,
    .callPush (some 0), .testStoped 1, .push 1, .work, .work, .work, .work, .work, .work, .work,
    .work, .work, .work, .work, .work, .work, .work]

theorem works_in_order_pushedTwice :
    ∃ s, (workThread true).run pushedTwice = some s ∧ s.begun = [0] ∧ s.hand ++ s.works_ = [] ∧
      Answered (answers true pushedTwice) s := by
  obtain ⟨s, hs⟩ := Option.isSome_iff_exists.mp
    (show ((workThread true).run pushedTwice).isSome = true by decide)
  obtain ⟨horder, hbegun, hanswered⟩ := works_in_order true pushedTwice s hs
  have hfates : fates true pushedTwice = [.begun 0, .invalid 0] := by decide
  have hanswers : (answers true pushedTwice).filterMap Answer.entry = [some 0, some 0] := by decide
  rw [hfates] at hbegun
  rw [hfates, hanswers] at horder
  exact ⟨s, hs, hbegun, by simpa [Fate.work] using horder.symm, hanswered⟩

/-! ## How often a work is run

The mark is what keeps a work from being run again. It comes behind the callback, so between the
worker's look at the status and the mark the worker has to be watched itself. -/

def Invalid (w : Nat) (s : State) : Prop :=
  ∃ object, s.objects[w]? = some object ∧ object.status_ = .kInvalid

/-- With `w`, which was not found invalid, and before its callback begins. -/
def Worker.before : Worker → Option Nat
  | .doing work | .starting work => some work
  | _ => none

/-- With `w`, whose callback has begun. -/
def Worker.after : Worker → Option Nat
  | .running work | .finishing work => some work
  | _ => none

/-- `w` may have begun `k` times for other reasons. If it has begun once more, it is marked, or is
going to be. The last field is for the time between the worker's look at the status and the
callback: it goes on with a work that has not begun too often. -/
structure Spent (w k : Nat) (s : State) : Prop where
  most : s.begun.count w ≤ k + 1
  marked : k < s.begun.count w → Invalid w s ∨ ∃ pc, s.worker_ = some pc ∧ pc.after = some w
  fresh : ∀ pc, s.worker_ = some pc → pc.before = some w → s.begun.count w ≤ k

/-! ### Steps

A work may begin once more for each time its status was written back. The worker adds one to the
left side when it begins it, and has seen a status that was not invalid. -/

theorem Spent.succ {w k : Nat} (h : Spent w k s) : Spent w (k + 1) s where
  most := Nat.le_succ_of_le h.most
  marked hlt := absurd h.most (Nat.not_le_of_lt hlt)
  fresh _ _ _ := h.most

/-- Nothing begins. -/
theorem Spent.frame {w k : Nat} (h : Spent w k s) (hbegun : s'.begun = s.begun)
    (hmarked : Invalid w s → k < s.begun.count w → Invalid w s')
    (hafter : ∀ pc, s.worker_ = some pc → pc.after = some w →
      Invalid w s' ∨ ∃ pc, s'.worker_ = some pc ∧ pc.after = some w)
    (hbefore : ∀ pc, s'.worker_ = some pc → pc.before = some w → s.begun.count w ≤ k) :
    Spent w k s' where
  most := by
    rw [hbegun]
    exact h.most
  marked hlt := by
    rw [hbegun] at hlt
    rcases h.marked hlt with hinvalid | ⟨pc, hpc, hw⟩
    · exact .inl (hmarked hinvalid hlt)
    · exact hafter pc hpc hw
  fresh := by
    rw [hbegun]
    exact hbefore

theorem Invalid.set {w work : Nat} {object : Work} (h : Invalid w s) {status : WorkStatusType}
    (ho : s.objects[work]? = some object) (hst : work = w → status = .kInvalid) :
    Invalid w { s with objects := s.objects.set work { object with status_ := status } } := by
  by_cases hwork : work = w
  · obtain rfl := hwork
    exact ⟨_, getElem?_set_status ho, hst rfl⟩
  · obtain ⟨object', ho', hinvalid⟩ := h
    exact ⟨object', (List.getElem?_set_ne hwork).trans ho', hinvalid⟩

/-- The worker goes from a place without `w` to another one. -/
theorem Spent.goto {w k : Nat} (h : Spent w k s) {pc pc' : Worker} (hw : s.worker_ = some pc)
    (hafter : pc.after ≠ some w) (hbefore : pc'.before = none) : Spent w k (s.goto pc') := by
  refine h.frame rfl (fun hinvalid _ => hinvalid) (fun p hp hpw => ?_) (fun p hp hpw => ?_)
  · obtain rfl := Option.some.inj (hw.symm.trans hp)
    exact absurd hpw hafter
  · obtain rfl := Option.some.inj hp
    rw [hbefore] at hpw
    cases hpw

theorem Spent.workAt {w k : Nat} (h : Spent w k s) {pc : Worker} (hw : s.worker_ = some pc)
    (hs : s.workAt pc = some s') : Spent w k s' := by
  -- what is marked stays so, except in `Doing`; what is not is watched from the look at its status
  -- on
  unfold State.workAt at hs
  cases pc with
  | waiting | exited => cases hs
  | lock | woken _ | sleep =>
    obtain rfl := (Option.some.inj hs).symm
    exact h.goto hw nofun rfl
  | test | check =>
    obtain rfl := (Option.some.inj hs).symm
    split
    · exact h.goto hw nofun rfl
    · exact h.goto hw nofun rfl
  | pop =>
    dsimp only at hs
    split at hs
    · cases hs
    · next work works_ _ =>
      obtain rfl := (Option.some.inj hs).symm
      -- a pop looks at nothing: the work may be any
      have htake : Spent w k { s with works_ } :=
        h.frame rfl (fun hinvalid _ => hinvalid) (fun pc hpc hpw => .inr ⟨pc, hpc, hpw⟩) h.fresh
      exact htake.goto hw nofun rfl
  | got work =>
    cases work with
    | none =>
      obtain rfl := (Option.some.inj hs).symm
      exact h.goto hw nofun rfl
    | some work =>
      dsimp only at hs
      split at hs
      · next object ho =>
        obtain rfl := (Option.some.inj hs).symm
        split
        · exact h.goto hw nofun rfl
        · next hvalid =>
          refine h.frame rfl (fun hinvalid _ => hinvalid) (fun pc hpc hpw => ?_)
            (fun pc hpc hpw => ?_)
          · obtain rfl := Option.some.inj (hw.symm.trans hpc)
            cases hpw
          · -- had it begun once too often, it would have been found invalid
            obtain rfl := Option.some.inj hpc
            obtain rfl := Option.some.inj hpw
            refine Nat.le_of_not_lt fun hlt => ?_
            rcases h.marked hlt with ⟨object', ho', hinvalid⟩ | ⟨pc, hpc, hpw⟩
            · obtain rfl := Option.some.inj (ho.symm.trans ho')
              exact hvalid hinvalid
            · obtain rfl := Option.some.inj (hw.symm.trans hpc)
              cases hpw
      · cases hs
  | doing work =>
    dsimp only at hs
    split at hs
    · next object ho =>
      split at hs
      · obtain rfl := (Option.some.inj hs).symm
        -- `Doing` writes over the mark, of a work that was found without one
        refine h.frame rfl (fun hinvalid hlt => ?_) (fun pc hpc hpw => ?_) (fun pc hpc hpw => ?_)
        · refine hinvalid.set ho fun heq => ?_
          subst heq
          exact absurd (h.fresh _ hw rfl) (Nat.not_le_of_lt hlt)
        · obtain rfl := Option.some.inj (hw.symm.trans hpc)
          cases hpw
        · obtain rfl := Option.some.inj hpc
          exact h.fresh _ hw hpw
      · obtain rfl := (Option.some.inj hs).symm
        exact h.goto hw nofun rfl
    · cases hs
  | starting work =>
    obtain rfl := (Option.some.inj hs).symm
    -- it is `w` that begins, or another one
    by_cases hwork : work = w
    · obtain rfl := hwork
      -- the worker was about to begin it, so it had been spared; now the mark is to come
      have hcount : (s.begun ++ [work]).count work = s.begun.count work + 1 := by simp
      refine ⟨?_, fun _ => .inr ⟨_, rfl, rfl⟩, fun pc hpc hpw => ?_⟩
      · exact hcount.trans_le (Nat.succ_le_succ (h.fresh _ hw rfl))
      · obtain rfl := Option.some.inj hpc
        cases hpw
    · have hcount : (s.begun ++ [work]).count w = s.begun.count w := by simp [hwork]
      refine ⟨hcount.trans_le h.most, fun hlt => ?_, fun pc hpc hpw => ?_⟩
      · rcases h.marked (hcount ▸ hlt) with hinvalid | ⟨pc, hpc, hpw⟩
        · exact .inl hinvalid
        · obtain rfl := Option.some.inj (hw.symm.trans hpc)
          cases hpw
      · obtain rfl := Option.some.inj hpc
        cases hpw
  -- between the callback's beginning and its mark the worker does not leave it
  | running work =>
    obtain rfl := (Option.some.inj hs).symm
    refine h.frame rfl (fun hinvalid _ => hinvalid) (fun pc hpc hpw => ?_) (fun pc hpc hpw => ?_)
    · obtain rfl := Option.some.inj (hw.symm.trans hpc)
      exact .inr ⟨_, rfl, hpw⟩
    · obtain rfl := Option.some.inj hpc
      cases hpw
  | finishing work =>
    dsimp only at hs
    split at hs
    · next object ho =>
      obtain rfl := (Option.some.inj hs).symm
      -- the mark is set
      refine h.frame rfl (fun hinvalid _ => hinvalid.set ho fun _ => rfl) (fun pc hpc hpw => ?_)
        (fun pc hpc hpw => ?_)
      · obtain rfl := Option.some.inj (hw.symm.trans hpc)
        obtain rfl := Option.some.inj hpw
        exact .inl ⟨_, getElem?_set_status ho, rfl⟩
      · obtain rfl := Option.some.inj hpc
        cases hpw
    · cases hs

/-- A status is set that is not `kInvalid`. -/
def Action.revives (w : Nat) : Action → Bool
  | .setWorkStatus i status => i = w && status ≠ .kInvalid
  | _ => false

theorem Spent.step {w k : Nat} (h : Spent w k s) {a : Action} (hok : a.revives w = false)
    (hs : s.step a = some s') : Spent w k s' := by
  have hkept : Invalid w s → k < s.begun.count w → Invalid w s := fun hinvalid _ => hinvalid
  -- the others may mark a work, and must not take a mark away
  cases a with
  | start =>
    obtain ⟨-, rfl⟩ := State.start_cases hs
    exact h.frame rfl hkept (fun pc hpc hpw => .inr ⟨pc, hpc, hpw⟩) h.fresh
  | create ok =>
    obtain ⟨-, ⟨hnone, rfl⟩ | rfl⟩ := State.create_cases hs
    -- a new worker has nothing in its hand, and the old one had left
    · refine h.frame rfl hkept (fun pc hpc _ => ?_) (fun pc hpc hpw => ?_)
      · rw [hnone] at hpc
        cases hpc
      · obtain rfl := Option.some.inj hpc
        cases hpw
    · exact h.frame rfl hkept (fun pc hpc hpw => .inr ⟨pc, hpc, hpw⟩) h.fresh
  | stop =>
    obtain ⟨-, rfl⟩ := State.stop_cases hs
    exact h.frame rfl hkept (fun pc hpc hpw => .inr ⟨pc, hpc, hpw⟩) h.fresh
  | notify =>
    obtain ⟨-, rfl⟩ := State.notify_cases hs
    refine h.frame rfl hkept (fun pc hpc hpw => ?_) (fun pc hpc hpw => ?_)
    · rcases Worker.notify_cases pc with ⟨rfl, -⟩ | ⟨-, hsame⟩
      · cases hpw
      · exact .inr ⟨pc, by simp [hpc, hsame], hpw⟩
    · obtain ⟨pc₀, hpc₀, rfl⟩ := Option.map_eq_some_iff.mp hpc
      rcases Worker.notify_cases pc₀ with ⟨rfl, hwoken⟩ | ⟨-, hsame⟩
      · rw [hwoken] at hpw
        cases hpw
      · rw [hsame] at hpw
        exact h.fresh pc₀ hpc₀ hpw
  | join =>
    obtain ⟨-, hw, rfl⟩ := State.join_cases hs
    refine h.frame rfl hkept (fun pc hpc hpw => ?_) (fun _ => nofun)
    -- a worker that has left its loop is past every callback
    rcases hw with hw | hw
    · rw [hw] at hpc
      cases hpc
    · obtain rfl := Option.some.inj (hw.symm.trans hpc)
      cases hpw
  | newWork cb_func_ =>
    obtain rfl := (Option.some.inj hs).symm
    refine h.frame rfl (fun hinvalid _ => ?_) (fun pc hpc hpw => .inr ⟨pc, hpc, hpw⟩) h.fresh
    -- new works come in behind the old ones
    obtain ⟨object, ho, hstatus⟩ := hinvalid
    exact ⟨object, (List.getElem?_append_left (lt_length_of_getElem? ho)).trans ho, hstatus⟩
  | setWorkStatus work status =>
    obtain ⟨object, ho, rfl⟩ := State.setWorkStatus_cases hs
    refine h.frame rfl (fun hinvalid _ => hinvalid.set ho fun heq => ?_)
      (fun pc hpc hpw => .inr ⟨pc, hpc, hpw⟩) h.fresh
    -- a mark is set, or the work is another one
    simpa [Action.revives, heq] using hok
  | callPush ptr =>
    obtain rfl := (Option.some.inj hs).symm
    exact h.frame rfl hkept (fun pc hpc hpw => .inr ⟨pc, hpc, hpw⟩) h.fresh
  | testStoped i =>
    obtain ⟨ptr, -, rfl⟩ := State.testStoped_cases hs
    exact h.frame rfl hkept (fun pc hpc hpw => .inr ⟨pc, hpc, hpw⟩) h.fresh
  | push i =>
    obtain ⟨ptr, -, -, rfl⟩ := State.push_cases hs
    exact h.frame rfl hkept (fun pc hpc hpw => .inr ⟨pc, hpc, hpw⟩) h.fresh
  | work =>
    obtain ⟨pc, hw, hs⟩ := State.work_cases hs
    exact h.workAt hw hs
  | wake =>
    obtain ⟨hw, rfl⟩ := State.wake_cases hs
    exact h.goto hw (show Worker.after .waiting ≠ some w from nofun) rfl

theorem Spent.revive {w k : Nat} (h : Spent w k s) {a : Action} (ha : a.revives w = true)
    (hs : s.step a = some s') : Spent w (k + 1) s' := by
  cases a with
  | setWorkStatus i status =>
    obtain ⟨object, -, rfl⟩ := State.setWorkStatus_cases hs
    exact h.succ.frame rfl (fun _ hlt => absurd h.most (Nat.not_le_of_lt hlt))
      (fun pc hpc hpw => .inr ⟨pc, hpc, hpw⟩) h.succ.fresh
  | _ => cases ha

theorem spent_init (w : Nat) : Spent w 0 (workThread stoped_).init where
  most := Nat.zero_le 1
  marked hlt := absurd hlt (Nat.lt_irrefl 0)
  fresh _ hpc := by cases hpc

/-- **A work is run once, however often it is pushed**, unless it is revived: with any overlap of
pushes, of `DeleteWork` and of stops and restarts, its callback begins at most once more than its
status has been set to something else than `kInvalid`. -/
theorem begun_at_most_once (stoped_ : Bool) (as : List Action) (s : State) (w : Nat)
    (hrun : (workThread stoped_).run as = some s) :
    s.begun.count w ≤ as.countP (Action.revives w) + 1 := by
  have hspent : Spent w (as.countP (Action.revives w)) s := by
    refine Machine.run_induction (P := fun as s => Spent w (as.countP (Action.revives w)) s)
      (spent_init w) (fun as s a s' _ h hs => ?_) hrun
    rw [List.countP_append, List.countP_singleton]
    cases hrevives : a.revives w with
    | true => exact h.revive hrevives hs
    | false => exact h.step hrevives hs
  exact hspent.most

theorem begun_at_most_once_pushedTwice :
    ∃ s, (workThread true).run pushedTwice = some s ∧ s.begun.count 0 ≤ 1 := by
  obtain ⟨s, hs⟩ := Option.isSome_iff_exists.mp
    (show ((workThread true).run pushedTwice).isSome = true by decide)
  exact ⟨s, hs, begun_at_most_once true pushedTwice s 0 hs⟩

end CppDone.WorkThread
