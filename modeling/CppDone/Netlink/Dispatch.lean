import CppDone.Lib.Product
import CppDone.Netlink.Fresh
import CppDone.Netlink.Removal

/-!
# What a callback gets to see

The monitor and its callbacks together. They meet in `forEachCallback`: the dispatcher pops the
front of its own queue and calls it with the event, and goes on when it has returned. Everything
else either side does for itself.

The calls made so far are accounted for by the events handed on so far. Each `forEachCallback`
that has returned has called what was in the list, the one under way has called the front of it,
and while it is under way the list does not change.

That the two meet only there makes the composition a product: a step is one of the monitor, one of
the callbacks, or one of the two in which both take part.
-/

set_option autoImplicit false

namespace CppDone.Netlink

open Callbacks (EventCallbackInfo Position Registered seen)

/-! ## What the two sides do

Seen from the other side. Of the monitor it is enough to know when it hands an event on; of the
callbacks, what they have called. -/

section Sides

variable {F C D : Type} {M : Nat}

/-- Only `next` hands an event on. -/
theorem handed_step {s s' : State D} {a : Action D} (ha : a ≠ .next) (hs : s.step M a = some s') :
    s'.handed = s.handed := by
  cases a with
  | enter => obtain ⟨-, rfl⟩ := State.enter_cases hs; rfl
  | test => obtain ⟨-, rfl⟩ := State.test_cases hs; rfl
  | recv r => obtain ⟨-, ⟨ev, -, -, rfl⟩ | ⟨receiver, -, rfl⟩⟩ := State.recv_cases hs <;> rfl
  | push =>
    obtain ⟨ev, -, ⟨oldest, rest, -, -, rfl⟩ | ⟨-, rfl⟩⟩ := State.push_cases hs
    · rfl
    · rfl
  | lock => obtain ⟨-, ⟨-, rfl⟩ | ⟨-, ⟨-, rfl⟩ | ⟨-, rfl⟩⟩⟩ := State.lock_cases hs <;> rfl
  | wake => obtain ⟨-, rfl⟩ := State.wake_cases hs; rfl
  | resume => obtain ⟨-, rfl⟩ := State.resume_cases hs; rfl
  | next => exact absurd rfl ha
  | handedBack => obtain ⟨ev, tempEvQueue, -, rfl⟩ := State.handedBack_cases hs; rfl
  | _ => exact (State.controller_frame rfl hs).handed

def Callbacks.ForEach.isOutside {E : Type} : Callbacks.ForEach F C E → Bool
  | .outside => true
  | _ => false

theorem Callbacks.ForEach.isOutside_iff {E : Type} {f : Callbacks.ForEach F C E} :
    f.isOutside = true ↔ f = .outside := by
  cases f with
  | outside => exact ⟨fun _ => rfl, fun _ => rfl⟩
  | _ => exact ⟨nofun, nofun⟩

/-- Outside of `forEachCallback` nothing is called. -/
theorem outside_step {c c' : Callbacks.State F C (ProcEvent D)}
    {a : Callbacks.Action F C (ProcEvent D)} (hout : c.forEach = .outside)
    (ha : ∀ ev, a ≠ .forEach ev) (hs : c.step a = some c') :
    c'.forEach = .outside ∧ c'.invoked = c.invoked := by
  -- calls come and go; the loop is not entered
  cases a with
  | callAdd eventCallback context => obtain rfl := (Option.some.inj hs).symm; exact ⟨hout, rfl⟩
  | generateId i =>
    obtain ⟨eventCallback, context, -, rfl⟩ := Callbacks.State.generateId_cases hs
    exact ⟨hout, rfl⟩
  | emplaceBack i =>
    obtain ⟨eventCallback, context, id, -, -, rfl⟩ := Callbacks.State.emplaceBack_cases hs
    exact ⟨hout, rfl⟩
  | callRemove id => obtain rfl := (Option.some.inj hs).symm; exact ⟨hout, rfl⟩
  | removeIf i =>
    obtain ⟨id, -, -, rfl⟩ := Callbacks.State.removeIf_cases hs
    exact ⟨hout, rfl⟩
  | forEach ev => exact absurd rfl (ha ev)
  | enter =>
    obtain ⟨ev, hf, -⟩ := Callbacks.State.enter_cases hs
    rw [hout] at hf
    cases hf
  | next =>
    obtain ⟨ev, i, hf, -⟩ := Callbacks.State.next_cases hs
    rw [hout] at hf
    cases hf
  | calledBack =>
    obtain ⟨ev, i, e, hf, -⟩ := Callbacks.State.calledBack_cases hs
    rw [hout] at hf
    cases hf

/-- Only the end of its loop leaves `forEachCallback`. -/
theorem leave_step {c c' : Callbacks.State F C (ProcEvent D)}
    {a : Callbacks.Action F C (ProcEvent D)} (hin : c.forEach ≠ .outside)
    (hs : c.step a = some c') (hout : c'.forEach = .outside) : a = .next := by
  -- `next` is where the loop finds its end
  cases a with
  | callAdd eventCallback context =>
    obtain rfl := (Option.some.inj hs).symm
    exact absurd hout hin
  | generateId i =>
    obtain ⟨eventCallback, context, -, rfl⟩ := Callbacks.State.generateId_cases hs
    exact absurd hout hin
  | emplaceBack i =>
    obtain ⟨eventCallback, context, id, -, -, rfl⟩ := Callbacks.State.emplaceBack_cases hs
    exact absurd hout hin
  | callRemove id =>
    obtain rfl := (Option.some.inj hs).symm
    exact absurd hout hin
  | removeIf i =>
    obtain ⟨id, -, -, rfl⟩ := Callbacks.State.removeIf_cases hs
    exact absurd hout hin
  | forEach ev =>
    obtain ⟨hf, -⟩ := Callbacks.State.callForEach_cases hs
    exact absurd hf hin
  | enter =>
    obtain ⟨ev, -, rfl⟩ := Callbacks.State.enter_cases hs
    cases hout
  | next => rfl
  | calledBack =>
    obtain ⟨ev, i, e, -, rfl⟩ := Callbacks.State.calledBack_cases hs
    cases hout

/-! ## The calls made for the events handed on

A relation between events and calls that every `forEachCallback` extends by its own. What is to be
shown of single callbacks is then a matter of choosing the relation. -/

/-- The event that `forEachCallback` was called with. -/
def Callbacks.ForEach.event {E : Type} : Callbacks.ForEach F C E → Option E
  | .outside => none
  | .lock ev | .loop ev _ | .inCallback ev _ _ => some ev

theorem event_of_outside {E : Type} {f : Callbacks.ForEach F C E} (h : f.event = none) :
    f = .outside := by
  cases f with
  | outside => rfl
  | _ => cases h

/-- The event stays, or `forEachCallback` is left. -/
theorem event_step {c c' : Callbacks.State F C (ProcEvent D)}
    {a : Callbacks.Action F C (ProcEvent D)} (ha : ∀ ev, a ≠ .forEach ev)
    (hs : c.step a = some c') :
    c'.forEach.event = c.forEach.event ∨ c'.forEach.event = none := by
  -- the event is a parameter, which the loop does not change
  cases a with
  | callAdd eventCallback context => obtain rfl := (Option.some.inj hs).symm; exact Or.inl rfl
  | generateId i =>
    obtain ⟨eventCallback, context, -, rfl⟩ := Callbacks.State.generateId_cases hs
    exact Or.inl rfl
  | emplaceBack i =>
    obtain ⟨eventCallback, context, id, -, -, rfl⟩ := Callbacks.State.emplaceBack_cases hs
    exact Or.inl rfl
  | callRemove id => obtain rfl := (Option.some.inj hs).symm; exact Or.inl rfl
  | removeIf i =>
    obtain ⟨id, -, -, rfl⟩ := Callbacks.State.removeIf_cases hs
    exact Or.inl rfl
  | forEach ev => exact absurd rfl (ha ev)
  | enter =>
    obtain ⟨ev, hf, rfl⟩ := Callbacks.State.enter_cases hs
    rw [hf]
    exact Or.inl rfl
  | next =>
    obtain ⟨ev, i, hf, ⟨-, rfl⟩ | ⟨e, -, ⟨-, rfl⟩ | ⟨-, rfl⟩⟩⟩ := Callbacks.State.next_cases hs
    -- the end of the loop
    · exact Or.inr rfl
    · rw [hf]
      exact Or.inl rfl
    · rw [hf]
      exact Or.inl rfl
  | calledBack =>
    obtain ⟨ev, i, e, hf, rfl⟩ := Callbacks.State.calledBack_cases hs
    rw [hf]
    exact Or.inl rfl

/-- The events the callback with the id was called with. -/
def calledWith (id : Nat) (invoked : List (ProcEvent D × EventCallbackInfo F C)) :
    List (ProcEvent D) :=
  (invoked.filter fun p => p.2.id_ == id).map Prod.fst

/-- `R` relates the events of the `forEachCallback`s that have returned with the calls they made;
another one is as far as `Position` says. -/
def Accounted (R : List (ProcEvent D) → List (ProcEvent D × EventCallbackInfo F C) → Prop)
    (s : State D × Callbacks.State F C (ProcEvent D)) : Prop :=
  s.2.forEach = .outside ∧ R s.1.handed s.2.invoked ∨
    ∃ ev before s₀, s.1.handed = before ++ [ev] ∧ Position ev s₀ s.2 ∧ R before s₀.invoked

theorem Accounted.frame
    {R : List (ProcEvent D) → List (ProcEvent D × EventCallbackInfo F C) → Prop}
    {s t : State D × Callbacks.State F C (ProcEvent D)} (h : Accounted R s)
    (hhand : t.1.handed = s.1.handed) (ht : t.2 = s.2) : Accounted R t := by
  unfold Accounted
  rw [hhand, ht]
  exact h

theorem calledWith_append (id : Nat)
    (invoked invoked' : List (ProcEvent D × EventCallbackInfo F C)) :
    calledWith id (invoked ++ invoked') = calledWith id invoked ++ calledWith id invoked' := by
  unfold calledWith
  rw [List.filter_append, List.map_append]

/-- One `forEachCallback` calls what is there once with its event. -/
theorem calledWith_seen {ev : ProcEvent D} {l : List (EventCallbackInfo F C)}
    {e : EventCallbackInfo F C} (hnodup : (l.map EventCallbackInfo.id_).Nodup) (he : e ∈ l)
    (hcb : e.callback_.isSome = true) : calledWith e.id_ (seen ev l) = [ev] := by
  unfold calledWith
  rw [Callbacks.filter_seen hnodup he hcb]
  rfl

/-- And nothing twice. -/
theorem calledWith_seen_sublist {ev : ProcEvent D} {l : List (EventCallbackInfo F C)} (id : Nat)
    (hnodup : (l.map EventCallbackInfo.id_).Nodup) :
    (calledWith id (seen ev l)).Sublist [ev] := by
  by_cases h : ∃ e ∈ l, e.callback_.isSome = true ∧ e.id_ = id
  · obtain ⟨e, he, hcb, rfl⟩ := h
    rw [calledWith_seen hnodup he hcb]
  · have hnone : (seen ev l).filter (fun p => p.2.id_ == id) = [] := by
      refine List.filter_eq_nil_iff.mpr fun p hp heq => h ?_
      obtain ⟨e, he, rfl⟩ := List.mem_map.mp hp
      exact ⟨e, (List.mem_filter.mp he).1, (List.mem_filter.mp he).2, beq_iff_eq.mp heq⟩
    unfold calledWith
    rw [hnone]
    exact List.nil_sublist [ev]

/-- What the call under way has called so far. -/
theorem position_invoked {c s₀ : Callbacks.State F C (ProcEvent D)} {ev : ProcEvent D}
    (h : Position ev s₀ c) :
    ∃ i, c.invoked = s₀.invoked ++ seen ev (c.ProcEv_Callbacks_.take i) := by
  rcases h with ⟨-, hinv⟩ | ⟨i, -, hinv⟩ | ⟨i, e, -, hinv⟩
  · exact ⟨0, hinv.trans (List.append_nil _).symm⟩
  · exact ⟨i, hinv⟩
  · exact ⟨i + 1, hinv⟩

theorem not_position_outside {c s₀ : Callbacks.State F C (ProcEvent D)} {ev : ProcEvent D}
    (hout : c.forEach = .outside) : ¬ Position ev s₀ c := by
  intro h
  have hlock := (h.of_free (hout ▸ rfl)).1
  rw [hout] at hlock
  cases hlock

/-! ### Nothing lost

Where no event is dropped, what was received is what was handed on and what is still on the way. -/

/-- What was received and not popped for overflow was handed on or is on the way. -/
theorem Delivered.all {s : State D} (h : Delivered s) :
    s.handed ++ s.onTheWay = deleted s.received s.dropped ∧
      ∀ p ∈ s.dropped, p < s.received.length := by
  obtain ⟨gone, hpushed, hlt, hkept⟩ := h.kept
  have hrec : s.received = gone ++ (s.ProcEvQueue_ ++ s.inHand) := by
    rw [h.arrived, hpushed, List.append_assoc]
  constructor
  · rw [hrec, deleted_append hlt, ← hkept]
    unfold State.onTheWay
    simp only [List.append_assoc]
  · intro p hp
    rw [hrec, List.length_append]
    exact Nat.lt_add_right _ (hlt p hp)

/-- Without overflow everything stays in its place. -/
theorem Delivered.flow_eq {s t : State D} (hs : Delivered s) (ht : Delivered t)
    (hdrop : t.dropped = s.dropped) {given taken : List (ProcEvent D)}
    (hhand : t.handed = s.handed ++ given) (hrec : t.received = s.received ++ taken) :
    given ++ t.onTheWay = s.onTheWay ++ taken := by
  have hall : t.handed ++ t.onTheWay = (s.handed ++ s.onTheWay) ++ taken := by
    rw [ht.all.1, hrec, hdrop, deleted_append hs.all.2, hs.all.1]
  rw [hhand, List.append_assoc, List.append_assoc] at hall
  exact List.append_cancel_left hall

/-- Only the return of `forEachCallback` takes the dispatcher out of it. -/
theorem handing_step {s s' : State D} {a : Action D} {ev : ProcEvent D}
    {tempEvQueue : List (ProcEvent D)} (ha : a ≠ .handedBack)
    (hd : s.CallbackDispatchThread_ = some (.handing ev tempEvQueue))
    (hs : s.step M a = some s') :
    s'.CallbackDispatchThread_ = some (.handing ev tempEvQueue) := by
  -- the receiver may push and notify; a dispatcher that does not sleep is not moved by that
  cases a with
  | enter => obtain ⟨-, rfl⟩ := State.enter_cases hs; exact hd
  | test => obtain ⟨-, rfl⟩ := State.test_cases hs; exact hd
  | recv r =>
    obtain ⟨-, ⟨ev', -, -, rfl⟩ | ⟨receiver, -, rfl⟩⟩ := State.recv_cases hs
    · exact hd
    · exact hd
  | push =>
    have hnotify : s.CallbackDispatchThread_.map Dispatcher.notify =
        some (.handing ev tempEvQueue) := by
      rw [hd]
      rfl
    obtain ⟨ev', -, ⟨oldest, rest, -, -, rfl⟩ | ⟨-, rfl⟩⟩ := State.push_cases hs
    · exact hnotify
    · exact hnotify
  | lock => exact nomatch hd.symm.trans (State.lock_cases hs).1
  | wake => exact nomatch hd.symm.trans (State.wake_cases hs).1
  | resume =>
    obtain ⟨⟨notified, hw⟩, -⟩ := State.resume_cases hs
    exact nomatch hd.symm.trans hw
  | next =>
    obtain ⟨hn, -⟩ | ⟨ev', tempEvQueue', hn, -⟩ := State.next_cases hs
    · exact nomatch hd.symm.trans hn
    · exact nomatch hd.symm.trans hn
  | handedBack => exact absurd rfl ha
  | _ =>
    -- `Stop` joins a dispatcher that has left its loop, and this one has not
    rcases (State.controller_frame rfl hs).dispatcher with h | h | ⟨h | h, -⟩
    · rw [h, hd]
    · rw [h, hd]
      rfl
    · exact nomatch hd.symm.trans h
    · exact nomatch hd.symm.trans h

end Sides

/-! ## The composition

The labels of both, less those by which either would do alone what they do together. -/

/-- A step of one side, or `forEachCallback` entered or left, in which both take part. -/
inductive Label (F C D : Type) where
  | monitor (a : Action D)
  | callbacks (a : Callbacks.Action F C (ProcEvent D))
  | forEachCallback (ev : ProcEvent D)
  | handedBack
deriving DecidableEq, Repr

variable {F C D : Type} [DecidableEq D]

def Label.ofMonitor : Label F C D → Option (Action D)
  | .monitor a => some a
  | .callbacks _ => none
  | .forEachCallback _ => some .next
  | .handedBack => some .handedBack

def Label.ofCallbacks : Label F C D → Option (Callbacks.Action F C (ProcEvent D))
  | .monitor _ | .handedBack => none
  | .callbacks a => some a
  | .forEachCallback ev => some (.forEach ev)

/-- By itself the dispatcher takes no event out of its queue, and `forEachCallback` is called and
returns by the two labels for it. -/
def Label.guard (s : State D) (c : Callbacks.State F C (ProcEvent D)) : Label F C D → Bool
  | .monitor .next => s.tempEvQueue.isEmpty
  | .monitor .handedBack | .callbacks (.forEach _) => false
  | .monitor _ | .callbacks _ => true
  | .forEachCallback ev => s.tempEvQueue.head? = some ev
  | .handedBack => c.forEach.isOutside

/-- The process monitor with its callbacks. -/
def system (F C D : Type) [DecidableEq D] (kProcEvQueueMaxSize : Nat) :
    Machine (State D × Callbacks.State F C (ProcEvent D)) (Label F C D) :=
  (monitor D kProcEvQueueMaxSize).product (Callbacks.callbacks F C (ProcEvent D))
    Label.ofMonitor Label.ofCallbacks Label.guard

variable {M : Nat} {s t u : State D × Callbacks.State F C (ProcEvent D)}

/-! ## What each label does

Read off the composition once. A step of one side leaves the other one where it is. -/

/-- A step of the monitor calls nothing and hands nothing on. -/
theorem monitor_label {a : Action D} (hs : (system F C D M).step s (.monitor a) = some t) :
    s.1.step M a = some t.1 ∧ a ≠ .handedBack ∧ t.1.handed = s.1.handed ∧ t.2 = s.2 := by
  obtain ⟨hguard, hleft, hright⟩ := Machine.product_step.mp hs
  have hstep : s.1.step M a = some t.1 := hleft
  obtain rfl | ha := eq_or_ne a .next
  · refine ⟨hstep, nofun, ?_, (Option.some.inj hright).symm⟩
    have hempty : s.1.tempEvQueue = [] := List.isEmpty_iff.mp hguard
    obtain ⟨-, h⟩ | ⟨ev, tempEvQueue, hd, -⟩ := State.next_cases hstep
    · rw [h]
    · rw [tempEvQueue_of_dispatcher hd] at hempty
      cases hempty
  · refine ⟨hstep, ?_, handed_step ha hstep, (Option.some.inj hright).symm⟩
    rintro rfl
    cases hguard

theorem callbacks_label {a : Callbacks.Action F C (ProcEvent D)}
    (hs : (system F C D M).step s (.callbacks a) = some t) :
    s.2.step a = some t.2 ∧ (∀ ev, a ≠ .forEach ev) ∧ t.1 = s.1 := by
  obtain ⟨hguard, hleft, hright⟩ := Machine.product_step.mp hs
  refine ⟨hright, ?_, (Option.some.inj hleft).symm⟩
  rintro ev rfl
  cases hguard

theorem forEachCallback_label {ev : ProcEvent D}
    (hs : (system F C D M).step s (.forEachCallback ev) = some t) :
    s.2.forEach = .outside ∧ t.2 = { s.2 with forEach := .lock ev } ∧
      t.1.handed = s.1.handed ++ [ev] ∧
      ∃ tempEvQueue, t.1.CallbackDispatchThread_ = some (.handing ev tempEvQueue) := by
  obtain ⟨hguard, hleft, hright⟩ := Machine.product_step.mp hs
  obtain ⟨hout, hlock⟩ := Callbacks.State.callForEach_cases hright
  have hfront : s.1.tempEvQueue.head? = some ev := of_decide_eq_true hguard
  obtain ⟨hd, -⟩ | ⟨ev', tempEvQueue, hd, hnext⟩ := State.next_cases hleft
  · rw [tempEvQueue_of_dispatcher hd] at hfront
    cases hfront
  · rw [tempEvQueue_of_dispatcher hd] at hfront
    obtain rfl : ev' = ev := Option.some.inj hfront
    rw [hnext]
    exact ⟨hout, hlock, rfl, tempEvQueue, rfl⟩

theorem handedBack_label (hs : (system F C D M).step s .handedBack = some t) :
    s.2.forEach = .outside ∧ t.2 = s.2 ∧ t.1.handed = s.1.handed := by
  obtain ⟨hguard, hleft, hright⟩ := Machine.product_step.mp hs
  have hstep : s.1.step M .handedBack = some t.1 := hleft
  have hne : Action.handedBack ≠ (.next : Action D) := nofun
  exact ⟨Callbacks.ForEach.isOutside_iff.mp hguard, (Option.some.inj hright).symm,
    handed_step hne hstep⟩

/-- The callbacks take no step of their own, one that calls nothing to dispatch, or one step. -/
theorem callbacks_inv {I : Callbacks.State F C (ProcEvent D) → Prop}
    (hI : ∀ {c a c'}, I c → Callbacks.State.step c a = some c' → I c') {l : Label F C D}
    (h : I s.2) (hs : (system F C D M).step s l = some t) : I t.2 :=
  Machine.runFrom_inv (M := Callbacks.callbacks F C (ProcEvent D)) hI h
    (Machine.stepIf_runFrom (Machine.product_step.mp hs).2.2)

/-! ## Along a run

The relation is kept from one `forEachCallback` to the next. A callback that stays in the list is
called by each of them, once. -/

variable {R : List (ProcEvent D) → List (ProcEvent D × EventCallbackInfo F C) → Prop}

theorem Accounted.step {l : Label F C D} (h : Accounted R s)
    (hR : ∀ ev before invoked, R before invoked →
      R (before ++ [ev]) (invoked ++ seen ev s.2.ProcEv_Callbacks_))
    (hs : (system F C D M).step s l = some t) : Accounted R t := by
  cases l with
  | monitor a =>
    obtain ⟨-, -, hhand, ht⟩ := monitor_label hs
    exact h.frame hhand ht
  | handedBack =>
    obtain ⟨-, ht, hhand⟩ := handedBack_label hs
    exact h.frame hhand ht
  | forEachCallback ev =>
    obtain ⟨hout, ht, hhand, -⟩ := forEachCallback_label hs
    rcases h with ⟨-, hrel⟩ | ⟨ev', before, s₀, -, hpos, -⟩
    · exact Or.inr ⟨ev, s.1.handed, s.2, hhand, by rw [ht]; exact Or.inl ⟨rfl, rfl⟩, hrel⟩
    · exact absurd hpos (not_position_outside hout)
  | callbacks a =>
    obtain ⟨hstep, ha, ht⟩ := callbacks_label hs
    rcases h with ⟨hout, hrel⟩ | ⟨ev, before, s₀, hhand, hpos, hrel⟩
    · obtain ⟨hout', hinv⟩ := outside_step hout ha hstep
      refine Or.inl ⟨hout', ?_⟩
      rw [ht, hinv]
      exact hrel
    · have hin : s.2.forEach ≠ .outside := fun hout => not_position_outside hout hpos
      by_cases hout : t.2.forEach = .outside
      · -- the loop is over, and its event is accounted for
        obtain rfl := leave_step hin hstep hout
        refine Or.inl ⟨hout, ?_⟩
        rw [ht, hhand, hpos.returned hstep hout]
        exact hR ev before s₀.invoked hrel
      · exact Or.inr ⟨ev, before, s₀, by rw [ht, hhand], hpos.step hstep hout, hrel⟩

/-- What every `forEachCallback` keeps that finds a list as `P` has it. -/
theorem Accounted.runFrom {P : State D × Callbacks.State F C (ProcEvent D) → Prop}
    {ls : List (Label F C D)} (hinv : Callbacks.Inv s.2) (h : Accounted R s)
    (hR : ∀ u : State D × Callbacks.State F C (ProcEvent D), Registered u.2 → P u →
      ∀ ev before invoked, R before invoked →
        R (before ++ [ev]) (invoked ++ seen ev u.2.ProcEv_Callbacks_))
    (hP : (system F C D M).Throughout P s ls) (hr : (system F C D M).runFrom s ls = some t)
    (hfew : t.2.draws < 2 ^ 64) : Accounted R t := by
  have hboth : Callbacks.Inv t.2 ∧ (t.2.draws < 2 ^ 64 → Accounted R t) := by
    refine hP.inv (I := fun u => Callbacks.Inv u.2 ∧ (u.2.draws < 2 ^ 64 → Accounted R u)) ?_
      ⟨hinv, fun _ => h⟩ hr
    rintro u l u' ⟨hu, hacc⟩ hPu - hs
    refine ⟨callbacks_inv (fun hc hstep => hc.step hstep) hu hs, fun hlt => ?_⟩
    have hle : u.2.draws ≤ u'.2.draws :=
      callbacks_inv (fun hc hstep => Nat.le_trans hc (Callbacks.draws_le_step hstep))
        (Nat.le_refl u.2.draws) hs
    have hlt' := Nat.lt_of_le_of_lt hle hlt
    exact (hacc hlt').step (hR u (hu.registered hlt') hPu) hs
  exact hboth.2 hfew

theorem reachable_monitor (h : (system F C D M).Reachable s) : (monitor D M).Reachable s.1 :=
  Machine.product_reachable_left h

theorem reachable_callbacks (h : (system F C D M).Reachable s) :
    (Callbacks.callbacks F C (ProcEvent D)).Reachable s.2 :=
  Machine.product_reachable_right h

/-- **A callback sees every event handed on while it is registered.** Take two states between
calls of `forEachCallback` with a callback in the list from one to the other. Meanwhile it is
called with the events handed on, in their order and once each: those on the way at the start and
those received since, up to what is still on the way, and without the ones popped for overflow.
Where none is popped it misses nothing. -/
theorem callback_sees_events (M : Nat) (s t : State D × Callbacks.State F C (ProcEvent D))
    (ls : List (Label F C D)) (e : EventCallbackInfo F C) (hs : (system F C D M).Reachable s)
    (hr : (system F C D M).runFrom s ls = some t) (hfew : t.2.additions < 2 ^ 64)
    (hthere : (system F C D M).Throughout (fun u => e ∈ u.2.ProcEv_Callbacks_) s ls)
    (hcb : e.callback_.isSome = true) (hout : s.2.forEach = .outside)
    (hout' : t.2.forEach = .outside) :
    ∃ given taken, t.1.handed = s.1.handed ++ given ∧ t.1.received = s.1.received ++ taken ∧
      calledWith e.id_ t.2.invoked = calledWith e.id_ s.2.invoked ++ given ∧
      (given ++ t.1.onTheWay).Sublist (s.1.onTheWay ++ taken) ∧
      (t.1.dropped = s.1.dropped → given ++ t.1.onTheWay = s.1.onTheWay ++ taken) := by
  obtain ⟨given, taken, hhand, hrec, hsub⟩ := flow_runFrom (Machine.product_runFrom_left hr)
  refine ⟨given, taken, hhand, hrec, ?_, hsub, fun hdrop => ?_⟩
  · -- every returned `forEachCallback` since `s` has called it with its event
    have hacc : Accounted (fun before invoked => ∃ since, before = s.1.handed ++ since ∧
        calledWith e.id_ invoked = calledWith e.id_ s.2.invoked ++ since) t := by
      refine Accounted.runFrom ((reachable_callbacks hs).inv Callbacks.inv_inductive)
        (Or.inl ⟨hout, [], (List.append_nil _).symm, (List.append_nil _).symm⟩) ?_ hthere hr
        (Nat.lt_of_le_of_lt t.2.draws_le_additions hfew)
      rintro u hreg he ev before invoked ⟨since, rfl, hcalled⟩
      refine ⟨since ++ [ev], List.append_assoc _ _ _, ?_⟩
      rw [calledWith_append, hcalled, calledWith_seen hreg.nodup he hcb, List.append_assoc]
    rcases hacc with ⟨-, since, hsince, hcalled⟩ | ⟨ev, before, s₀, -, hpos, -⟩
    · rw [hcalled, List.append_cancel_left (hsince.symm.trans hhand)]
    · exact absurd hpos (not_position_outside hout')
  · have hdel := (reachable_monitor hs).inv delivered_inductive
    have hdel' := (reachable_monitor (hs.runFrom hr)).inv delivered_inductive
    exact hdel.flow_eq hdel' hdrop hhand hrec

/-- Two callbacks are added and the monitor is started, and an event is pushed. -/
def twoAdded : List (Label Nat Nat Nat) :=
  [.callbacks (.callAdd (some 7) 1), .callbacks (.generateId 0), .callbacks (.emplaceBack 0),
    .callbacks (.callAdd (some 9) 3), .callbacks (.generateId 1), .callbacks (.emplaceBack 1),
    .monitor .start, .monitor (.connect true true), .monitor (.subscribe true),
    .monitor (.createRecv true), .monitor (.createDispatcher true), .monitor .started,
    .monitor .enter, .monitor .test, .monitor (.recv (.event ⟨.FORK, 1⟩)), .monitor .push]

/-- Another event is pushed meanwhile, and the first callback is removed between the two. -/
def dispatchBoth : List (Label Nat Nat Nat) :=
  [.monitor .lock, .monitor .test, .monitor (.recv (.event ⟨.EXIT, 2⟩)),
    .forEachCallback ⟨.FORK, 1⟩, .monitor .push, .callbacks .enter, .callbacks .next,
    .callbacks (.callRemove 1), .callbacks .calledBack, .callbacks .next, .callbacks .calledBack,
    .callbacks .next, .callbacks (.removeIf 2), .handedBack, .monitor .next, .monitor .lock,
    .forEachCallback ⟨.EXIT, 2⟩, .callbacks .enter, .callbacks .next, .callbacks .calledBack,
    .callbacks .next]

def oneQueued : State Nat × Callbacks.State Nat Nat (ProcEvent Nat) :=
  ({ Started_ := true
     StopThreads_ := false
     netlink_sock_ := true
     subscribed := true
     ProcEvProducerThread_ := some .test
     CallbackDispatchThread_ := some .lock
     control := .idle
     ProcEvQueue_ := [⟨.FORK, 1⟩]
     returned := [0]
     received := [⟨.FORK, 1⟩]
     pushed := [⟨.FORK, 1⟩]
     dropped := []
     handed := [] },
   { nextId_ := 3
     ProcEv_Callbacks_ := [⟨1, some 7, 1⟩, ⟨2, some 9, 3⟩]
     calls := [.add (some 7) 1 (.returned 1), .add (some 9) 3 (.returned 2)]
     forEach := .outside
     invoked := [] })

def bothHanded : State Nat × Callbacks.State Nat Nat (ProcEvent Nat) :=
  ({ oneQueued.1 with
     CallbackDispatchThread_ := some (.handing ⟨.EXIT, 2⟩ [])
     ProcEvQueue_ := []
     received := [⟨.FORK, 1⟩, ⟨.EXIT, 2⟩]
     pushed := [⟨.FORK, 1⟩, ⟨.EXIT, 2⟩]
     handed := [⟨.FORK, 1⟩, ⟨.EXIT, 2⟩] },
   { oneQueued.2 with
     ProcEv_Callbacks_ := [⟨2, some 9, 3⟩]
     calls := oneQueued.2.calls ++ [.remove 1 true]
     invoked := [(⟨.FORK, 1⟩, ⟨1, some 7, 1⟩), (⟨.FORK, 1⟩, ⟨2, some 9, 3⟩),
       (⟨.EXIT, 2⟩, ⟨2, some 9, 3⟩)] })

theorem oneQueued_reachable : (system Nat Nat Nat 0).Reachable oneQueued := ⟨twoAdded, by decide⟩

theorem callback_sees_events_two :
    ∃ given taken, bothHanded.1.handed = oneQueued.1.handed ++ given ∧
      bothHanded.1.received = oneQueued.1.received ++ taken ∧
      calledWith 2 bothHanded.2.invoked = calledWith 2 oneQueued.2.invoked ++ given ∧
      given ++ bothHanded.1.onTheWay = oneQueued.1.onTheWay ++ taken := by
  obtain ⟨given, taken, hhand, hrec, hcalled, -, hall⟩ :=
    callback_sees_events 0 oneQueued bothHanded dispatchBoth ⟨2, some 9, 3⟩ oneQueued_reachable
      (by decide) (by decide) (by decide) rfl rfl rfl
  exact ⟨given, taken, hhand, hrec, hcalled, hall rfl⟩

/-- **No callback is called twice for an event, nor for one that was not handed on**: at any time,
what a callback was called with is a part of what was handed on, in the same order, and so a part
of what was received. -/
theorem callback_called_at_most_once (M : Nat) (s : State D × Callbacks.State F C (ProcEvent D))
    (hs : (system F C D M).Reachable s) (hfew : s.2.additions < 2 ^ 64) (id : Nat) :
    (calledWith id s.2.invoked).Sublist s.1.handed ∧ s.1.handed.Sublist s.1.received := by
  constructor
  · obtain ⟨ls, hr⟩ := hs
    have hall : (system F C D M).Throughout (fun _ => True) (system F C D M).init ls :=
      Machine.throughout_iff.mpr fun _ _ _ _ _ => trivial
    have hstart : Accounted (fun before invoked => (calledWith id invoked).Sublist before)
        (system F C D M).init := Or.inl ⟨rfl, List.nil_sublist []⟩
    have hacc : Accounted (fun before invoked => (calledWith id invoked).Sublist before) s := by
      refine Accounted.runFrom Callbacks.inv_init hstart ?_ hall hr
        (Nat.lt_of_le_of_lt s.2.draws_le_additions hfew)
      intro u hreg _ ev before invoked hsub
      rw [calledWith_append]
      exact hsub.append (calledWith_seen_sublist id hreg.nodup)
    rcases hacc with ⟨-, hsub⟩ | ⟨ev, before, s₀, hhand, hpos, hsub⟩
    · exact hsub
    · -- the call under way is the last one handed on
      obtain ⟨i, hinv⟩ := position_invoked hpos
      have hnodup := (Callbacks.registered_of_additions (reachable_callbacks ⟨ls, hr⟩) hfew).nodup
      have hfront : ((s.2.ProcEv_Callbacks_.take i).map EventCallbackInfo.id_).Nodup :=
        hnodup.sublist ((List.take_sublist i _).map _)
      rw [hhand, hinv, calledWith_append]
      exact hsub.append (calledWith_seen_sublist id hfront)
  · have hdel := (reachable_monitor hs).inv delivered_inductive
    have hkept : (s.1.handed ++ s.1.onTheWay).Sublist s.1.received := by
      rw [hdel.all.1]
      exact deleted_sublist _ _
    exact (List.sublist_append_left _ _).trans hkept

theorem callback_called_at_most_once_removed :
    (calledWith 1 bothHanded.2.invoked).Sublist bothHanded.1.handed ∧
      bothHanded.1.handed.Sublist bothHanded.1.received :=
  callback_called_at_most_once 0 bothHanded
    ⟨twoAdded ++ dispatchBoth, Machine.run_append.mpr ⟨oneQueued, by decide, by decide⟩⟩
    (by decide) 1

/-! ## Between a `Stop` and the next `Start`

`Stop` joins the dispatcher, and only the dispatcher calls. What callers add and remove meanwhile is
heard of by the next one. -/

/-- While `forEachCallback` is under way the dispatcher is in it, with the same event. -/
def InCall (s : State D × Callbacks.State F C (ProcEvent D)) : Prop :=
  ∀ ev, s.2.forEach.event = some ev →
    ∃ tempEvQueue, s.1.CallbackDispatchThread_ = some (.handing ev tempEvQueue)

theorem InCall.step {l : Label F C D} (h : InCall s) (hs : (system F C D M).step s l = some t) :
    InCall t := by
  -- the monitor keeps the dispatcher where it is, the callbacks keep the event
  cases l with
  | monitor a =>
    obtain ⟨hstep, ha, -, ht⟩ := monitor_label hs
    intro ev hev
    rw [ht] at hev
    obtain ⟨tempEvQueue, hd⟩ := h ev hev
    exact ⟨tempEvQueue, handing_step ha hd hstep⟩
  | callbacks a =>
    obtain ⟨hstep, ha, ht⟩ := callbacks_label hs
    intro ev hev
    rw [ht]
    rcases event_step ha hstep with hsame | hnone
    · exact h ev (hsame.symm.trans hev)
    · exact nomatch hnone.symm.trans hev
  | forEachCallback ev =>
    obtain ⟨-, ht, -, hd⟩ := forEachCallback_label hs
    intro ev' hev
    rw [ht] at hev
    obtain rfl : ev = ev' := Option.some.inj hev
    exact hd
  | handedBack =>
    obtain ⟨hout, ht, -⟩ := handedBack_label hs
    intro ev hev
    rw [ht, hout] at hev
    cases hev

theorem inCall_inductive : (system F C D M).Inductive InCall where
  init := fun _ h => (by cases h)
  step h hs := h.step hs

/-- What a stopped monitor with its callbacks is like until it is started again. Only the list of
callbacks and the calls that change it can be different. -/
structure Silent (s₀ s : State D × Callbacks.State F C (ProcEvent D)) : Prop where
  monitor : s.1 = s₀.1
  outside : s.2.forEach = .outside
  invoked : s.2.invoked = s₀.2.invoked

theorem Silent.step {s₀ : State D × Callbacks.State F C (ProcEvent D)} (hl : Lifecycle s₀.1)
    (hstop : s₀.1.Stopped) {l : Label F C D} (h : Silent s₀ s) (hlabel : l ≠ .monitor .start)
    (hs : (system F C D M).step s l = some t) : Silent s₀ t := by
  -- stopped, so there is no dispatcher that could call
  have hnone : s.1.CallbackDispatchThread_ = none := by
    rw [h.monitor]
    exact (hl.clean hstop).dispatcher
  -- the list may still change; that calls nobody
  cases l with
  | monitor a =>
    obtain ⟨hstep, -, -, ht⟩ := monitor_label hs
    rw [h.monitor] at hstep
    have ha : a ≠ .start := fun ha => hlabel (by rw [ha])
    exact ⟨stopped_step hl hstop ha hstep, by rw [ht, h.outside], by rw [ht, h.invoked]⟩
  | callbacks a =>
    obtain ⟨hstep, ha, ht⟩ := callbacks_label hs
    obtain ⟨hout, hinv⟩ := outside_step h.outside ha hstep
    exact ⟨ht.trans h.monitor, hout, hinv.trans h.invoked⟩
  | forEachCallback ev =>
    have hnext : s.1.next = some t.1 := (Machine.product_step.mp hs).2.1
    obtain ⟨hd, -⟩ | ⟨ev', tempEvQueue, hd, -⟩ := State.next_cases hnext
    · exact nomatch hnone.symm.trans hd
    · exact nomatch hnone.symm.trans hd
  | handedBack =>
    have hback : s.1.handedBack = some t.1 := (Machine.product_step.mp hs).2.1
    obtain ⟨ev, tempEvQueue, hd, -⟩ := State.handedBack_cases hback
    exact nomatch hnone.symm.trans hd

/-- **No callback runs while the monitor is stopped.** A callback is only run with the event that
the dispatcher has in its hand, in `forEachCallback`; so where the monitor is stopped none is being
run, and whatever is added and removed, none is called before the next `Start`. -/
theorem stopped_monitor_calls_nothing (M : Nat)
    (s : State D × Callbacks.State F C (ProcEvent D)) (hs : (system F C D M).Reachable s) :
    (∀ ev i e, s.2.forEach = .inCallback ev i e →
      ∃ tempEvQueue, s.1.CallbackDispatchThread_ = some (.handing ev tempEvQueue)) ∧
    (s.1.Stopped → s.2.forEach = .outside ∧
      ∀ ls t, (system F C D M).runFrom s ls = some t → .monitor .start ∉ ls →
        t.2.invoked = s.2.invoked) := by
  have hcall : InCall s := hs.inv inCall_inductive
  have hl : Lifecycle s.1 := (reachable_monitor hs).inv lifecycle_inductive
  refine ⟨fun ev i e hf => hcall ev (by rw [hf]; rfl), fun hstop => ?_⟩
  have hout : s.2.forEach = .outside := by
    apply event_of_outside
    cases hev : s.2.forEach.event with
    | none => rfl
    | some ev =>
      obtain ⟨tempEvQueue, hd⟩ := hcall ev hev
      exact nomatch (hl.clean hstop).dispatcher.symm.trans hd
  refine ⟨hout, fun ls t hr hstart => ?_⟩
  have hok : ∀ l ∈ ls, l ≠ .monitor .start := by
    rintro l hmem rfl
    exact hstart hmem
  have hsilent : Silent s t :=
    Machine.runFrom_inv_of (fun h hlabel hstep => h.step hl hstop hlabel hstep) hok
      ⟨rfl, hout, rfl⟩ hr
  exact hsilent.invoked

/-- The second call of `forEachCallback` comes back, and `Stop` joins both threads and returns. -/
def stopBoth : List (Label Nat Nat Nat) :=
  [.handedBack, .monitor .next, .monitor .stop, .monitor (.unsubscribe true), .monitor .test,
    .monitor .joinRecv, .monitor .lock, .monitor .notify, .monitor .joinDispatcher,
    .monitor .close]

def bothStopped : State Nat × Callbacks.State Nat Nat (ProcEvent Nat) :=
  ({ bothHanded.1 with
     Started_ := false
     netlink_sock_ := false
     subscribed := false
     ProcEvProducerThread_ := none
     CallbackDispatchThread_ := none },
   bothHanded.2)

/-- Two events were handed on, three calls of callbacks made, and a callback is still in the list
when `Stop` has returned. -/
theorem stopped_monitor_calls_nothing_both :
    bothStopped.2.invoked.length = 3 ∧ bothStopped.2.ProcEv_Callbacks_ = [⟨2, some 9, 3⟩] ∧
      bothStopped.2.forEach = .outside ∧
      ∀ ls t, (system Nat Nat Nat 0).runFrom bothStopped ls = some t → .monitor .start ∉ ls →
        t.2.invoked = bothStopped.2.invoked := by
  have hrun : (system Nat Nat Nat 0).runFrom bothHanded stopBoth = some bothStopped := by decide
  have hhanded : (system Nat Nat Nat 0).run (twoAdded ++ dispatchBoth) = some bothHanded :=
    Machine.run_append.mpr ⟨oneQueued, by decide, by decide⟩
  have hreach : (system Nat Nat Nat 0).Reachable bothStopped :=
    ⟨_, Machine.run_append.mpr ⟨bothHanded, hhanded, hrun⟩⟩
  exact ⟨rfl, rfl, (stopped_monitor_calls_nothing 0 bothStopped hreach).2 ⟨rfl, rfl⟩⟩

end CppDone.Netlink
