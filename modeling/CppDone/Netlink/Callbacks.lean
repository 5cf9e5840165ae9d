import CppDone.Lib.Machine
import Mathlib.Algebra.Order.Ring.Nat

/-!
# The callbacks of `NetlinkProcMon`

`AddProcEvCallback`, `RemoveProcEvCallback` and `forEachCallback` as a machine. A call of the first
two is a record of its own, whichever thread makes it. The id is drawn before the lock is taken, so
between the two steps of an addition any other call may pass. The section under
`ProcEvCallbacksMutex_` of a call is one step; that of `forEachCallback` is not, since the
dispatcher keeps the mutex while it is inside a callback, and every position of its loop is a state
of its own.

A `std::mutex` that is held is not entered by anyone else: no call's section happens meanwhile.
What a callback does with the event and its context is left out.
-/

set_option autoImplicit false

namespace CppDone.Netlink.Callbacks

/-- `EventCallbackInfo`, with `none` for the empty `std::function`. -/
structure EventCallbackInfo (F C : Type) where
  id_ : Nat
  callback_ : Option F
  context_ : C
deriving DecidableEq, Repr

/-- Where a call of `AddProcEvCallback` is. The id that a call has drawn is its own from then on,
and not yet in the list. -/
inductive Adding where
  | generateId
  | lock (callbackId : Nat)
  | returned (callbackId : Nat)
deriving DecidableEq, Repr

/-- A call stays in the list of calls when it has returned. -/
inductive Call (F C : Type) where
  | add (eventCallback : Option F) (context : C) (pc : Adding)
  | remove (callbackId : Nat) (returned : Bool)
deriving DecidableEq, Repr

/-- Where the dispatcher is with `forEachCallback`. The event is a parameter of the call; the
element that is called was copied out of the list. -/
inductive ForEach (F C E : Type) where
  | outside
  | lock (ev : E)
  | loop (ev : E) (i : Nat)  -- holds the lock, about to look at element `i`
  | inCallback (ev : E) (i : Nat) (evElement : EventCallbackInfo F C)
deriving DecidableEq, Repr

/-- The generator, the list under the mutex, the calls, and the one `forEachCallback` that the
dispatcher may be in. -/
structure State (F C E : Type) where
  nextId_ : Nat
  ProcEv_Callbacks_ : List (EventCallbackInfo F C)
  calls : List (Call F C)
  forEach : ForEach F C E
  /-- The calls of callbacks made so far. -/
  invoked : List (E × EventCallbackInfo F C)
deriving DecidableEq, Repr

/-- Calls begin by whoever makes them and then go on by themselves; the rest are steps of the
dispatcher. -/
inductive Action (F C E : Type) where
  | callAdd (eventCallback : Option F) (context : C)
  | generateId (i : Nat)
  | emplaceBack (i : Nat)
  | callRemove (callbackId : Nat)
  | removeIf (i : Nat)
  | forEach (ev : E)
  | enter
  | next
  | calledBack
deriving DecidableEq, Repr

variable {F C E : Type}

/-- `ProcEvCallbacksMutex_` is held by the dispatcher. -/
def ForEach.holds : ForEach F C E → Bool
  | .loop _ _ | .inCallback _ _ _ => true
  | .outside | .lock _ => false

namespace State

def init : State F C E where
  nextId_ := 1
  ProcEv_Callbacks_ := []
  calls := []
  forEach := .outside
  invoked := []

variable (s : State F C E)

/-! ### `AddProcEvCallback`

Two steps, since the id is drawn without the lock. The drawing is atomic. -/

def callAdd (eventCallback : Option F) (context : C) : Option (State F C E) :=
  some { s with calls := s.calls ++ [.add eventCallback context .generateId] }

/-- `__sync_fetch_and_add(&nextId_, 1)` on a `uint64_t`. -/
def generateId (i : Nat) : Option (State F C E) :=
  match s.calls[i]? with
  | some (.add eventCallback context .generateId) =>
    some { s with nextId_ := (s.nextId_ + 1) % 2 ^ 64,
                  calls := s.calls.set i (.add eventCallback context (.lock s.nextId_)) }
  | _ => none

def emplaceBack (i : Nat) : Option (State F C E) :=
  match s.calls[i]? with
  | some (.add eventCallback context (.lock callbackId)) =>
    if s.forEach.holds then none
    else some { s with ProcEv_Callbacks_ :=
                         s.ProcEv_Callbacks_ ++ [⟨callbackId, eventCallback, context⟩],
                       calls := s.calls.set i
                         (.add eventCallback context (.returned callbackId)) }
  | _ => none

/-! ### `RemoveProcEvCallback`

One section; an id that is not there is no error. -/

def callRemove (callbackId : Nat) : Option (State F C E) :=
  some { s with calls := s.calls ++ [.remove callbackId false] }

def removeIf (i : Nat) : Option (State F C E) :=
  match s.calls[i]? with
  | some (.remove callbackId false) =>
    if s.forEach.holds then none
    else some { s with ProcEv_Callbacks_ :=
                         s.ProcEv_Callbacks_.filter fun info => !(info.id_ == callbackId),
                       calls := s.calls.set i (.remove callbackId true) }
  | _ => none

/-! ### `forEachCallback`

The loop over the list, under the mutex all along. Inside a callback the dispatcher is in code that
is not known here, and the mutex is still held. -/

def callForEach (ev : E) : Option (State F C E) :=
  match s.forEach with
  | .outside => some { s with forEach := .lock ev }
  | _ => none

def enter : Option (State F C E) :=
  match s.forEach with
  | .lock ev => some { s with forEach := .loop ev 0 }
  | _ => none

/-- The head of the loop. Behind the last element the lock is released. -/
def next : Option (State F C E) :=
  match s.forEach with
  | .loop ev i =>
    match s.ProcEv_Callbacks_[i]? with
    | none => some { s with forEach := .outside }
    | some evElement =>
      if evElement.callback_.isSome then
        some { s with forEach := .inCallback ev i evElement,
                      invoked := s.invoked ++ [(ev, evElement)] }
      else some { s with forEach := .loop ev (i + 1) }
  | _ => none

def calledBack : Option (State F C E) :=
  match s.forEach with
  | .inCallback ev i _ => some { s with forEach := .loop ev (i + 1) }
  | _ => none

def step : Action F C E → Option (State F C E)
  | .callAdd eventCallback context => s.callAdd eventCallback context
  | .generateId i => s.generateId i
  | .emplaceBack i => s.emplaceBack i
  | .callRemove callbackId => s.callRemove callbackId
  | .removeIf i => s.removeIf i
  | .forEach ev => s.callForEach ev
  | .enter => s.enter
  | .next => s.next
  | .calledBack => s.calledBack

end State

def callbacks (F C E : Type) : Machine (State F C E) (Action F C E) where
  init := .init
  step := fun s a => s.step a

/-! ## What each step does

As everywhere, the guard and the whole change. The dispatcher's own steps leave the list as it is.
-/

section Steps

variable {s s' : State F C E}

theorem State.generateId_cases {i : Nat} (h : s.generateId i = some s') :
    ∃ eventCallback context, s.calls[i]? = some (.add eventCallback context .generateId) ∧
      s' = { s with nextId_ := (s.nextId_ + 1) % 2 ^ 64,
                    calls := s.calls.set i (.add eventCallback context (.lock s.nextId_)) } := by
  unfold State.generateId at h
  split at h
  · next eventCallback context hc =>
    exact ⟨eventCallback, context, hc, (Option.some.inj h).symm⟩
  · cases h

theorem State.emplaceBack_cases {i : Nat} (h : s.emplaceBack i = some s') :
    ∃ eventCallback context callbackId,
      s.calls[i]? = some (.add eventCallback context (.lock callbackId)) ∧
      s.forEach.holds = false ∧
      s' = { s with ProcEv_Callbacks_ :=
                      s.ProcEv_Callbacks_ ++ [⟨callbackId, eventCallback, context⟩],
                    calls := s.calls.set i
                      (.add eventCallback context (.returned callbackId)) } := by
  unfold State.emplaceBack at h
  split at h
  · next eventCallback context callbackId hc =>
    split at h
    · cases h
    · next hfree =>
      exact ⟨eventCallback, context, callbackId, hc, Bool.eq_false_iff.mpr hfree,
        (Option.some.inj h).symm⟩
  · cases h

theorem State.removeIf_cases {i : Nat} (h : s.removeIf i = some s') :
    ∃ callbackId, s.calls[i]? = some (.remove callbackId false) ∧ s.forEach.holds = false ∧
      s' = { s with ProcEv_Callbacks_ :=
                      s.ProcEv_Callbacks_.filter fun info => !(info.id_ == callbackId),
                    calls := s.calls.set i (.remove callbackId true) } := by
  unfold State.removeIf at h
  split at h
  · next callbackId hc =>
    split at h
    · cases h
    · next hfree =>
      exact ⟨callbackId, hc, Bool.eq_false_iff.mpr hfree, (Option.some.inj h).symm⟩
  · cases h

theorem State.callForEach_cases {ev : E} (h : s.callForEach ev = some s') :
    s.forEach = .outside ∧ s' = { s with forEach := .lock ev } := by
  unfold State.callForEach at h
  split at h
  · next hf => exact ⟨hf, (Option.some.inj h).symm⟩
  · cases h

theorem State.enter_cases (h : s.enter = some s') :
    ∃ ev, s.forEach = .lock ev ∧ s' = { s with forEach := .loop ev 0 } := by
  unfold State.enter at h
  split at h
  · next ev hf => exact ⟨ev, hf, (Option.some.inj h).symm⟩
  · cases h

/-- The loop is over, an element is called, or an empty one is passed over. -/
theorem State.next_cases (h : s.next = some s') :
    ∃ ev i, s.forEach = .loop ev i ∧
      (s.ProcEv_Callbacks_[i]? = none ∧ s' = { s with forEach := .outside } ∨
        ∃ evElement, s.ProcEv_Callbacks_[i]? = some evElement ∧
          (evElement.callback_.isSome = true ∧
              s' = { s with forEach := .inCallback ev i evElement,
                            invoked := s.invoked ++ [(ev, evElement)] } ∨
            evElement.callback_.isSome = false ∧
              s' = { s with forEach := .loop ev (i + 1) })) := by
  unfold State.next at h
  split at h
  · next ev i hf =>
    refine ⟨ev, i, hf, ?_⟩
    split at h
    · next hnone => exact Or.inl ⟨hnone, (Option.some.inj h).symm⟩
    · next evElement hsome =>
      refine Or.inr ⟨evElement, hsome, ?_⟩
      split at h
      · next hcb => exact Or.inl ⟨hcb, (Option.some.inj h).symm⟩
      · next hcb => exact Or.inr ⟨Bool.eq_false_iff.mpr hcb, (Option.some.inj h).symm⟩
  · cases h

theorem State.calledBack_cases (h : s.calledBack = some s') :
    ∃ ev i evElement, s.forEach = .inCallback ev i evElement ∧
      s' = { s with forEach := .loop ev (i + 1) } := by
  unfold State.calledBack at h
  split at h
  · next ev i evElement hf => exact ⟨ev, i, evElement, hf, (Option.some.inj h).symm⟩
  · cases h

/-- Steps of the dispatcher. -/
def Action.dispatches : Action F C E → Bool
  | .forEach _ | .enter | .next | .calledBack => true
  | _ => false

/-- The dispatcher only reads the list. -/
theorem State.dispatch_frame {a : Action F C E} (ha : a.dispatches = true)
    (h : s.step a = some s') :
    s'.calls = s.calls ∧ s'.nextId_ = s.nextId_ ∧ s'.ProcEv_Callbacks_ = s.ProcEv_Callbacks_ := by
  cases a with
  | forEach ev =>
    obtain ⟨-, rfl⟩ := State.callForEach_cases h
    exact ⟨rfl, rfl, rfl⟩
  | enter =>
    obtain ⟨ev, -, rfl⟩ := State.enter_cases h
    exact ⟨rfl, rfl, rfl⟩
  | next =>
    obtain ⟨ev, i, -, ⟨-, rfl⟩ | ⟨evElement, -, ⟨-, rfl⟩ | ⟨-, rfl⟩⟩⟩ := State.next_cases h
    · exact ⟨rfl, rfl, rfl⟩
    · exact ⟨rfl, rfl, rfl⟩
    · exact ⟨rfl, rfl, rfl⟩
  | calledBack =>
    obtain ⟨ev, i, evElement, -, rfl⟩ := State.calledBack_cases h
    exact ⟨rfl, rfl, rfl⟩
  | _ => cases ha

end Steps

end CppDone.Netlink.Callbacks
