import CppDone.Netlink.Callbacks
import Mathlib.Algebra.Order.Ring.Nat

/-!
# Removing a callback

As long as the generator has not gone round, an id belongs to one addition: the ids drawn so far
are at most as many as the draws, and the next one is above them all. An entry of the list is the
doing of the addition that returned its id, and nobody else can put that id back, so a removed
entry stays away. That it is not being executed either is the lock's doing: the dispatcher keeps
the mutex while it is in a callback, and what it executes is in the list.

The other callbacks are not touched: an erasure keeps the order of the rest, and a `forEachCallback`
that began before it has the mutex until it is through.
-/

set_option autoImplicit false

namespace CppDone.Netlink.Callbacks

variable {F C E : Type} {s s' : State F C E}

/-- The id a call has drawn. -/
def Call.drawn : Call F C → Option Nat
  | .add _ _ (.lock callbackId) | .add _ _ (.returned callbackId) => some callbackId
  | .add _ _ .generateId | .remove _ _ => none

def Call.isAdd : Call F C → Bool
  | .add _ _ _ => true
  | .remove _ _ => false

/-- The calls of `AddProcEvCallback`. -/
def State.additions (s : State F C E) : Nat := s.calls.countP Call.isAdd

/-- How many ids have been drawn. -/
def State.draws (s : State F C E) : Nat := s.calls.countP fun c => c.drawn.isSome

def State.drawnAt (s : State F C E) (i : Nat) : Option Nat := s.calls[i]?.bind Call.drawn

/-- A call of `AddProcEvCallback` has returned the id. -/
def State.AddReturned (s : State F C E) (id : Nat) : Prop :=
  ∃ (i : Nat) (eventCallback : Option F) (context : C),
    s.calls[i]? = some (Call.add eventCallback context (.returned id))

/-- The dispatcher is inside the callback with the id. -/
def State.Executes (s : State F C E) (id : Nat) : Prop :=
  ∃ ev i evElement, s.forEach = .inCallback ev i evElement ∧ evElement.id_ = id

def State.ids (s : State F C E) : List Nat := s.ProcEv_Callbacks_.map EventCallbackInfo.id_

theorem State.draws_le_additions (s : State F C E) : s.draws ≤ s.additions := by
  refine List.countP_mono_left fun c _ hc => ?_
  cases c with
  | add eventCallback context pc => rfl
  | remove callbackId returned => cases hc

/-! ## How the calls move

An id is drawn once in a call and kept by it. So how many have been drawn is how many calls have got
that far. -/

/-- A call begins. -/
theorem drawnAt_append {c : Call F C} (h : s'.calls = s.calls ++ [c])
    (hc : c.drawn = none) (i : Nat) : s'.drawnAt i = s.drawnAt i := by
  unfold State.drawnAt
  rw [h, List.getElem?_append]
  split
  · rfl
  · next hi =>
    rw [List.getElem?_eq_none (Nat.le_of_not_lt hi), List.getElem?_singleton]
    split
    · exact hc
    · rfl

/-- A call goes on without drawing. -/
theorem drawnAt_set {c c' : Call F C} {i : Nat} (hi : s.calls[i]? = some c)
    (h : s'.calls = s.calls.set i c') (hc : c'.drawn = c.drawn) (j : Nat) :
    s'.drawnAt j = s.drawnAt j := by
  unfold State.drawnAt
  rw [h]
  by_cases hji : j = i
  · subst hji
    rw [List.getElem?_set_self (lt_length_of_getElem? hi), hi]
    exact hc
  · rw [List.getElem?_set_ne (Ne.symm hji)]

theorem draws_append {c : Call F C} (h : s'.calls = s.calls ++ [c]) (hc : c.drawn = none) :
    s'.draws = s.draws := by
  unfold State.draws
  rw [h, List.countP_append, List.countP_singleton, hc]
  rfl

theorem draws_set {c c' : Call F C} {i : Nat} (hi : s.calls[i]? = some c)
    (h : s'.calls = s.calls.set i c') (hc : c'.drawn = c.drawn) : s'.draws = s.draws := by
  have hcount := countP_set_add (p := fun c : Call F C => c.drawn.isSome) hi c'
  unfold State.draws
  rw [h]
  rw [hc] at hcount
  exact Nat.add_right_cancel hcount

theorem draws_generateId {i : Nat} (hs : s.generateId i = some s') :
    s'.draws = s.draws + 1 := by
  obtain ⟨eventCallback, context, hi, rfl⟩ := State.generateId_cases hs
  exact countP_set_add (p := fun c : Call F C => c.drawn.isSome) hi
    (.add eventCallback context (.lock s.nextId_))

/-- What a step does to the calls, as far as ids go. -/
theorem draws_step {a : Action F C E} (hs : s.step a = some s') :
    s'.draws = s.draws ∧ s'.nextId_ = s.nextId_ ∧ (∀ i, s'.drawnAt i = s.drawnAt i) ∨
      ∃ i, a = .generateId i := by
  -- a call that goes on keeps the id it has drawn
  cases a with
  | callAdd eventCallback context =>
    obtain rfl := (Option.some.inj hs).symm
    exact Or.inl ⟨draws_append rfl rfl, rfl, drawnAt_append rfl rfl⟩
  | generateId i => exact Or.inr ⟨i, rfl⟩
  | emplaceBack i =>
    obtain ⟨eventCallback, context, callbackId, hi, -, rfl⟩ := State.emplaceBack_cases hs
    exact Or.inl ⟨draws_set hi rfl rfl, rfl, drawnAt_set hi rfl rfl⟩
  | callRemove callbackId =>
    obtain rfl := (Option.some.inj hs).symm
    exact Or.inl ⟨draws_append rfl rfl, rfl, drawnAt_append rfl rfl⟩
  | removeIf i =>
    obtain ⟨callbackId, hi, -, rfl⟩ := State.removeIf_cases hs
    exact Or.inl ⟨draws_set hi rfl rfl, rfl, drawnAt_set hi rfl rfl⟩
  | forEach | enter | next | calledBack =>
    obtain ⟨hcalls, hnext, -⟩ := State.dispatch_frame rfl hs
    refine Or.inl ⟨?_, hnext, fun i => ?_⟩
    · unfold State.draws
      rw [hcalls]
    · unfold State.drawnAt
      rw [hcalls]

theorem draws_le_step {a : Action F C E} (hs : s.step a = some s') : s.draws ≤ s'.draws := by
  rcases draws_step hs with ⟨hd, -, -⟩ | ⟨i, rfl⟩
  · exact Nat.le_of_eq hd.symm
  · rw [draws_generateId hs]
    exact Nat.le_succ _

/-- An addition that has returned stays on record. -/
theorem returned_step {a : Action F C E} {k id : Nat} {eventCallback : Option F} {context : C}
    (hs : s.step a = some s')
    (h : s.calls[k]? = some (Call.add eventCallback context (.returned id))) :
    s'.calls[k]? = some (Call.add eventCallback context (.returned id)) := by
  cases a with
  | callAdd eventCallback' context' =>
    obtain rfl := (Option.some.inj hs).symm
    exact getElem?_snoc.mpr (Or.inl h)
  | generateId i =>
    obtain ⟨eventCallback', context', hi, rfl⟩ := State.generateId_cases hs
    exact getElem?_set_of_ne hi h nofun _
  | emplaceBack i =>
    obtain ⟨eventCallback', context', callbackId, hi, -, rfl⟩ := State.emplaceBack_cases hs
    exact getElem?_set_of_ne hi h nofun _
  | callRemove callbackId =>
    obtain rfl := (Option.some.inj hs).symm
    exact getElem?_snoc.mpr (Or.inl h)
  | removeIf i =>
    obtain ⟨callbackId, hi, -, rfl⟩ := State.removeIf_cases hs
    exact getElem?_set_of_ne hi h nofun _
  | forEach | enter | next | calledBack => rw [(State.dispatch_frame rfl hs).1, h]

theorem State.AddReturned.step {a : Action F C E} {id : Nat} (h : s.AddReturned id)
    (hs : s.step a = some s') : s'.AddReturned id := by
  obtain ⟨k, eventCallback, context, hk⟩ := h
  exact ⟨k, eventCallback, context, returned_step hs hk⟩

/-! ## The ids in the list

While the generator has not gone round, the ids drawn are different, and an entry of the list has
the id of the call that put it there. -/

/-- What the ids are, as long as the generator has not gone round. The third field says where an
entry comes from: there is no other way into the list than the end of an addition. -/
structure Registered (s : State F C E) : Prop where
  bounded : ∀ i id, s.drawnAt i = some id → id ≤ s.draws
  distinct : ∀ i j id, s.drawnAt i = some id → s.drawnAt j = some id → i = j
  entries : ∀ e ∈ s.ProcEv_Callbacks_, ∃ i : Nat,
    s.calls[i]? = some (.add e.callback_ e.context_ (.returned e.id_))
  nodup : s.ids.Nodup

/-- The generator, and the ids while they are new. The generator begins at one, and its value is
that of the next id. -/
structure Inv (s : State F C E) : Prop where
  next : s.nextId_ = (s.draws + 1) % 2 ^ 64
  registered : s.draws < 2 ^ 64 → Registered s

theorem State.drawnAt_eq {i : Nat} {c : Call F C} (hi : s.calls[i]? = some c) :
    s.drawnAt i = c.drawn := by
  unfold State.drawnAt
  rw [hi]
  rfl

/-- The addition that returned an id is the only one that drew it. -/
theorem Registered.not_returned (h : Registered s) {i id : Nat} {eventCallback : Option F}
    {context : C} (hi : s.calls[i]? = some (.add eventCallback context (.lock id))) :
    ¬ s.AddReturned id := by
  rintro ⟨j, eventCallback', context', hj⟩
  obtain rfl := h.distinct i j id (State.drawnAt_eq hi) (State.drawnAt_eq hj)
  rw [hi] at hj
  cases hj

theorem Registered.not_mem_ids (h : Registered s) {i id : Nat} {eventCallback : Option F}
    {context : C} (hi : s.calls[i]? = some (.add eventCallback context (.lock id))) :
    id ∉ s.ids := by
  intro hmem
  obtain ⟨e, he, rfl⟩ := List.mem_map.mp hmem
  obtain ⟨j, hj⟩ := h.entries e he
  exact h.not_returned hi ⟨j, _, _, hj⟩

/-- A step that draws nothing and adds nothing to the list. -/
theorem Registered.frame (h : Registered s) {a : Action F C E} (hs : s.step a = some s')
    (hd : s'.draws = s.draws) (hat : ∀ i, s'.drawnAt i = s.drawnAt i)
    (hsub : s'.ProcEv_Callbacks_.Sublist s.ProcEv_Callbacks_) : Registered s' where
  bounded i id hi := by
    rw [hat] at hi
    rw [hd]
    exact h.bounded i id hi
  distinct i j id hi hj := by
    rw [hat] at hi hj
    exact h.distinct i j id hi hj
  entries e he := by
    obtain ⟨i, hi⟩ := h.entries e (hsub.mem he)
    exact ⟨i, returned_step hs hi⟩
  nodup := h.nodup.sublist (hsub.map _)

/-- The id is new, since it is greater than all that were drawn. -/
theorem Registered.generateId (h : Registered s) {i : Nat} (hs : s.generateId i = some s')
    (hnew : s.nextId_ = s.draws + 1) : Registered s' := by
  have hd := draws_generateId hs
  have hstep : s.step (.generateId i) = some s' := hs
  obtain ⟨eventCallback, context, hi, rfl⟩ := State.generateId_cases hs
  -- the drawn id is new, all others are as before
  have hat : ∀ j id, State.drawnAt { s with
      nextId_ := (s.nextId_ + 1) % 2 ^ 64
      calls := s.calls.set i (.add eventCallback context (.lock s.nextId_)) } j = some id →
      j = i ∧ id = s.draws + 1 ∨ j ≠ i ∧ s.drawnAt j = some id ∧ id ≤ s.draws := by
    intro j id hj
    obtain ⟨c, hc, hdrawn⟩ := Option.bind_eq_some_iff.mp hj
    rcases getElem?_set_cases hc with ⟨rfl, rfl⟩ | ⟨hji, hc⟩
    · exact Or.inl ⟨rfl, (Option.some.inj hdrawn).symm.trans hnew⟩
    · have hold : s.drawnAt j = some id := Option.bind_eq_some_iff.mpr ⟨c, hc, hdrawn⟩
      exact Or.inr ⟨hji, hold, h.bounded j id hold⟩
  refine ⟨fun j id hj => ?_, fun j k id hj hk => ?_, fun e he => ?_, h.nodup⟩
  · rw [hd]
    rcases hat j id hj with ⟨-, rfl⟩ | ⟨-, -, hle⟩
    · exact Nat.le_refl _
    · exact Nat.le_succ_of_le hle
  · rcases hat j id hj with ⟨rfl, hid⟩ | ⟨-, hj, hle⟩ <;>
      rcases hat k id hk with ⟨rfl, hid'⟩ | ⟨-, hk, hle'⟩
    · rfl
    · omega
    · omega
    · exact h.distinct j k id hj hk
  · obtain ⟨k, hk⟩ := h.entries e he
    exact ⟨k, returned_step hstep hk⟩

/-- The entry comes into the list with the id that its call has drawn, and nobody else has drawn it.
-/
theorem Registered.emplaceBack (h : Registered s) {i : Nat} (hs : s.emplaceBack i = some s') :
    Registered s' := by
  have hstep : s.step (.emplaceBack i) = some s' := hs
  obtain ⟨hd, -, hat⟩ | ⟨j, hj⟩ := draws_step hstep
  -- an `emplaceBack` draws nothing
  swap
  · cases hj
  obtain ⟨eventCallback, context, callbackId, hi, -, rfl⟩ := State.emplaceBack_cases hs
  refine ⟨fun j id hj => ?_, fun j k id hj hk => ?_, fun e he => ?_, ?_⟩
  · rw [hat] at hj
    rw [hd]
    exact h.bounded j id hj
  · rw [hat] at hj hk
    exact h.distinct j k id hj hk
  · rcases List.mem_append.mp he with he | he
    · obtain ⟨k, hk⟩ := h.entries e he
      exact ⟨k, returned_step hstep hk⟩
    · rw [List.mem_singleton.mp he]
      exact ⟨i, List.getElem?_set_self (lt_length_of_getElem? hi)⟩
  · show (List.map _ (s.ProcEv_Callbacks_ ++ [_])).Nodup
    rw [List.map_append, List.map_singleton]
    refine List.nodup_append.mpr ⟨h.nodup, List.pairwise_singleton _ _, ?_⟩
    -- an id is put in by the call that drew it, which has not done so before
    rintro id hid _ hnew rfl
    rw [List.mem_singleton.mp hnew] at hid
    exact h.not_mem_ids hi hid

/-! ### As long as the generator has not gone round

The ids are numbers of 64 bits. What is said of them holds for the first 2^64 additions, and the
invariant carries this along. -/

theorem inv_init : Inv (State.init : State F C E) where
  next := rfl
  registered _ :=
    { bounded := fun _ _ h => (by cases h)
      distinct := fun _ _ _ h => (by cases h)
      entries := fun _ h => (by cases h)
      nodup := List.nodup_nil }

/-- As long as fewer than 2^64 ids were drawn the generator has not gone round. -/
theorem Inv.step {a : Action F C E} (h : Inv s) (hs : s.step a = some s') : Inv s' := by
  rcases draws_step hs with ⟨hd, hnext, hat⟩ | ⟨i, rfl⟩
  · refine ⟨?_, fun hfew => ?_⟩
    · rw [hnext, hd]
      exact h.next
    · have hreg := h.registered (hd ▸ hfew)
      -- the list grows only by `emplaceBack`
      cases a with
      | callAdd eventCallback context =>
        obtain rfl := (Option.some.inj hs).symm
        exact hreg.frame hs hd hat (List.Sublist.refl _)
      | generateId i =>
        rw [draws_generateId hs] at hd
        omega
      | emplaceBack i => exact hreg.emplaceBack hs
      | callRemove callbackId =>
        obtain rfl := (Option.some.inj hs).symm
        exact hreg.frame hs hd hat (List.Sublist.refl _)
      | removeIf i =>
        obtain ⟨callbackId, hi, -, rfl⟩ := State.removeIf_cases hs
        exact hreg.frame hs hd hat List.filter_sublist
      | forEach | enter | next | calledBack =>
        have hlist := (State.dispatch_frame rfl hs).2.2
        exact hreg.frame hs hd hat (hlist ▸ List.Sublist.refl _)
  · have hd := draws_generateId hs
    have hgen : s'.nextId_ = (s.nextId_ + 1) % 2 ^ 64 := by
      obtain ⟨eventCallback, context, -, rfl⟩ := State.generateId_cases hs
      rfl
    refine ⟨?_, fun hfew => ?_⟩
    · rw [hgen, hd, h.next, Nat.mod_add_mod]
    · rw [hd] at hfew
      refine (h.registered (Nat.lt_of_succ_lt hfew)).generateId hs ?_
      rw [h.next, Nat.mod_eq_of_lt hfew]

theorem inv_inductive : (callbacks F C E).Inductive Inv where
  init := inv_init
  step h hs := h.step hs

theorem registered_of_additions (h : (callbacks F C E).Reachable s)
    (hfew : s.additions < 2 ^ 64) : Registered s :=
  (h.inv inv_inductive).registered (Nat.lt_of_le_of_lt s.draws_le_additions hfew)

/-! ## Removal

A removal that has returned has left no entry with its id, and no later addition can bring one: the
id is drawn already. -/

/-- What `remove_if` leaves: all of the list, or the list without the entry whose addition
returned the id. -/
def RemovesOnly (id : Nat) (s s' : State F C E) : Prop :=
  id ∉ s.ids ∧ s'.ProcEv_Callbacks_ = s.ProcEv_Callbacks_ ∨
    ∃ xs e ys, s.ProcEv_Callbacks_ = xs ++ e :: ys ∧ s'.ProcEv_Callbacks_ = xs ++ ys ∧
      e.id_ = id ∧ ∃ i : Nat, s.calls[i]? = some (.add e.callback_ e.context_ (.returned id))

theorem filter_ne_of_not_mem {l : List (EventCallbackInfo F C)} {id : Nat}
    (h : id ∉ l.map EventCallbackInfo.id_) : l.filter (fun info => !(info.id_ == id)) = l := by
  refine List.filter_eq_self.mpr fun e he => ?_
  have hne : e.id_ ≠ id := fun heq => h (List.mem_map.mpr ⟨e, he, heq⟩)
  rw [beq_false_of_ne hne]
  rfl

/-- The ids in the list are distinct, so `remove_if` finds one entry at most. -/
theorem Registered.removesOnly (h : Registered s) {i id : Nat}
    (hi : s.calls[i]? = some (.remove id false)) (hs : s.removeIf i = some s') :
    RemovesOnly id s s' := by
  obtain ⟨callbackId, hi', -, rfl⟩ := State.removeIf_cases hs
  obtain rfl : callbackId = id := by
    rw [hi] at hi'
    cases hi'
    rfl
  by_cases hmem : callbackId ∈ s.ids
  · obtain ⟨e, he, rfl⟩ := List.mem_map.mp hmem
    obtain ⟨xs, ys, hsplit⟩ := List.append_of_mem he
    have hnodup := h.nodup
    unfold State.ids at hnodup
    rw [hsplit, List.map_append, List.map_cons, List.nodup_append, List.nodup_cons] at hnodup
    obtain ⟨-, ⟨hys, -⟩, hdisj⟩ := hnodup
    have hxs : e.id_ ∉ xs.map EventCallbackInfo.id_ :=
      fun hx => hdisj e.id_ hx e.id_ List.mem_cons_self rfl
    refine Or.inr ⟨xs, e, ys, hsplit, ?_, rfl, h.entries e he⟩
    dsimp only
    rw [hsplit, List.filter_append, List.filter_cons_of_neg (by simp), filter_ne_of_not_mem hxs,
      filter_ne_of_not_mem hys]
  · exact Or.inl ⟨hmem, filter_ne_of_not_mem hmem⟩

/-- A removal on record: the id was returned before, and once the removal has returned no entry has
it. Until it returns, the entry may be there or not. -/
structure Removing (id j : Nat) (s : State F C E) : Prop where
  added : s.AddReturned id
  gone : ∃ returned, s.calls[j]? = some (.remove id returned) ∧
    (returned = true → id ∉ s.ids)

/-- The ids that a step brings into the list were not in it and belong to no addition that has
returned. -/
theorem Registered.ids_step (h : Registered s) {a : Action F C E} (hs : s.step a = some s')
    {id : Nat} (hadd : s.AddReturned id) (hid : id ∉ s.ids) : id ∉ s'.ids := by
  cases a with
  | callAdd eventCallback context => obtain rfl := (Option.some.inj hs).symm; exact hid
  | generateId i =>
    obtain ⟨eventCallback, context, -, rfl⟩ := State.generateId_cases hs
    exact hid
  | emplaceBack i =>
    obtain ⟨eventCallback, context, callbackId, hi, -, rfl⟩ := State.emplaceBack_cases hs
    intro hmem
    rw [State.ids, List.map_append, List.mem_append] at hmem
    rcases hmem with hmem | hmem
    · exact hid hmem
    · -- the addition that inserts the id would be the one that has returned it
      obtain rfl : id = callbackId := List.mem_singleton.mp hmem
      exact h.not_returned hi hadd
  | callRemove callbackId => obtain rfl := (Option.some.inj hs).symm; exact hid
  | removeIf i =>
    obtain ⟨callbackId, -, -, rfl⟩ := State.removeIf_cases hs
    exact fun hmem => hid ((List.filter_sublist.map _).mem hmem)
  | forEach | enter | next | calledBack =>
    unfold State.ids at hid ⊢
    rw [(State.dispatch_frame rfl hs).2.2]
    exact hid

/-- A removal that has been called is under way, or it was this step that carried it out. -/
theorem removing_step {a : Action F C E} {j id : Nat} {returned : Bool}
    (hs : s.step a = some s') (h : s.calls[j]? = some (.remove id returned)) :
    s'.calls[j]? = some (.remove id returned) ∨
      returned = false ∧ s'.calls[j]? = some (.remove id true) ∧ id ∉ s'.ids := by
  -- only its own section makes a removal return
  cases a with
  | callAdd eventCallback context =>
    obtain rfl := (Option.some.inj hs).symm
    exact Or.inl (getElem?_snoc.mpr (Or.inl h))
  | generateId i =>
    obtain ⟨eventCallback, context, hi, rfl⟩ := State.generateId_cases hs
    exact Or.inl (getElem?_set_of_ne hi h nofun _)
  | emplaceBack i =>
    obtain ⟨eventCallback, context, callbackId, hi, -, rfl⟩ := State.emplaceBack_cases hs
    exact Or.inl (getElem?_set_of_ne hi h nofun _)
  | callRemove callbackId =>
    obtain rfl := (Option.some.inj hs).symm
    exact Or.inl (getElem?_snoc.mpr (Or.inl h))
  | removeIf i =>
    obtain ⟨callbackId, hi, -, rfl⟩ := State.removeIf_cases hs
    by_cases hij : i = j
    · subst hij
      rw [hi] at h
      cases h
      refine Or.inr ⟨rfl, List.getElem?_set_self (lt_length_of_getElem? hi), fun hmem => ?_⟩
      -- what `erase` has left is not the id
      obtain ⟨e, he, heq⟩ := List.mem_map.mp hmem
      have hkept := (List.mem_filter.mp he).2
      rw [heq, beq_self_eq_true] at hkept
      cases hkept
    · refine Or.inl ?_
      dsimp only
      rw [List.getElem?_set_ne hij, h]
  | forEach | enter | next | calledBack =>
    left
    rw [(State.dispatch_frame rfl hs).1, h]

theorem Registered.removing (h : Registered s) {a : Action F C E} (hs : s.step a = some s')
    {id j : Nat} (hr : Removing id j s) : Removing id j s' := by
  obtain ⟨returned, hj, hgone⟩ := hr.gone
  refine ⟨hr.added.step hs, ?_⟩
  rcases removing_step hs hj with hj' | ⟨-, hj', hid⟩
  · exact ⟨returned, hj', fun hret => h.ids_step hs hr.added (hgone hret)⟩
  · exact ⟨true, hj', fun _ => hid⟩

theorem draws_le_runFrom {as : List (Action F C E)}
    (hr : (callbacks F C E).runFrom s as = some s') : s.draws ≤ s'.draws := by
  refine Machine.runFrom_inv (I := fun u => s.draws ≤ u.draws) ?_ (Nat.le_refl _) hr
  exact fun hle hs => Nat.le_trans hle (draws_le_step hs)

/-- What every step keeps while the ids are new holds at the end of a run with few additions. -/
theorem Inv.runFrom {G : State F C E → Prop}
    (hstep : ∀ {u a u'}, Registered u → G u → u.step a = some u' → G u')
    {as : List (Action F C E)} (h : Inv s) (hs : G s)
    (hr : (callbacks F C E).runFrom s as = some s') (hfew : s'.draws < 2 ^ 64) : G s' := by
  have hI : Inv s' ∧ (s'.draws < 2 ^ 64 → G s') := by
    refine Machine.runFrom_inv (I := fun u => Inv u ∧ (u.draws < 2 ^ 64 → G u)) ?_
      ⟨h, fun _ => hs⟩ hr
    rintro u a u' ⟨hu, hG⟩ hua
    refine ⟨hu.step hua, fun hlt => ?_⟩
    have hlt' := Nat.lt_of_le_of_lt (draws_le_step hua) hlt
    exact hstep (hu.registered hlt') (hG hlt') hua
  exact hI.2 hfew

/-! ## The callbacks that run

What runs is in the list, since the dispatcher keeps the mutex. So what is no longer in the list
does not run. -/

/-- Where the dispatcher is inside a callback, it holds the lock and the entry is in the list. -/
def Held (s : State F C E) : Prop :=
  ∀ ev i evElement, s.forEach = .inCallback ev i evElement →
    s.ProcEv_Callbacks_[i]? = some evElement

theorem Held.of_free (h : s.forEach.holds = false) : Held s := by
  intro ev i evElement hf
  rw [hf] at h
  cases h

/-- Nobody changes the list while the dispatcher has the lock. -/
theorem Held.step {a : Action F C E} (h : Held s) (hs : s.step a = some s') : Held s' := by
  -- who changes the list has the mutex, so nobody is in a callback; who is in one has the mutex
  cases a with
  | callAdd eventCallback context => obtain rfl := (Option.some.inj hs).symm; exact h
  | generateId i =>
    obtain ⟨eventCallback, context, -, rfl⟩ := State.generateId_cases hs
    exact h
  | emplaceBack i =>
    obtain ⟨eventCallback, context, callbackId, -, hfree, rfl⟩ := State.emplaceBack_cases hs
    exact Held.of_free hfree
  | callRemove callbackId => obtain rfl := (Option.some.inj hs).symm; exact h
  | removeIf i =>
    obtain ⟨callbackId, -, hfree, rfl⟩ := State.removeIf_cases hs
    exact Held.of_free hfree
  | forEach ev =>
    obtain ⟨-, rfl⟩ := State.callForEach_cases hs
    exact Held.of_free rfl
  | enter =>
    obtain ⟨ev, -, rfl⟩ := State.enter_cases hs
    intro _ _ _ hf
    cases hf
  | next =>
    obtain ⟨ev, i, -, ⟨-, rfl⟩ | ⟨evElement, hi, ⟨-, rfl⟩ | ⟨-, rfl⟩⟩⟩ := State.next_cases hs
    · exact Held.of_free rfl
    · intro _ _ _ hf
      cases hf
      exact hi
    · intro _ _ _ hf
      cases hf
  | calledBack =>
    obtain ⟨ev, i, evElement, -, rfl⟩ := State.calledBack_cases hs
    intro _ _ _ hf
    cases hf

theorem held_inductive : (callbacks F C E).Inductive Held where
  init := Held.of_free rfl
  step h hs := h.step hs

theorem Held.not_executes (h : Held s) {id : Nat} (hid : id ∉ s.ids) : ¬ s.Executes id := by
  rintro ⟨ev, i, evElement, hf, rfl⟩
  exact hid (List.mem_map.mpr ⟨evElement, List.mem_of_getElem? (h ev i evElement hf), rfl⟩)

/-- Since `s₀` no callback with the id was called, and there is none. That the addition has returned
is what keeps the id from coming again. -/
structure Gone (id : Nat) (s₀ s : State F C E) : Prop where
  added : s.AddReturned id
  absent : id ∉ s.ids
  quiet : ∃ new, s.invoked = s₀.invoked ++ new ∧ ∀ p ∈ new, p.2.id_ ≠ id

/-- Only the loop calls, and it calls what it finds in the list. -/
theorem invoked_step {a : Action F C E} (hs : s.step a = some s') :
    s'.invoked = s.invoked ∨
      ∃ ev e, e ∈ s.ProcEv_Callbacks_ ∧ s'.invoked = s.invoked ++ [(ev, e)] := by
  -- a null callback is passed over, and the others are called in `next`
  cases a with
  | callAdd eventCallback context => obtain rfl := (Option.some.inj hs).symm; exact Or.inl rfl
  | generateId i =>
    obtain ⟨eventCallback, context, -, rfl⟩ := State.generateId_cases hs
    exact Or.inl rfl
  | emplaceBack i =>
    obtain ⟨eventCallback, context, callbackId, -, -, rfl⟩ := State.emplaceBack_cases hs
    exact Or.inl rfl
  | callRemove callbackId => obtain rfl := (Option.some.inj hs).symm; exact Or.inl rfl
  | removeIf i =>
    obtain ⟨callbackId, -, -, rfl⟩ := State.removeIf_cases hs
    exact Or.inl rfl
  | forEach ev =>
    obtain ⟨-, rfl⟩ := State.callForEach_cases hs
    exact Or.inl rfl
  | enter =>
    obtain ⟨ev, -, rfl⟩ := State.enter_cases hs
    exact Or.inl rfl
  | next =>
    obtain ⟨ev, i, -, ⟨-, rfl⟩ | ⟨evElement, hi, ⟨-, rfl⟩ | ⟨-, rfl⟩⟩⟩ := State.next_cases hs
    · exact Or.inl rfl
    · exact Or.inr ⟨ev, evElement, List.mem_of_getElem? hi, rfl⟩
    · exact Or.inl rfl
  | calledBack =>
    obtain ⟨ev, i, evElement, -, rfl⟩ := State.calledBack_cases hs
    exact Or.inl rfl

/-- The id is not drawn again, so no entry with it can come. -/
theorem Registered.gone (h : Registered s) {a : Action F C E} (hs : s.step a = some s') {id : Nat}
    {s₀ : State F C E} (hg : Gone id s₀ s) : Gone id s₀ s' := by
  refine ⟨hg.added.step hs, h.ids_step hs hg.added hg.absent, ?_⟩
  obtain ⟨new, hnew, hquiet⟩ := hg.quiet
  rcases invoked_step hs with hsame | ⟨ev, e, he, hcall⟩
  · exact ⟨new, hsame.trans hnew, hquiet⟩
  · refine ⟨new ++ [(ev, e)], by rw [hcall, hnew, List.append_assoc], fun p hp => ?_⟩
    rcases List.mem_append.mp hp with hp | hp
    · exact hquiet p hp
    · rw [List.mem_singleton.mp hp]
      rintro rfl
      exact hg.absent (List.mem_map.mpr ⟨e, he, rfl⟩)

/-! ## One `forEachCallback`

From its entry to its return the list is the same, and the loop goes through it once from the front.
-/

/-- What a `forEachCallback` calls of a list. -/
def seen (ev : E) (l : List (EventCallbackInfo F C)) : List (E × EventCallbackInfo F C) :=
  (l.filter fun info => info.callback_.isSome).map (ev, ·)

/-- How far a `forEachCallback` is, begun when `s₀.invoked` had been called. -/
def Position (ev : E) (s₀ s : State F C E) : Prop :=
  s.forEach = .lock ev ∧ s.invoked = s₀.invoked ∨
    (∃ i, s.forEach = .loop ev i ∧
      s.invoked = s₀.invoked ++ seen ev (s.ProcEv_Callbacks_.take i)) ∨
    ∃ i e, s.forEach = .inCallback ev i e ∧
      s.invoked = s₀.invoked ++ seen ev (s.ProcEv_Callbacks_.take (i + 1))

theorem seen_take_succ {ev : E} {l : List (EventCallbackInfo F C)} {i : Nat}
    {e : EventCallbackInfo F C} (hi : l[i]? = some e) :
    seen ev (l.take (i + 1)) =
      seen ev (l.take i) ++ if e.callback_.isSome then [(ev, e)] else [] := by
  unfold seen
  rw [List.take_add_one, hi, List.filter_append, List.map_append]
  cases he : e.callback_.isSome with
  | true => simp [he]
  | false => simp [he]

/-- While the lock is held, no section of a call happens. -/
theorem Position.of_free {ev : E} {s₀ : State F C E} (h : Position ev s₀ s)
    (hfree : s.forEach.holds = false) : s.forEach = .lock ev ∧ s.invoked = s₀.invoked := by
  rcases h with h | ⟨i, hf, -⟩ | ⟨i, e, hf, -⟩
  · exact h
  · rw [hf] at hfree
    cases hfree
  · rw [hf] at hfree
    cases hfree

/-- The loop over the list goes on by one entry. As the list stays the same under the lock, what was
called is what is in front of the index. -/
theorem Position.step {ev : E} {s₀ : State F C E} {a : Action F C E} (h : Position ev s₀ s)
    (hs : s.step a = some s') (hin : s'.forEach ≠ .outside) : Position ev s₀ s' := by
  -- the list does not change while the loop is in it, so its index says what it has called
  cases a with
  | callAdd eventCallback context => obtain rfl := (Option.some.inj hs).symm; exact h
  | generateId i =>
    obtain ⟨eventCallback, context, -, rfl⟩ := State.generateId_cases hs
    exact h
  | emplaceBack i =>
    obtain ⟨eventCallback, context, callbackId, -, hfree, rfl⟩ := State.emplaceBack_cases hs
    exact Or.inl (h.of_free hfree)
  | callRemove callbackId => obtain rfl := (Option.some.inj hs).symm; exact h
  | removeIf i =>
    obtain ⟨callbackId, -, hfree, rfl⟩ := State.removeIf_cases hs
    exact Or.inl (h.of_free hfree)
  | forEach ev' =>
    obtain ⟨hout, rfl⟩ := State.callForEach_cases hs
    -- the loop has not been left, so this is not a second call
    obtain ⟨hf, -⟩ := h.of_free (hout ▸ rfl)
    rw [hout] at hf
    cases hf
  | enter =>
    obtain ⟨ev', hf, rfl⟩ := State.enter_cases hs
    obtain ⟨hf', hinv⟩ := h.of_free (hf ▸ rfl)
    rw [hf] at hf'
    cases hf'
    -- at the front, with nothing called yet
    exact Or.inr (Or.inl ⟨0, rfl, hinv.trans (List.append_nil _).symm⟩)
  | next =>
    obtain ⟨ev', i, hf, hcases⟩ := State.next_cases hs
    obtain ⟨hf', -⟩ | ⟨i', hf', hinv⟩ | ⟨i', e', hf', -⟩ := h <;> rw [hf] at hf' <;> cases hf'
    obtain ⟨-, rfl⟩ | ⟨e, hi, ⟨hcb, rfl⟩ | ⟨hcb, rfl⟩⟩ := hcases
    · exact absurd rfl hin
    -- called: into the callback
    · refine Or.inr (Or.inr ⟨i, e, rfl, ?_⟩)
      dsimp only
      rw [hinv, seen_take_succ hi, hcb, if_pos rfl, List.append_assoc]
    -- null: on to the next one
    · refine Or.inr (Or.inl ⟨i + 1, rfl, ?_⟩)
      dsimp only
      rw [hinv, seen_take_succ hi, hcb, if_neg nofun, List.append_nil]
  | calledBack =>
    obtain ⟨ev', i, e, hf, rfl⟩ := State.calledBack_cases hs
    obtain ⟨hf', -⟩ | ⟨i', hf', -⟩ | ⟨i', e', hf', hinv⟩ := h <;> rw [hf] at hf' <;> cases hf'
    exact Or.inr (Or.inl ⟨i + 1, rfl, hinv⟩)

/-- A `forEachCallback` that returns has called what is in the list, once and in order. -/
theorem Position.returned {ev : E} {s₀ : State F C E} (h : Position ev s₀ s)
    (hs : s.next = some s') (hout : s'.forEach = .outside) :
    s'.invoked = s₀.invoked ++ seen ev s.ProcEv_Callbacks_ := by
  obtain ⟨ev', i, hf, hcases⟩ := State.next_cases hs
  obtain ⟨hf', -⟩ | ⟨i', hf', hinv⟩ | ⟨i', e', hf', -⟩ := h <;> rw [hf] at hf' <;> cases hf'
  obtain ⟨hnone, rfl⟩ | ⟨e, -, ⟨-, rfl⟩ | ⟨-, rfl⟩⟩ := hcases
  · rw [List.take_of_length_le (List.getElem?_eq_none_iff.mp hnone)] at hinv
    exact hinv
  · cases hout
  · cases hout

/-- In a list without two equal ids, an entry that is there is seen once. -/
theorem filter_seen {ev : E} {l : List (EventCallbackInfo F C)} {e : EventCallbackInfo F C}
    (hnodup : (l.map EventCallbackInfo.id_).Nodup) (he : e ∈ l)
    (hcb : e.callback_.isSome = true) :
    (seen ev l).filter (fun p => p.2.id_ == e.id_) = [(ev, e)] := by
  obtain ⟨xs, ys, rfl⟩ := List.append_of_mem he
  rw [List.map_append, List.map_cons, List.nodup_append, List.nodup_cons] at hnodup
  obtain ⟨-, ⟨hys, -⟩, hdisj⟩ := hnodup
  have hother : ∀ zs : List (EventCallbackInfo F C), e.id_ ∉ zs.map EventCallbackInfo.id_ →
      (seen ev zs).filter (fun p => p.2.id_ == e.id_) = [] := by
    intro zs hzs
    refine List.filter_eq_nil_iff.mpr fun p hp heq => ?_
    obtain ⟨z, hz, rfl⟩ := List.mem_map.mp hp
    exact hzs (List.mem_map.mpr ⟨z, (List.mem_filter.mp hz).1, beq_iff_eq.mp heq⟩)
  have hxs : e.id_ ∉ xs.map EventCallbackInfo.id_ :=
    fun hx => hdisj e.id_ hx e.id_ List.mem_cons_self rfl
  have hsplit : seen ev (xs ++ e :: ys) = seen ev xs ++ (ev, e) :: seen ev ys := by
    simp [seen, hcb]
  rw [hsplit, List.filter_append, hother xs hxs]
  simp [hother ys hys]

/-- **A removed callback is never run again.** In a run with fewer than `2 ^ 64` additions the ids
in the list are distinct, and a removal takes out the entry whose addition returned the id and
nothing else. Once a removal that was called for a returned id has itself returned, that callback
is not being executed and no continuation calls it. A callback that is there during the whole of
a `forEachCallback` is called once for its event. -/
theorem callbacks_removed (s : State F C E) (h : (callbacks F C E).Reachable s)
    (hfew : s.additions < 2 ^ 64) :
    s.ids.Nodup ∧
    (∀ i id s', s.calls[i]? = some (.remove id false) → s.step (.removeIf i) = some s' →
      RemovesOnly id s s') ∧
    (∀ s₀ s₁ s₂ id mid post, (callbacks F C E).Reachable s₀ → s₀.AddReturned id →
      s₀.step (.callRemove id) = some s₁ → (callbacks F C E).runFrom s₁ mid = some s₂ →
      s₂.calls[s₀.calls.length]? = some (.remove id true) →
      (callbacks F C E).runFrom s₂ post = some s →
      ¬ s.Executes id ∧ ∃ new, s.invoked = s₂.invoked ++ new ∧ ∀ p ∈ new, p.2.id_ ≠ id) ∧
    ∀ s₀ s₁ s₂ ev e mid, (callbacks F C E).Reachable s₀ → s₀.step (.forEach ev) = some s₁ →
      (callbacks F C E).runFrom s₁ mid = some s₂ →
      (callbacks F C E).Throughout (fun u => u.forEach ≠ .outside) s₁ mid →
      s₂.step .next = some s → s.forEach = .outside →
      (callbacks F C E).Throughout (fun u => e ∈ u.ProcEv_Callbacks_) s₁ mid →
      e.callback_.isSome = true →
      ∃ new, s.invoked = s₀.invoked ++ new ∧
        new.filter (fun p => p.2.id_ == e.id_) = [(ev, e)] := by
  have hreg := registered_of_additions h hfew
  refine ⟨hreg.nodup, fun i id s' hi hs => hreg.removesOnly hi hs, ?_, ?_⟩
  -- the id was drawn by the addition that has returned, so it is not drawn again
  · intro s₀ s₁ s₂ id mid post h₀ hadd h₁ h₂ hret hpost
    have hr₁ : (callbacks F C E).Reachable s₁ :=
      h₀.step (show (callbacks F C E).step s₀ (.callRemove id) = some s₁ from h₁)
    have hbegun : Removing id s₀.calls.length s₁ := by
      refine ⟨hadd.step h₁, false, ?_, nofun⟩
      obtain rfl := (Option.some.inj h₁).symm
      exact getElem?_snoc.mpr (Or.inr ⟨rfl, rfl⟩)
    have hdraws := Nat.lt_of_le_of_lt s.draws_le_additions hfew
    -- until the removal returns the id may be there; at its return it is not
    have hremoved : Removing id s₀.calls.length s₂ :=
      Inv.runFrom (fun hu hG hstep => hu.removing hstep hG) (hr₁.inv inv_inductive) hbegun h₂
        (Nat.lt_of_le_of_lt (draws_le_runFrom hpost) hdraws)
    have habsent : id ∉ s₂.ids := by
      obtain ⟨returned, hj, hgone⟩ := hremoved.gone
      rw [hret] at hj
      cases hj
      exact hgone rfl
    -- and from there on it does not come back
    have hgone : Gone id s₂ s :=
      Inv.runFrom (fun hu hG hstep => hu.gone hstep hG) ((hr₁.runFrom h₂).inv inv_inductive)
        ⟨hremoved.added, habsent, [], (List.append_nil _).symm, nofun⟩ hpost hdraws
    exact ⟨(h.inv held_inductive).not_executes hgone.absent, hgone.quiet⟩
  -- one call of `forEachCallback`, from its entry to its return
  · intro s₀ s₁ s₂ ev e mid h₀ h₁ h₂ hin hs hout hthere hcb
    have hstart : Position ev s₀ s₁ := by
      obtain ⟨-, rfl⟩ := State.callForEach_cases h₁
      exact Or.inl ⟨rfl, rfl⟩
    have hpos : Position ev s₀ s₂ :=
      hin.inv (fun hp _ hin' hstep => hp.step hstep hin') hstart h₂
    refine ⟨_, hpos.returned hs hout, ?_⟩
    have hids : s.ProcEv_Callbacks_ = s₂.ProcEv_Callbacks_ := (State.dispatch_frame rfl hs).2.2
    have hnodup := hreg.nodup
    unfold State.ids at hnodup
    rw [hids] at hnodup
    exact filter_seen hnodup (hthere.last h₂) hcb

/-- Three additions, the second call of them last to draw its id. -/
def added : State Nat Nat Nat where
  nextId_ := 4
  ProcEv_Callbacks_ := [⟨1, some 7, 1⟩, ⟨2, some 9, 3⟩, ⟨3, none, 2⟩]
  calls := [.add (some 7) 1 (.returned 1), .add none 2 (.returned 3), .add (some 9) 3 (.returned 2)]
  forEach := .outside
  invoked := []

/-- The first callback is removed, and the removal of the other one has begun. -/
def removed : State Nat Nat Nat :=
  { added with ProcEv_Callbacks_ := [⟨2, some 9, 3⟩, ⟨3, none, 2⟩],
               calls := added.calls ++ [.remove 1 true, .remove 2 false] }

theorem callbacks_removed_first :
    let dispatched : State Nat Nat Nat := { removed with invoked := [(5, ⟨2, some 9, 3⟩)] }
    dispatched.ids.Nodup ∧ RemovesOnly 2 dispatched
      { dispatched with ProcEv_Callbacks_ := [⟨3, none, 2⟩],
                        calls := added.calls ++ [.remove 1 true, .remove 2 true] } ∧
      ¬ dispatched.Executes 1 ∧
      dispatched.invoked.filter (fun p => p.2.id_ == 2) = [(5, ⟨2, some 9, 3⟩)] := by
  intro dispatched
  have hadded : (callbacks Nat Nat Nat).Reachable added :=
    ⟨[.callAdd (some 7) 1, .generateId 0, .emplaceBack 0, .callAdd none 2, .callAdd (some 9) 3,
      .generateId 2, .emplaceBack 2, .generateId 1, .emplaceBack 1], by decide⟩
  have hremove : (callbacks Nat Nat Nat).runFrom added
      [.callRemove 1, .removeIf 3, .callRemove 2] = some removed := rfl
  have hdispatch : (callbacks Nat Nat Nat).runFrom removed
      [.forEach 5, .enter, .next, .calledBack, .next, .next] = some dispatched := rfl
  have hremoved := hadded.runFrom hremove
  have hdispatched := hremoved.runFrom hdispatch
  obtain ⟨hnodup, honly, hgone, honce⟩ := callbacks_removed dispatched hdispatched (by decide)
  refine ⟨hnodup, honly 4 2 _ rfl rfl, ?_, ?_⟩
  · exact (hgone added _ _ 1 [.removeIf 3]
      [.callRemove 2, .forEach 5, .enter, .next, .calledBack, .next, .next] hadded
      ⟨0, some 7, 1, rfl⟩ rfl rfl rfl rfl).1
  · obtain ⟨new, hnew, hfilter⟩ := honce removed _ _ 5 ⟨2, some 9, 3⟩
      [.enter, .next, .calledBack, .next] hremoved rfl rfl (by decide) rfl rfl (by decide) rfl
    rw [hnew]
    exact hfilter

end CppDone.Netlink.Callbacks
