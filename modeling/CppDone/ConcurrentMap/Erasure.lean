import CppDone.ConcurrentMap.Traversal

/-!
# Erasures while others write

`Clear` and `RemoveKeyBatch` enter the buckets one after the other, so there need be no moment at
which everything they erase is gone. What holds is said of each key by itself: at some moment of the
call it was unbound, namely when its bucket had been entered. What is found under it afterwards has
come since.

The moments are read off the run between the call and its return (`Went`): every section of the plan
was entered somewhere in it, and right after it the bucket is what the section made of it.
-/

set_option autoImplicit false

namespace CppDone.ConcurrentMap

open Std

variable {C K V : Type} {cmp : K → K → Ordering} {L : Layout K cmp}

/-- The keys a section erases. -/
def Section.Erases (cmp : K → K → Ordering) (k : K) : Section K V → Prop
  | .clear => True
  | .remove key => cmp key k = .eq
  | .removeKeyBatch list => ∃ key ∈ list, cmp key k = .eq
  | _ => False

/-- The keys a call erases. -/
def Op.Erases (cmp : K → K → Ordering) (k : K) : Op K V → Prop
  | .clear => True
  | .delete key => cmp key k = .eq
  | .removeKeyBatch list => ∃ key ∈ list, cmp key k = .eq
  | _ => False

/-- A call erases a key in a section of the key's bucket. -/
theorem Op.Erases.section {op : Op K V} {k : K} (h : op.Erases cmp k) :
    ∃ sec, (L.bucketIndex k, sec) ∈ op.plan L ∧ sec.Erases cmp k := by
  cases op with
  | clear => exact ⟨.clear, List.mem_map.mpr ⟨_, List.mem_finRange _, rfl⟩, trivial⟩
  | delete key =>
    refine ⟨.remove key, ?_, h⟩
    rw [← L.bucketIndex_congr key k h]
    exact List.mem_singleton.mpr rfl
  | removeKeyBatch list =>
    obtain ⟨key, hkey, heq⟩ := h
    refine ⟨_, List.mem_map.mpr ⟨_, List.mem_finRange _, rfl⟩, key, ?_, heq⟩
    rw [L.lists_eq_filter]
    refine List.mem_filter.mpr ⟨hkey, ?_⟩
    exact beq_iff_eq.mpr (L.bucketIndex_congr key k heq)
  | _ => cases h

/-- A section that erases a key leaves it unbound. -/
theorem Section.Erases.enter [TransCmp cmp] {sec : Section K V} {k : K} (h : sec.Erases cmp k)
    (Compare : V → V → Bool) (acc : Ret K V) (b : ConcurrentBucket K V cmp) :
    (sec.enter Compare acc b).2.cell k = none := by
  have hdeletes : ∀ {keys : List K}, (∃ key ∈ keys, cmp key k = .eq) →
      (sectionBucket Compare (keys.map KeyOp.delete) b).cell k = none := by
    rintro keys ⟨key, hkey, heq⟩
    rw [cell_sectionBucket]
    refine foldl_onCell_deletes (fun x hx => ?_) (fun hnil => ?_) _
    · obtain ⟨key', -, rfl⟩ := List.mem_map.mp (List.mem_of_mem_filter hx)
      rfl
    · have hmem : KeyOp.delete key ∈ (keys.map (KeyOp.delete (V := V))).filter
          (onKey cmp KeyOp.key k) :=
        List.mem_filter.mpr ⟨List.mem_map.mpr ⟨key, hkey, rfl⟩, onKey_iff.mpr heq⟩
      rw [hnil] at hmem
      cases hmem
  cases sec with
  | clear => exact ConcurrentBucket.cell_clear b k
  | remove key =>
    rw [enter_snd Compare (show Section.remove key ≠ .clear from nofun)]
    have hkey : ∃ key' ∈ [key], cmp key' k = .eq := ⟨key, List.mem_singleton.mpr rfl, h⟩
    exact hdeletes hkey
  | removeKeyBatch list =>
    rw [enter_snd Compare (show Section.removeKeyBatch list ≠ .clear from nofun)]
    exact hdeletes h
  | _ => cases h

/-! ## A call goes through its sections

A call that has come back was in each bucket of its plan, somewhere between its beginning and its
end. At that moment the key was unbound. -/

variable [DecidableEq C] {Compare : V → V → Bool} {s s' s₁ : State C V L}

/-- The call `id` of `c` has been through the sections of `plan` that it has left behind. -/
def Went (Compare : V → V → Bool) (plan : List (Fin L.bucketNums × Section K V)) (c : C) (id : Nat)
    (s₁ : State C V L) (mid : List (Action C K V)) (s : State C V L) : Prop :=
  ∀ op todo acc, s.clients c = .running id op todo acc → ∃ done, plan = done ++ todo ∧
    ∀ p ∈ done, (clients C Compare L).Sometime
      (fun s => ∃ acc b, s.map.buckets_ p.1 = (p.2.enter Compare acc b).2) s₁ mid

/-- When the call enters its next section, that section joins those it has been through, at this
very state. -/
theorem Went.step {plan : List (Fin L.bucketNums × Section K V)} {c : C} {id : Nat}
    {mid : List (Action C K V)} (h : Went Compare plan c id s₁ mid s)
    (hmid : (clients C Compare L).runFrom s₁ mid = some s) (hid : id < s.hist.length)
    {a : Action C K V} (hs : step Compare s a = some s') :
    Went Compare plan c id s₁ (mid ++ [a]) s' := by
  have hrun' : (clients C Compare L).runFrom s₁ (mid ++ [a]) = some s' :=
    Machine.runFrom_snoc hmid hs
  have hkept : ∀ op todo acc, s.clients c = .running id op todo acc → ∃ done,
      plan = done ++ todo ∧ ∀ p ∈ done, (clients C Compare L).Sometime
        (fun s => ∃ acc b, s.map.buckets_ p.1 = (p.2.enter Compare acc b).2) s₁ (mid ++ [a]) := by
    intro op todo acc hrun
    obtain ⟨done, hplan, hdone⟩ := h op todo acc hrun
    exact ⟨done, hplan, fun p hp => (hdone p hp).append [a]⟩
  intro op todo acc hrun
  cases a with
  | call c' op' =>
    obtain ⟨-, rfl⟩ := step_call hs
    by_cases hc : c = c'
    · -- a call that begins now has another name
      subst hc
      simp only [Function.update_self, Client.running.injEq] at hrun
      omega
    · simp only [Function.update_of_ne hc] at hrun
      exact hkept _ _ _ hrun
  | ret c' =>
    obtain ⟨id', op', acc', -, rfl⟩ := step_ret hs
    by_cases hc : c = c'
    · subst hc
      simp only [Function.update_self, reduceCtorEq] at hrun
    · simp only [Function.update_of_ne hc] at hrun
      exact hkept _ _ _ hrun
  | enter c' =>
    obtain ⟨id', op', i, sec, todo', acc', hclient, rfl⟩ := step_enter hs
    by_cases hc : c = c'
    · subst hc
      simp only [Function.update_self, Client.running.injEq] at hrun
      obtain ⟨rfl, rfl, rfl, rfl⟩ := hrun
      obtain ⟨done, hplan, hdone⟩ := hkept _ _ _ hclient
      refine ⟨done ++ [(i, sec)], by rw [hplan, List.append_assoc]; rfl, fun p hp => ?_⟩
      rcases List.mem_append.mp hp with hp | hp
      · exact hdone p hp
      · obtain rfl := List.mem_singleton.mp hp
        refine Machine.Sometime.last hrun' ⟨acc', s.map.buckets_ i, ?_⟩
        exact (buckets_setBucket ..).trans (if_pos rfl)
    · simp only [Function.update_of_ne hc] at hrun
      exact hkept _ _ _ hrun

/-- A call that has its answer has been through all of them. -/
theorem went_of_call {c : C} {op : Op K V} {mid : List (Action C K V)} {s₀ s₂ s₃ : State C V L}
    {r : Ret K V} (hcall : step Compare s₀ (.call c op) = some s₁)
    (hmid : (clients C Compare L).runFrom s₁ mid = some s₂)
    (hret : step Compare s₂ (.ret c) = some s₃)
    (hr : s₃.hist = s₂.hist ++ [.ret c s₀.hist.length r]) :
    ∀ p ∈ op.plan L, (clients C Compare L).Sometime
      (fun s => ∃ acc b, s.map.buckets_ p.1 = (p.2.enter Compare acc b).2) s₁ mid := by
  -- the call is recognised by its place in the history, which no later event can have
  have hrun : s₀.hist.length < s₂.hist.length ∧
      Went Compare (op.plan L) c s₀.hist.length s₁ mid s₂ := by
    refine Machine.runFrom_induction (M := clients C Compare L)
      (P := fun mid s => s₀.hist.length < s.hist.length ∧
        Went Compare (op.plan L) c s₀.hist.length s₁ mid s) ?_ ?_ hmid
    · refine ⟨by rw [length_hist_step hcall]; exact Nat.lt_succ_self _, ?_⟩
      obtain ⟨-, rfl⟩ := step_call hcall
      intro op' todo acc hrun
      simp only [Function.update_self, Client.running.injEq] at hrun
      obtain ⟨-, rfl, rfl, rfl⟩ := hrun
      exact ⟨[], rfl, fun p hp => absurd hp List.not_mem_nil⟩
    · intro mid s a s' hmid h hs
      refine ⟨?_, h.2.step hmid h.1 hs⟩
      rw [length_hist_step hs]
      exact Nat.lt_succ_of_lt h.1
  obtain ⟨id, op', acc, hclient, rfl⟩ := step_ret hret
  obtain ⟨rfl, rfl⟩ : id = s₀.hist.length ∧ acc = r := by
    simpa using List.append_cancel_left hr
  obtain ⟨done, hplan, hdone⟩ := hrun.2 _ _ _ hclient
  rw [hplan, List.append_nil]
  exact hdone

/-! ## What has come since

Whatever the key holds later was offered after that moment, and so while the call was under way or
behind it. -/

/-- What a cell holds after some operations was in it, or one of them brought it. -/
theorem held_of_foldl {xs : List (KeyOp K V)} {c : Option (K × V)} {held : K × V}
    (h : xs.foldl (fun c x => (x.onCell Compare c).2) c = some held) :
    c = some held ∨ held.2 ∈ xs.filterMap KeyOp.offer := by
  induction xs generalizing c with
  | nil => exact .inl h
  | cons x xs ih =>
    have hwrite : ∀ {bindAbsent : Bool} {key : K} {value : V},
        (writeCell Compare bindAbsent key value c).2 = some held →
          c = some held ∨ held.2 = value := by
      intro bindAbsent key value hw
      unfold writeCell at hw
      split at hw
      · split at hw
        · exact .inr (Option.some.inj hw ▸ rfl)
        · cases hw
      · split at hw
        · exact .inr (Option.some.inj hw ▸ rfl)
        · exact .inl hw
    rcases ih h with hx | hx
    · cases x with
      | insert key value | update key value =>
        rcases hwrite hx with hc | hv
        · exact .inl hc
        · exact .inr (hv ▸ List.mem_cons_self)
      | lookUp key value | contain key => exact .inl hx
      | delete key => cases hx
    · refine .inr ?_
      cases x with
      | insert key value | update key value => exact List.mem_cons_of_mem _ hx
      | lookUp key value | contain key | delete key => exact hx

/-- What a key holds that was unbound meanwhile was offered meanwhile. -/
theorem offered_of_unbound [TransCmp cmp] {mid : List (Action C K V)} {k : K}
    (h₁ : Todo Home s₁) (hmid : (clients C Compare L).runFrom s₁ mid = some s)
    (hnone : (clients C Compare L).Sometime (fun s => s.cell k = none) s₁ mid) :
    ∃ evs, s.hist = s₁.hist ++ evs ∧ ∀ held, s.cell k = some held → held.2 ∈ offered k evs := by
  suffices hall : Todo Home s ∧ ∃ evs, s.hist = s₁.hist ++ evs ∧
      ((clients C Compare L).Sometime (fun s => s.cell k = none) s₁ mid →
        ∀ held, s.cell k = some held → held.2 ∈ offered k evs) by
    obtain ⟨-, evs, hevs, hheld⟩ := hall
    exact ⟨evs, hevs, hheld hnone⟩
  clear hnone
  refine Machine.runFrom_induction (M := clients C Compare L)
    (P := fun mid s => Todo Home s ∧ ∃ evs, s.hist = s₁.hist ++ evs ∧
      ((clients C Compare L).Sometime (fun s => s.cell k = none) s₁ mid →
        ∀ held, s.cell k = some held → held.2 ∈ offered k evs)) ?_ ?_ hmid
  · refine ⟨h₁, [], (List.append_nil _).symm, ?_⟩
    rintro ⟨pre, post, t, hnil, ht, hnone⟩ held hheld
    obtain ⟨rfl, -⟩ := List.append_eq_nil_iff.mp hnil.symm
    obtain rfl := Option.some.inj ht
    cases hnone.symm.trans hheld
  · rintro mid s a s' hmid ⟨hhome, evs, hevs, ih⟩ hs
    obtain ⟨e, he, hcell⟩ := step_cell hhome hs k
    refine ⟨todo_step_home hhome hs, evs ++ [e], by rw [he, hevs, List.append_assoc], ?_⟩
    intro hsome held hheld
    rw [offered_snoc]
    -- the moment lies before this step: afterwards the key is bound
    have hbefore : (clients C Compare L).Sometime (fun s => s.cell k = none) s₁ mid := by
      obtain ⟨pre, post, t, heq, ht, hnone⟩ := hsome
      rcases List.eq_nil_or_concat post with rfl | ⟨post, b, rfl⟩
      · rw [List.append_nil] at heq
        rw [← heq, Machine.runFrom_snoc hmid hs] at ht
        obtain rfl := Option.some.inj ht
        cases hnone.symm.trans hheld
      · have hcat : mid ++ [a] = (pre ++ post) ++ [b] := by
          rw [heq, List.concat_eq_append, List.append_assoc]
        exact ⟨pre, post, t, (List.append_inj' hcat rfl).1, ht, hnone⟩
    rcases hcell with ⟨hsame, -⟩ | ⟨c, id, i, sec, rfl, -, ⟨-, hnone⟩ | ⟨-, hfold⟩⟩
    · exact List.mem_append_left _ (ih hbefore held (hsame ▸ hheld))
    · cases hnone.symm.trans hheld
    · rcases held_of_foldl (hfold.symm.trans hheld) with hheld | hoffer
      · exact List.mem_append_left _ (ih hbefore held hheld)
      · exact List.mem_append_right _ hoffer

/-- **Erasures take effect while others write.** Let `c` call `op` in `s₀`, let everybody go on by
`mid` from there, and let `c` then get its answer. If `op` is `Clear`, or a `Delete` or a
`RemoveKeyBatch` with the key, then the key was unbound at some moment of the call, and what is
found under it at the end was offered during the call. -/
theorem erasures_take_effect [TransCmp cmp] (Compare : V → V → Bool) (L : Layout K cmp)
    (c : C) (op : Op K V) (mid : List (Action C K V)) (r : Ret K V) (s₀ s₁ s₂ s₃ : State C V L)
    (h₀ : (clients C Compare L).Reachable s₀)
    (hcall : (clients C Compare L).step s₀ (.call c op) = some s₁)
    (hmid : (clients C Compare L).runFrom s₁ mid = some s₂)
    (hret : (clients C Compare L).step s₂ (.ret c) = some s₃)
    (hr : s₃.hist = s₂.hist ++ [.ret c s₀.hist.length r]) (k : K) (hk : op.Erases cmp k) :
    (clients C Compare L).Sometime (fun s => s.cell k = none) s₁ mid ∧
      ∃ evs, s₂.hist = s₁.hist ++ evs ∧ ∀ held, s₃.cell k = some held → held.2 ∈ offered k evs := by
  have hunbound : (clients C Compare L).Sometime (fun s => s.cell k = none) s₁ mid := by
    obtain ⟨sec, hsec, herases⟩ := hk.section (L := L)
    refine (went_of_call hcall hmid hret hr _ hsec).imp fun s hs => ?_
    obtain ⟨acc, b, hb⟩ := hs
    show (s.map.buckets_ (L.bucketIndex k)).cell k = none
    rw [hb]
    exact herases.enter Compare acc b
  have hhome : Todo Home s₁ :=
    (h₀.step hcall).inv (I := Todo Home) ⟨todo_home_init, fun h hs => todo_step_home h hs⟩
  obtain ⟨evs, hevs, hheld⟩ := offered_of_unbound hhome hmid hunbound
  refine ⟨hunbound, evs, hevs, fun held h₃ => hheld held ?_⟩
  have hret : step Compare s₂ (.ret c) = some s₃ := hret
  obtain ⟨id, op', acc, -, rfl⟩ := step_ret hret
  exact h₃

/-- Both keys of `evenOddBefore` are there when `Clear` begins, and another client binds one of them
again before it comes back. -/
def clearedDuring : List (Action Bool Nat Nat) :=
  [.enter true, .call false (.insert 1 70), .enter true, .enter false, .ret false]

theorem erasures_take_effect_clear :
    ∃ s₁ s₃ : State Bool Nat evenOdd,
      (clients Bool (fun a b : Nat => a < b) evenOdd).run (evenOddBefore ++ [.call true .clear])
        = some s₁ ∧
      s₃.cell 1 = some (1, 70) ∧
      (clients Bool (fun a b : Nat => a < b) evenOdd).Sometime (fun s => s.cell 1 = none) s₁
        clearedDuring ∧
      ∃ evs, 70 ∈ offered 1 (evs : List (Event Bool Nat evenOdd)) := by
  obtain ⟨s₂, hs₂⟩ := Option.isSome_iff_exists.mp
    (show ((clients Bool (fun a b : Nat => decide (a < b)) evenOdd).run
      ((evenOddBefore ++ [.call true .clear]) ++ clearedDuring)).isSome = true by decide)
  have hend : ((clients Bool (fun a b : Nat => decide (a < b)) evenOdd).run
      ((evenOddBefore ++ [.call true .clear]) ++ clearedDuring)).map
        (fun s => ((s.clients true).answer, s.cell 1)) = some (some (4, .void), some (1, 70)) := by
    decide
  rw [hs₂, Option.map_some, Option.some.injEq, Prod.mk.injEq] at hend
  obtain ⟨s₁, hs₁, hmid⟩ := Machine.run_append.mp hs₂
  obtain ⟨s₀, hs₀, hcall⟩ := Machine.run_snoc.mp hs₁
  have hlen : ((clients Bool (fun a b : Nat => decide (a < b)) evenOdd).run evenOddBefore).map
      (fun s => s.hist.length) = some 4 := by decide
  rw [hs₀, Option.map_some, Option.some.injEq] at hlen
  obtain ⟨op, hclient⟩ := Client.answer_cases hend.1
  have hret : (clients Bool (fun a b : Nat => decide (a < b)) evenOdd).step s₂ (.ret true)
      = some { s₂ with
        clients := Function.update s₂.clients true .idle
        hist := s₂.hist ++ [.ret true 4 .void] } := by
    show step (fun a b : Nat => decide (a < b)) s₂ (.ret true) = _
    rw [step, hclient]
  obtain ⟨hnone, evs, -, hoffered⟩ :=
    erasures_take_effect (fun a b : Nat => decide (a < b)) evenOdd true .clear clearedDuring .void
      s₀ s₁ s₂ _ ⟨_, hs₀⟩ hcall hmid hret (by rw [hlen]) 1 trivial
  exact ⟨s₁, _, hs₁, hend.2, hnone, evs, hoffered _ hend.2⟩

end CppDone.ConcurrentMap
