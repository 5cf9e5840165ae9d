import CppDone.Lib.Best
import CppDone.ConcurrentMap.Clients

/-!
# Conditional writes keep the best value

If `Compare` is irreflexive and transitive, "replace exactly if `Compare(new, held)`" is `keep`,
and what a key holds is the best of what was offered for it since it was last unbound. The
history is read through `offered`: every value an `Insert` or `Update` brought for the key, as a
single call or as a batch item, rejected or not.

A locked section is the unit here too. Sections are uniform (all inserts, all updates, all
removals or only reads), which is why the moment a key was last unbound is always *between* two
sections and never inside one.

The second half compares two maps. If `Compare` decides between any two different values, what a key
holds is determined by what was offered for it, whatever the order of the offers, the number of
clients and the layout: the best of a list does not depend on the order of the list.
-/

set_option autoImplicit false

namespace CppDone.ConcurrentMap

open Std

variable {C K V : Type} {cmp : K → K → Ordering}

/-! ## Offers

An offer for a key is the value that an `Insert` or an `Update` of it brings, whether it is taken or
not. A removal offers nothing. -/

/-- The value a single-key operation offers. -/
def KeyOp.offer : KeyOp K V → Option V
  | .insert _ value | .update _ value => some value
  | .lookUp _ _ | .contain _ | .delete _ => none

@[simp] def KeyOp.isInsert : KeyOp K V → Bool
  | .insert _ _ => true
  | .lookUp _ _ | .contain _ | .update _ _ | .delete _ => false

@[simp] def KeyOp.isDelete : KeyOp K V → Bool
  | .delete _ => true
  | .lookUp _ _ | .contain _ | .insert _ _ | .update _ _ => false

theorem KeyOp.isDelete_of_isInsert {x : KeyOp K V} (h : x.isInsert = true) :
    x.isDelete = false := by
  cases x with
  | insert => rfl
  | _ => cases h

theorem KeyOp.isInsert_of_isDelete {x : KeyOp K V} (h : x.isDelete = true) :
    x.isInsert = false := by
  cases x with
  | delete => rfl
  | _ => cases h

/-- The values a section offers for `k`, in order. -/
def Section.offers (cmp : K → K → Ordering) (k : K) (sec : Section K V) : List V :=
  (sec.keyOps.filter (onKey cmp KeyOp.key k)).filterMap KeyOp.offer

variable {L : Layout K cmp}

def Event.offers (k : K) : Event C V L → List V
  | .locked _ _ _ sec => sec.offers cmp k
  | _ => []

/-- The values offered for `k` in a stretch of history. -/
def offered (k : K) (evs : List (Event C V L)) : List V := evs.flatMap (Event.offers k)

theorem offered_snoc (k : K) (evs : List (Event C V L)) (e : Event C V L) :
    offered k (evs ++ [e]) = offered k evs ++ e.offers k := by
  simp [offered]

/-- What the map binds under `k`. -/
def State.cell (s : State C V L) (k : K) : Option (K × V) := (s.map.getBucket k).cell k

/-! ## Offers on one cell

What a list of operations makes of one cell. A bound cell adds up what it is offered; an unbound one
is bound by the first insertion only, so an update that comes before it is lost. A section never
mixes the two kinds, which keeps the cases few. -/

section Cell

variable {Compare : V → V → Bool} (hirr : ∀ v, Compare v v = false)
  (htrans : ∀ a b c, Compare a b = true → Compare b c = true → Compare a c = true)

theorem writeCell_some (Compare : V → V → Bool) (bindAbsent : Bool) (key : K) (value : V)
    (held : K × V) :
    ∃ held', (writeCell Compare bindAbsent key value (some held)).2 = some held' ∧
      held'.2 = keep Compare held.2 value := by
  simp only [writeCell, keep]
  split
  · exact ⟨_, rfl, rfl⟩
  · exact ⟨_, rfl, rfl⟩

include hirr htrans

/-- Operations that remove nothing, on a bound cell: the offers are added up. -/
theorem foldl_onCell_some {xs : List (KeyOp K V)} (hx : ∀ x ∈ xs, x.isDelete = false)
    {held : K × V} {vs : List V} (hb : IsBest Compare vs held.2) :
    ∃ held', xs.foldl (fun c x => (x.onCell Compare c).2) (some held) = some held' ∧
      IsBest Compare (vs ++ xs.filterMap KeyOp.offer) held'.2 := by
  induction xs generalizing held vs with
  | nil => exact ⟨held, rfl, by simpa using hb⟩
  | cons x xs ih =>
    have hxs : ∀ x ∈ xs, x.isDelete = false := fun y hy => hx y (List.mem_cons_of_mem _ hy)
    -- a write is one more offer
    have hwrite : ∀ bindAbsent key value,
        ∃ held', xs.foldl (fun c x => (x.onCell Compare c).2)
            (writeCell Compare bindAbsent key value (some held)).2 = some held' ∧
          IsBest Compare (vs ++ value :: xs.filterMap KeyOp.offer) held'.2 := by
      intro bindAbsent key value
      obtain ⟨held₁, h₁, hk⟩ := writeCell_some Compare bindAbsent key value held
      have hb₁ : IsBest Compare (vs ++ [value]) held₁.2 := hk ▸ hb.snoc hirr htrans value
      obtain ⟨held', hf, hb'⟩ := ih hxs hb₁
      exact ⟨held', by rw [h₁, hf], by simpa using hb'⟩
    cases x with
    | insert key value => exact hwrite true key value
    | update key value => exact hwrite false key value
    | lookUp key value => exact ih hxs hb
    | contain key => exact ih hxs hb
    | delete key => exact absurd (hx _ List.mem_cons_self) (by simp)

/-- Inserts on an unbound cell: the first one binds it. -/
theorem foldl_onCell_none {xs : List (KeyOp K V)} (hx : ∀ x ∈ xs, x.isInsert = true)
    {held : K × V} (h : xs.foldl (fun c x => (x.onCell Compare c).2) none = some held) :
    IsBest Compare (xs.filterMap KeyOp.offer) held.2 := by
  cases xs with
  | nil => cases h
  | cons x xs =>
    cases x with
    | insert key value =>
      have hnd : ∀ x ∈ xs, x.isDelete = false := by
        intro y hy
        exact KeyOp.isDelete_of_isInsert (hx y (List.mem_cons_of_mem _ hy))
      have hone : IsBest Compare [value] (key, value).2 := IsBest.singleton hirr value
      obtain ⟨held', hf, hb⟩ := foldl_onCell_some hirr htrans hnd hone
      obtain rfl : held' = held := by
        have := hf.symm.trans h
        simpa using this
      simpa [KeyOp.offer] using hb
    | lookUp | contain | update | delete =>
      exact absurd (hx _ List.mem_cons_self) (by simp)

omit hirr htrans in
/-- Operations that insert nothing leave an unbound cell unbound. -/
theorem foldl_onCell_unbound {xs : List (KeyOp K V)} (hx : ∀ x ∈ xs, x.isInsert = false) :
    xs.foldl (fun c x => (x.onCell Compare c).2) none = none := by
  induction xs with
  | nil => rfl
  | cons x xs ih =>
    have hxs : ∀ x ∈ xs, x.isInsert = false := fun y hy => hx y (List.mem_cons_of_mem _ hy)
    have hnone : (x.onCell Compare none).2 = none := by
      cases x with
      | insert => exact absurd (hx _ List.mem_cons_self) (by simp)
      | _ => rfl
    rw [List.foldl_cons, hnone, ih hxs]

omit hirr htrans in
/-- Removals leave nothing behind, however many there are. -/
theorem foldl_onCell_deletes {xs : List (KeyOp K V)} (hx : ∀ x ∈ xs, x.isDelete = true)
    (hne : xs ≠ []) (c : Option (K × V)) :
    xs.foldl (fun c x => (x.onCell Compare c).2) c = none := by
  cases xs with
  | nil => exact absurd rfl hne
  | cons x xs =>
    have hnone : (x.onCell Compare c).2 = none := by
      cases x with
      | delete => rfl
      | _ => exact absurd (hx _ List.mem_cons_self) (by simp)
    rw [List.foldl_cons, hnone]
    refine foldl_onCell_unbound fun y hy => ?_
    exact KeyOp.isInsert_of_isDelete (hx y (List.mem_cons_of_mem _ hy))

/-! ### A whole section

A section comes to a key with one item, with several of a batch, or not at all. The items of one
section are of one kind, so either all of them offer a value to the key or all of them take it away.
-/

omit hirr htrans in
/-- A section is uniform: it only removes, or it removes nothing and either only inserts or
inserts nothing. -/
theorem Section.uniform (sec : Section K V) :
    (∀ x ∈ sec.keyOps, x.isDelete = true) ∨
      (∀ x ∈ sec.keyOps, x.isDelete = false) ∧
        ((∀ x ∈ sec.keyOps, x.isInsert = true) ∨ ∀ x ∈ sec.keyOps, x.isInsert = false) := by
  cases sec with
  | insertKeyBatch list =>
    refine Or.inr ⟨fun x hx => ?_, Or.inl fun x hx => ?_⟩ <;>
      · obtain ⟨kv, -, rfl⟩ := List.mem_map.mp hx
        rfl
  | updateKeyBatch list =>
    refine Or.inr ⟨fun x hx => ?_, Or.inr fun x hx => ?_⟩ <;>
      · obtain ⟨kv, -, rfl⟩ := List.mem_map.mp hx
        rfl
  | removeKeyBatch list =>
    refine Or.inl fun x hx => ?_
    obtain ⟨key, -, rfl⟩ := List.mem_map.mp hx
    rfl
  | _ => simp [Section.keyOps]

/-- **A section on one cell**: what it leaves bound is the best of the offers, its own added to
those since the cell was last unbound. -/
theorem Section.best (sec : Section K V) (k : K) {c : Option (K × V)} {held : K × V}
    (h : (sec.keyOps.filter (onKey cmp KeyOp.key k)).foldl (fun c x => (x.onCell Compare c).2) c
      = some held) :
    (c = none → IsBest Compare (sec.offers cmp k) held.2) ∧
      ∀ held₀ vs, c = some held₀ → IsBest Compare vs held₀.2 →
        IsBest Compare (vs ++ sec.offers cmp k) held.2 := by
  have hsub : ∀ {x}, x ∈ sec.keyOps.filter (onKey cmp KeyOp.key k) → x ∈ sec.keyOps :=
    fun hx => List.mem_of_mem_filter hx
  rcases sec.uniform with hdel | ⟨hnd, hins⟩
  · -- a removal of `k` would have left it unbound
    have hnil : sec.keyOps.filter (onKey cmp KeyOp.key k) = [] := by
      by_contra hne
      rw [foldl_onCell_deletes (fun x hx => hdel x (hsub hx)) hne] at h
      cases h
    rw [hnil, List.foldl_nil] at h
    rw [Section.offers, hnil]
    refine ⟨fun hc => ?_, fun held₀ vs hc hb => ?_⟩
    · rw [hc] at h; cases h
    · rw [hc] at h; cases h; simpa using hb
  · refine ⟨fun hc => ?_, fun held₀ vs hc hb => ?_⟩
    · subst hc
      rcases hins with hins | hins
      · exact foldl_onCell_none hirr htrans (fun x hx => hins x (hsub hx)) h
      · rw [foldl_onCell_unbound fun x hx => hins x (hsub hx)] at h
        cases h
    · subst hc
      obtain ⟨held', hf, hb'⟩ := foldl_onCell_some hirr htrans (fun x hx => hnd x (hsub hx)) hb
      rw [hf] at h
      cases h
      exact hb'

end Cell

/-! ## Offers along a run

The invariant is about the time since the key was last unbound: what it holds then is the best of
what it was offered since. A step of the machine is a section, and a section is a list of operations
on the cells of its bucket. -/

section Runs

variable [DecidableEq C] {Compare : V → V → Bool} {s s' : State C V L}

/-- The sections clients still have to enter satisfy `P`. -/
def Todo (P : Fin L.bucketNums → Section K V → Prop) (s : State C V L) : Prop :=
  ∀ c id op todo acc, s.clients c = .running id op todo acc → ∀ p ∈ todo, P p.1 p.2

/-- What a call has to do is decided when it begins, and only gets less. -/
theorem todo_step {P : Fin L.bucketNums → Section K V → Prop} {a : Action C K V}
    (h : Todo P s) (ha : ∀ c op, a = .call c op → ∀ p ∈ op.plan L, P p.1 p.2)
    (hs : step Compare s a = some s') : Todo P s' := by
  intro c' id op todo acc hrun
  -- a call brings its plan, a section entered is taken off it, and the other clients keep theirs
  cases a with
  | call c op' =>
    obtain ⟨-, rfl⟩ := step_call hs
    by_cases hc : c' = c
    · subst hc
      simp only [Function.update_self, Client.running.injEq] at hrun
      obtain ⟨-, -, rfl, -⟩ := hrun
      exact ha c' op' rfl
    · simp only [Function.update_of_ne hc] at hrun
      exact h _ _ _ _ _ hrun
  | enter c =>
    obtain ⟨id', op', i, sec, todo', acc', hrun', rfl⟩ := step_enter hs
    by_cases hc : c' = c
    · subst hc
      simp only [Function.update_self, Client.running.injEq] at hrun
      obtain ⟨-, -, rfl, -⟩ := hrun
      exact fun p hp => h _ _ _ _ _ hrun' p (List.mem_cons_of_mem _ hp)
    · simp only [Function.update_of_ne hc] at hrun
      exact h _ _ _ _ _ hrun
  | ret c =>
    obtain ⟨id', op', acc', hrun', rfl⟩ := step_ret hs
    by_cases hc : c' = c
    · subst hc
      simp at hrun
    · simp only [Function.update_of_ne hc] at hrun
      exact h _ _ _ _ _ hrun

/-- The section has only items of the bucket it is entered in. -/
def Home (i : Fin L.bucketNums) (sec : Section K V) : Prop :=
  ∀ x ∈ sec.keyOps, L.bucketIndex x.key = i

/-- A section entered in a bucket that is not the bucket of `k` offers nothing for `k`. -/
theorem Home.filter_eq_nil {i : Fin L.bucketNums} {sec : Section K V} (h : Home i sec) {k : K}
    (hk : L.bucketIndex k ≠ i) : sec.keyOps.filter (onKey cmp KeyOp.key k) = [] := by
  rw [List.filter_eq_nil_iff]
  intro x hx hxk
  exact hk (by rw [← h x hx, L.bucketIndex_congr _ _ (onKey_iff.mp hxk)])

/-! ### What a step does to a cell

Every step of the system is seen from one key: it leaves the key alone, or its section does to the
cell what its items do. The home of the key is where this is decided, and a section entered
elsewhere has no items for it. -/

/-- A step seen from one key: one event is recorded, and either the key's cell and its offers
stay as they were, or a section was entered in the bucket of the key. -/
theorem step_cell [TransCmp cmp] {a : Action C K V} (h : Todo Home s)
    (hs : step Compare s a = some s') (k : K) :
    ∃ e, s'.hist = s.hist ++ [e] ∧
      (s'.cell k = s.cell k ∧ e.offers k = [] ∨
        ∃ c id i sec, e = .locked c id i sec ∧
          (∃ op todo acc, s.clients c = .running id op ((i, sec) :: todo) acc) ∧
          (sec = .clear ∧ s'.cell k = none ∨
            sec ≠ .clear ∧ s'.cell k = (sec.keyOps.filter (onKey cmp KeyOp.key k)).foldl
              (fun c x => (x.onCell Compare c).2) (s.cell k))) := by
  cases a with
  | call c op =>
    obtain ⟨-, rfl⟩ := step_call hs
    exact ⟨_, rfl, .inl ⟨rfl, rfl⟩⟩
  | ret c =>
    obtain ⟨id, op, acc, -, rfl⟩ := step_ret hs
    exact ⟨_, rfl, .inl ⟨rfl, rfl⟩⟩
  | enter c =>
    obtain ⟨id, op, i, sec, todo, acc, hrun, rfl⟩ := step_enter hs
    refine ⟨_, rfl, ?_⟩
    have hhome : Home i sec := h _ _ _ _ _ hrun _ List.mem_cons_self
    -- the cell changes only if the section is in the bucket of the key
    by_cases hk : L.bucketIndex k = i
    · refine .inr ⟨c, id, i, sec, rfl, ⟨op, todo, acc, hrun⟩, ?_⟩
      -- `Clear` has no single-key operations, so it is a case of its own
      by_cases hclear : sec = .clear
      · subst hclear
        refine .inl ⟨rfl, ?_⟩
        simp [State.cell, getBucket, buckets_setBucket, hk, Section.enter]
      · refine .inr ⟨hclear, ?_⟩
        simp only [State.cell, getBucket, buckets_setBucket, hk, if_true,
          Section.enter_snd Compare hclear, cell_sectionBucket]
    · refine .inl ⟨?_, ?_⟩
      · simp only [State.cell, getBucket, buckets_setBucket, if_neg hk]
      · rw [Event.offers, Section.offers, hhome.filter_eq_nil hk, List.filterMap_nil]

/-- **One step**: if the key is bound afterwards, the held value is the best of the offers since
it was last unbound, the step's own added. -/
theorem step_best [TransCmp cmp] (hirr : ∀ v, Compare v v = false)
    (htrans : ∀ a b c, Compare a b = true → Compare b c = true → Compare a c = true)
    {a : Action C K V} (h : Todo Home s) (hs : step Compare s a = some s') (k : K) :
    ∃ e, s'.hist = s.hist ++ [e] ∧ ∀ held, s'.cell k = some held →
      (s.cell k = none → IsBest Compare (e.offers k) held.2) ∧
        ∀ held₀ vs, s.cell k = some held₀ → IsBest Compare vs held₀.2 →
          IsBest Compare (vs ++ e.offers k) held.2 := by
  obtain ⟨e, he, hcell⟩ := step_cell h hs k
  refine ⟨e, he, fun held hheld => ?_⟩
  rcases hcell with ⟨hsame, hoff⟩ | ⟨c, id, i, sec, rfl, -, ⟨-, hnone⟩ | ⟨-, hfold⟩⟩
  · rw [hsame] at hheld
    rw [hheld, hoff]
    refine ⟨fun hn => (Option.some_ne_none _ hn).elim, fun held₀ vs h₀ hb => ?_⟩
    cases h₀
    simpa using hb
  · rw [hnone] at hheld
    cases hheld
  · rw [hfold] at hheld
    exact Section.best hirr htrans sec k hheld

theorem todo_home_init : Todo Home (clients C Compare L).init := by
  simp [Todo, clients]

theorem todo_step_home {a : Action C K V} (h : Todo Home s) (hs : step Compare s a = some s') :
    Todo Home s' :=
  todo_step h (fun _ _ _ _ hp => plan_home hp) hs

/-! ### Since the key was unbound

What a key holds is decided by what was offered to it since it was bound last. Before that there may
have been better values, and they do not count: a deletion forgets them. -/

/-- `post` is what the schedule did since `k` was last unbound: unbound at the start of it, bound
after every step of it. -/
def LastUnbound (M : Machine (State C V L) (Action C K V)) (k : K)
    (pre post : List (Action C K V)) : Prop :=
  (∃ s₀, M.run pre = some s₀ ∧ s₀.cell k = none) ∧
    ∀ mid rest s₁, post = mid ++ rest → mid ≠ [] → M.run (pre ++ mid) = some s₁ →
      s₁.cell k ≠ none

omit [DecidableEq C] in
/-- The key is bound behind the step as well, so it was unbound last where it was before. -/
theorem LastUnbound.snoc {M : Machine (State C V L) (Action C K V)} {k : K}
    {pre post : List (Action C K V)} (h : LastUnbound M k pre post) {a : Action C K V}
    (hs : M.run (pre ++ post ++ [a]) = some s) (hk : s.cell k ≠ none) :
    LastUnbound M k pre (post ++ [a]) := by
  refine ⟨h.1, fun mid rest s₁ heq hne hrun => ?_⟩
  rcases List.eq_nil_or_concat rest with rfl | ⟨rest', b, rfl⟩
  · rw [List.append_nil] at heq
    subst heq
    rw [← List.append_assoc, hs] at hrun
    cases hrun
    exact hk
  · have hcat : post ++ [a] = (mid ++ rest') ++ [b] := by simpa using heq
    exact h.2 mid rest' s₁ (List.append_inj' hcat rfl).1 hne hrun

/-- **Every held value is the best offer since the key was last unbound.** -/
theorem best_of_run [TransCmp cmp] (hirr : ∀ v, Compare v v = false)
    (htrans : ∀ a b c, Compare a b = true → Compare b c = true → Compare a c = true)
    {as : List (Action C K V)} (h : (clients C Compare L).run as = some s) :
    Todo Home s ∧ ∀ k held, s.cell k = some held → ∃ pre post s₀ evs, as = pre ++ post ∧
      LastUnbound (clients C Compare L) k pre post ∧
      (clients C Compare L).run pre = some s₀ ∧ s.hist = s₀.hist ++ evs ∧
      IsBest Compare (offered k evs) held.2 := by
  refine Machine.run_induction (M := clients C Compare L)
    (P := fun as s => Todo Home s ∧ ∀ k held, s.cell k = some held → ∃ pre post s₀ evs,
      as = pre ++ post ∧ LastUnbound (clients C Compare L) k pre post ∧
      (clients C Compare L).run pre = some s₀ ∧ s.hist = s₀.hist ++ evs ∧
      IsBest Compare (offered k evs) held.2) ⟨todo_home_init, ?_⟩ ?_ h
  · intro k held hheld
    simp [State.cell, clients, getBucket, empty] at hheld
  · intro as s a s' hrun hP hs
    obtain ⟨hhome, ih⟩ := hP
    have hrun' := Machine.run_snoc.mpr ⟨s, hrun, hs⟩
    refine ⟨todo_step_home hhome hs, fun k held hheld => ?_⟩
    obtain ⟨e, he, hbest⟩ := step_best hirr htrans hhome hs k
    obtain ⟨hnone, hsome⟩ := hbest held hheld
    have hbound : s'.cell k ≠ none := by rw [hheld]; simp
    cases hc : s.cell k with
    | none =>
      -- the key is bound by this very step
      refine ⟨as, [a], s, [e], rfl, ⟨⟨s, hrun, hc⟩, ?_⟩, hrun, he, ?_⟩
      · intro mid rest s₁ heq hne hmid
        obtain ⟨rfl, rfl⟩ : mid = [a] ∧ rest = [] := by
          cases mid with
          | nil => exact absurd rfl hne
          | cons b mid =>
            obtain ⟨rfl, hnil⟩ := List.cons.inj heq
            obtain ⟨rfl, rfl⟩ := List.append_eq_nil_iff.mp hnil.symm
            exact ⟨rfl, rfl⟩
        rw [hrun'] at hmid
        cases hmid
        exact hbound
      · simpa [offered] using hnone hc
    | some held₀ =>
      obtain ⟨pre, post, s₀, evs, rfl, hlast, hpre, hevs, hb⟩ := ih k held₀ hc
      refine ⟨pre, post ++ [a], s₀, evs ++ [e], by simp, hlast.snoc hrun' hbound, hpre, ?_, ?_⟩
      · rw [he, hevs, List.append_assoc]
      · rw [offered_snoc]
        exact hsome held₀ _ hc hb

/-! ## Runs that only insert

Nothing is ever unbound, so what a key holds is the best of everything inserted for it in the
whole run, and that does not depend on the order. -/

def KeyOp.insertion : KeyOp K V → Option (K × V)
  | .insert key value => some (key, value)
  | .lookUp _ _ | .contain _ | .update _ _ | .delete _ => none

def Event.inserted : Event C V L → List (K × V)
  | .locked _ _ _ sec => sec.keyOps.filterMap KeyOp.insertion
  | _ => []

/-- The `Insert` and `InsertKeyBatch` items performed in a history. -/
def inserted (hist : List (Event C V L)) : List (K × V) := hist.flatMap Event.inserted

/-- The values among them that were inserted under `k`. -/
def insertedFor (k : K) (hist : List (Event C V L)) : List V :=
  ((inserted hist).filter (onKey cmp Prod.fst k)).map Prod.snd

/-- Neither a removal nor an `Update`. -/
def Op.onlyInserts : Op K V → Bool
  | .insert _ _ | .insertKeyBatch _ | .lookUp _ _ | .contain _ | .getAllKey _ | .size => true
  | .update _ _ | .updateKeyBatch _ | .delete _ | .removeKeyBatch _ | .clear => false

def OnlyInserts (as : List (Action C K V)) : Prop :=
  ∀ c op, Action.call c op ∈ as → op.onlyInserts = true

def KeyOp.grows : KeyOp K V → Bool
  | .insert _ _ | .lookUp _ _ | .contain _ => true
  | .update _ _ | .delete _ => false

/-- A section of a call that only inserts. -/
def Grows (_ : Fin L.bucketNums) (sec : Section K V) : Prop :=
  sec ≠ .clear ∧ ∀ x ∈ sec.keyOps, x.grows = true

/-- All sections of a call that inserts are of this kind, in a batch too. -/
theorem plan_grows {op : Op K V} (h : op.onlyInserts = true) {i : Fin L.bucketNums}
    {sec : Section K V} (hp : (i, sec) ∈ op.plan L) : Grows i sec := by
  cases op with
  | insert | lookUp | contain =>
    cases List.mem_singleton.mp hp
    exact ⟨by simp, by simp [Section.keyOps, KeyOp.grows]⟩
  | insertKeyBatch list =>
    obtain ⟨j, -, hj⟩ := List.mem_map.mp hp
    cases hj
    refine ⟨by simp, fun x hx => ?_⟩
    obtain ⟨kv, -, rfl⟩ := List.mem_map.mp hx
    rfl
  | getAllKey | size =>
    obtain ⟨j, -, hj⟩ := List.mem_map.mp hp
    cases hj
    exact ⟨by simp, by simp [Section.keyOps]⟩
  | update | updateKeyBatch | delete | removeKeyBatch | clear => simp [Op.onlyInserts] at h

/-- What such a section offers to a key are the values that it inserts under it. -/
theorem Grows.offers_eq {i : Fin L.bucketNums} {sec : Section K V} (h : Grows i sec) (k : K) :
    sec.offers cmp k
      = ((sec.keyOps.filterMap KeyOp.insertion).filter (onKey cmp Prod.fst k)).map Prod.snd := by
  rw [Section.offers]
  have h := h.2
  generalize sec.keyOps = xs at h ⊢
  induction xs with
  | nil => rfl
  | cons x xs ih =>
    have hxs := ih fun y hy => h y (List.mem_cons_of_mem _ hy)
    cases x with
    | insert key value =>
      by_cases hk : cmp key k = .eq
      · simpa [onKey, KeyOp.key, KeyOp.insertion, hk, KeyOp.offer] using hxs
      · simpa [onKey, KeyOp.key, KeyOp.insertion, hk, KeyOp.offer] using hxs
    | lookUp | contain =>
      rw [List.filterMap_cons_none (f := KeyOp.insertion) rfl, ← hxs, List.filter_cons]
      split
      · exact List.filterMap_cons_none rfl
      · rfl
    | update | delete => exact absurd (h _ List.mem_cons_self) (by simp [KeyOp.grows])

/-- Growing operations leave a cell unbound only if it was and they offered nothing. -/
theorem foldl_onCell_grows {xs : List (KeyOp K V)} (hx : ∀ x ∈ xs, x.grows = true)
    {c : Option (K × V)} (h : xs.foldl (fun c x => (x.onCell Compare c).2) c = none) :
    c = none ∧ xs.filterMap KeyOp.offer = [] := by
  induction xs generalizing c with
  | nil => exact ⟨h, rfl⟩
  | cons x xs ih =>
    obtain ⟨hc, hoff⟩ := ih (fun y hy => hx y (List.mem_cons_of_mem _ hy)) h
    cases x with
    | insert key value =>
      -- an insert always leaves the cell bound
      cases c with
      | none => cases hc
      | some held =>
        obtain ⟨held', h', -⟩ := writeCell_some Compare true key value held
        simp [KeyOp.onCell, h'] at hc
    | lookUp => exact ⟨hc, hoff⟩
    | contain => exact ⟨hc, hoff⟩
    | update | delete => exact absurd (hx _ List.mem_cons_self) (by simp [KeyOp.grows])

/-! ### The invariant

As long as nothing is deleted, no key is unbound once it is bound, and the history itself says what
was offered. So the invariant speaks of the history, and needs no search for the last deletion. -/

/-- What a key holds after a run that only inserts. The first two fields are about the sections that
are still to come, so that each of them is known to insert into its own bucket. -/
structure HoldsBest (Compare : V → V → Bool) (s : State C V L) : Prop where
  home : Todo Home s
  grows : Todo Grows s
  unbound : ∀ k, s.cell k = none → insertedFor k s.hist = []
  bound : ∀ k held, s.cell k = some held → IsBest Compare (insertedFor k s.hist) held.2

omit [DecidableEq C] in
theorem insertedFor_snoc (k : K) (hist : List (Event C V L)) (e : Event C V L) :
    insertedFor k (hist ++ [e]) = insertedFor k hist ++ insertedFor k [e] := by
  simp [insertedFor, inserted]

/-- A section offers its values to the keys of its bucket, and each of these keeps the better one.
-/
theorem HoldsBest.step [TransCmp cmp] (hirr : ∀ v, Compare v v = false)
    (htrans : ∀ a b c, Compare a b = true → Compare b c = true → Compare a c = true)
    {a : Action C K V} (ha : ∀ c op, a = .call c op → op.onlyInserts = true)
    (h : HoldsBest Compare s) (hs : ConcurrentMap.step Compare s a = some s') :
    HoldsBest Compare s' := by
  -- one event: its offers for `k` are its insertions, and only an insertion-free step from an
  -- unbound cell leaves the cell unbound
  have hevent : ∀ k, ∃ e, s'.hist = s.hist ++ [e] ∧ e.offers k = insertedFor k [e] ∧
      (s'.cell k = none → s.cell k = none ∧ e.offers k = []) := by
    intro k
    cases a with
    | call c op =>
      obtain ⟨-, rfl⟩ := step_call hs
      exact ⟨_, rfl, rfl, fun hn => ⟨hn, rfl⟩⟩
    | ret c =>
      obtain ⟨id, op, acc, -, rfl⟩ := step_ret hs
      exact ⟨_, rfl, rfl, fun hn => ⟨hn, rfl⟩⟩
    | enter c =>
      obtain ⟨e, he, hcell⟩ := step_cell h.home hs k
      obtain ⟨id, op, i, sec, todo, acc, hrun, rfl⟩ := step_enter hs
      obtain rfl : Event.locked c id i sec = e := by simpa using he
      have hgrow : Grows i sec := h.grows _ _ _ _ _ hrun _ List.mem_cons_self
      refine ⟨_, rfl, ?_, fun hn => ?_⟩
      · rw [Event.offers, hgrow.offers_eq]
        simp [insertedFor, inserted, Event.inserted]
      · rcases hcell with ⟨hsame, hoff⟩ | ⟨c', id', i', sec', heq, -, ⟨rfl, -⟩ | ⟨-, hfold⟩⟩
        · exact ⟨hsame ▸ hn, hoff⟩
        · cases heq
          exact absurd rfl hgrow.1
        · cases heq
          rw [hfold] at hn
          exact foldl_onCell_grows
            (fun x hx => hgrow.2 x (List.mem_of_mem_filter hx)) hn
  refine ⟨todo_step_home h.home hs,
    todo_step h.grows (fun c op hc p hp => plan_grows (ha c op hc) hp) hs, fun k hn => ?_,
    fun k held hheld => ?_⟩
  · obtain ⟨e, he, hoff, hnone⟩ := hevent k
    obtain ⟨hc, hnil⟩ := hnone hn
    rw [he, insertedFor_snoc, h.unbound k hc, ← hoff, hnil]
    rfl
  · obtain ⟨e, he, hoff, -⟩ := hevent k
    obtain ⟨e', he', hbest⟩ := step_best hirr htrans h.home hs k
    obtain rfl : e = e' := by simpa using he.symm.trans he'
    obtain ⟨hnone, hsome⟩ := hbest held hheld
    rw [he, insertedFor_snoc, ← hoff]
    cases hc : s.cell k with
    | none => simpa [h.unbound k hc] using hnone hc
    | some held₀ => exact hsome held₀ _ hc (h.bound k held₀ hc)

/-- In a run in which every call inserts. -/
theorem holdsBest_of_run [TransCmp cmp] (hirr : ∀ v, Compare v v = false)
    (htrans : ∀ a b c, Compare a b = true → Compare b c = true → Compare a c = true)
    {as : List (Action C K V)} (ho : OnlyInserts as) (h : (clients C Compare L).run as = some s) :
    HoldsBest Compare s := by
  refine Machine.run_induction (M := clients C Compare L)
    (P := fun as s => OnlyInserts as → HoldsBest Compare s) (fun _ => ?_) ?_ h ho
  · refine ⟨todo_home_init, by simp [Todo, clients], fun k _ => rfl, fun k held hheld => ?_⟩
    simp [State.cell, clients, getBucket, empty] at hheld
  · intro as s a s' _ ih hs ho
    refine (ih fun c op hop => ho c op (List.mem_append_left _ hop)).step hirr htrans ?_ hs
    rintro c op rfl
    exact ho c op (by simp)

omit [DecidableEq C] in
/-- Two such runs that inserted the same values under `k` hold the same value there. -/
theorem HoldsBest.same_value {C' : Type} {L' : Layout K cmp} {t : State C' V L'}
    (htotal : ∀ a b, a ≠ b → Compare a b = true ∨ Compare b a = true)
    (hs : HoldsBest Compare s) (ht : HoldsBest Compare t)
    (hperm : (inserted s.hist).Perm (inserted t.hist)) (k : K) :
    (s.cell k).map Prod.snd = (t.cell k).map Prod.snd := by
  have hfor : (insertedFor k s.hist).Perm (insertedFor k t.hist) := (hperm.filter _).map _
  cases hc : s.cell k with
  | none =>
    have hnil : insertedFor k t.hist = [] := by
      have := hs.unbound k hc ▸ hfor
      exact this.nil_eq.symm
    cases hd : t.cell k with
    | none => rfl
    | some held => exact absurd (hnil ▸ (ht.bound k held hd).mem) (by simp)
  | some held =>
    cases hd : t.cell k with
    | none =>
      have hnil : insertedFor k s.hist = [] := (ht.unbound k hd ▸ hfor).eq_nil
      exact absurd (hnil ▸ (hs.bound k held hc).mem) (by simp)
    | some held' =>
      have heq := (hs.bound k held hc).unique htotal (ht.bound k held' hd) fun v => hfor.mem_iff
      simp [heq]

end Runs

/-- **Conditional writes keep the best value, whatever the order.** First, in any run of any
clients: a held value was offered since its key was last unbound, and no offer since then beats
it. Hence, if one of two different values always beats the other, two runs that only insert and
perform the same items hold the same value under every key. -/
theorem conditional_writes_keep_best [TransCmp cmp] {Compare : V → V → Bool}
    (hirr : ∀ v, Compare v v = false)
    (htrans : ∀ a b c, Compare a b = true → Compare b c = true → Compare a c = true) :
    (∀ (C : Type) [DecidableEq C] (L : Layout K cmp) (as : List (Action C K V))
        (s : State C V L), (clients C Compare L).run as = some s →
      ∀ k held, s.cell k = some held → ∃ pre post s₀ evs, as = pre ++ post ∧
        LastUnbound (clients C Compare L) k pre post ∧
        (clients C Compare L).run pre = some s₀ ∧ s.hist = s₀.hist ++ evs ∧
        held.2 ∈ offered k evs ∧ ∀ v ∈ offered k evs, Compare v held.2 = false) ∧
    ((∀ a b, a ≠ b → Compare a b = true ∨ Compare b a = true) →
      ∀ (C C' : Type) [DecidableEq C] [DecidableEq C'] (L L' : Layout K cmp)
        (as : List (Action C K V)) (as' : List (Action C' K V)) (s : State C V L)
        (s' : State C' V L'),
      (clients C Compare L).run as = some s → (clients C' Compare L').run as' = some s' →
      OnlyInserts as → OnlyInserts as' → (inserted s.hist).Perm (inserted s'.hist) →
      ∀ k, (s.cell k).map Prod.snd = (s'.cell k).map Prod.snd) := by
  constructor
  · intro C _ L as s h k held hheld
    obtain ⟨pre, post, s₀, evs, has, hlast, hpre, hevs, hb⟩ :=
      (best_of_run hirr htrans h).2 k held hheld
    exact ⟨pre, post, s₀, evs, has, hlast, hpre, hevs, hb.mem, hb.unbeaten⟩
  · intro htotal C C' _ _ L L' as as' s s' h h' ho ho' hperm k
    exact (holdsBest_of_run hirr htrans ho h).same_value htotal
      (holdsBest_of_run hirr htrans ho' h') hperm k

/-- Smallest value wins: one client's batch, and the same items one by one from two clients. -/
theorem conditional_writes_keep_best_evenOdd :
    ∃ (s s' : State Bool Nat evenOdd),
      (clients Bool (fun a b : Nat => a < b) evenOdd).run
          [.call true (.insertKeyBatch [(1, 5), (2, 6), (1, 3)]), .enter true, .enter true]
        = some s ∧
      (clients Bool (fun a b : Nat => a < b) evenOdd).run
          [.call true (.insert 1 3), .call false (.insert 2 6), .enter false, .enter true,
            .ret true, .call true (.insert 1 5), .enter true] = some s' ∧
      (s.cell 1).map Prod.snd = some 3 ∧ (s.cell 1).map Prod.snd = (s'.cell 1).map Prod.snd := by
  obtain ⟨s, hs⟩ := Option.isSome_iff_exists.mp
    (show ((clients Bool (fun a b : Nat => decide (a < b)) evenOdd).run
      [.call true (.insertKeyBatch [(1, 5), (2, 6), (1, 3)]), .enter true, .enter true]).isSome
        = true by decide)
  obtain ⟨s', hs'⟩ := Option.isSome_iff_exists.mp
    (show ((clients Bool (fun a b : Nat => decide (a < b)) evenOdd).run
      [.call true (.insert 1 3), .call false (.insert 2 6), .enter false, .enter true,
        .ret true, .call true (.insert 1 5), .enter true]).isSome = true by decide)
  have hval : ((clients Bool (fun a b : Nat => decide (a < b)) evenOdd).run
      [.call true (.insertKeyBatch [(1, 5), (2, 6), (1, 3)]), .enter true, .enter true]).map
        (fun s => ((s.cell 1).map Prod.snd, inserted s.hist))
      = some (some 3, [(2, 6), (1, 5), (1, 3)]) := by decide
  have hins' : ((clients Bool (fun a b : Nat => decide (a < b)) evenOdd).run
      [.call true (.insert 1 3), .call false (.insert 2 6), .enter false, .enter true,
        .ret true, .call true (.insert 1 5), .enter true]).map (fun s => inserted s.hist)
      = some [(2, 6), (1, 3), (1, 5)] := by decide
  rw [hs, Option.map_some, Option.some.injEq, Prod.mk.injEq] at hval
  rw [hs', Option.map_some, Option.some.injEq] at hins'
  have hcalls : ∀ as : List (Action Bool Nat Nat),
      as.all (fun | .call _ op => op.onlyInserts | _ => true) = true → OnlyInserts as :=
    fun as h c op hop => List.all_eq_true.mp h _ hop
  refine ⟨s, s', hs, hs', hval.1, ?_⟩
  have hirr : ∀ v : Nat, decide (v < v) = false := by simp
  have htrans : ∀ a b c : Nat, decide (a < b) = true → decide (b < c) = true →
      decide (a < c) = true := by simp; omega
  have htotal : ∀ a b : Nat, a ≠ b → decide (a < b) = true ∨ decide (b < a) = true := by simp
  exact (conditional_writes_keep_best hirr htrans).2 htotal Bool Bool evenOdd evenOdd _ _ s s'
    hs hs' (hcalls _ (by decide)) (hcalls _ (by decide)) (by rw [hval.2, hins']; decide) 1

end CppDone.ConcurrentMap
