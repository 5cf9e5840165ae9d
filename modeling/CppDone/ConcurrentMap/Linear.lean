import CppDone.ConcurrentMap.Clients

/-!
# The map is linearizable key by key

The order that explains a run is the order in which the locked sections were entered, each
section's single-key operations in the section's own order (`order`). That this is an
explanation is `Linearizes`, field by field: one plain map run in this order gives every answer a
client saw and ends with the same bindings; an operation sits at the time its section was
entered, after its call and before its return; one client's calls keep their order; the items of
a batch are all there when it has returned, and those on one key in list order.

A batch is *not* one point of the order: other clients' operations may stand between its
sections, and `order` shows exactly where.

The invariant behind it (`Explains`) speaks of the history alone. A section that is entered extends
the order at its end, by operations whose answers are those of a plain map at that point; calls and
returns extend the history and leave the order as it is. So only `enter` has anything to prove about
answers, and only `ret` uses that a call has been through its whole plan.
-/

set_option autoImplicit false

namespace CppDone.ConcurrentMap

open Std

variable {C K V : Type} {cmp : K → K → Ordering} {L : Layout K cmp}

/-! ## The order of a run

The sequential order is the order in which the sections were entered, each with its items in the
order of its list. Nothing is chosen: the order is a function of the history. -/

/-- A single-key operation done in a run: whose, in which call, when. -/
structure Item (C K V : Type) where
  client : C
  call : Nat
  time : Nat
  op : KeyOp K V

/-- An item with the answer it gets in a sequential order. -/
structure Entry (C K V : Type) extends Item C K V where
  ret : Ret K V

def Event.items (time : Nat) : Event C V L → List (Item C K V)
  | .locked c id _ sec => sec.keyOps.map fun x => ⟨c, id, time, x⟩
  | _ => []

/-- The items of a history, in the order their sections were entered. -/
def items (hist : List (Event C V L)) : List (Item C K V) :=
  hist.zipIdx.flatMap fun p => p.1.items p.2

theorem items_snoc (hist : List (Event C V L)) (e : Event C V L) :
    items (hist ++ [e]) = items hist ++ e.items hist.length := by
  simp [items, List.zipIdx_append]

theorem mem_items_iff {hist : List (Event C V L)} {it : Item C K V} :
    it ∈ items hist ↔
      ∃ i sec, hist[it.time]? = some (.locked it.client it.call i sec) ∧ it.op ∈ sec.keyOps := by
  simp only [items, List.mem_flatMap, Prod.exists, List.mk_mem_zipIdx_iff_getElem?]
  constructor
  · rintro ⟨e, t, he, hit⟩
    cases e with
    | locked c id i sec =>
      obtain ⟨x, hx, rfl⟩ := List.mem_map.mp hit
      exact ⟨i, sec, he, hx⟩
    | call => simp [Event.items] at hit
    | ret => simp [Event.items] at hit
  · rintro ⟨i, sec, he, hx⟩
    exact ⟨_, _, he, List.mem_map.mpr ⟨it.op, hx, rfl⟩⟩

theorem items_time_lt {hist : List (Event C V L)} {it : Item C K V} (h : it ∈ items hist) :
    it.time < hist.length :=
  let ⟨_, _, ht, _⟩ := mem_items_iff.mp h
  lt_length_of_getElem? ht

theorem items_times (hist : List (Event C V L)) :
    (items hist).Pairwise fun a b => a.time ≤ b.time := by
  induction hist using List.reverseRecOn with
  | nil => simp [items]
  | append_singleton hist e ih =>
    rw [items_snoc, List.pairwise_append]
    -- the new items all have the latest time
    have hnew : ∀ it ∈ e.items hist.length, it.time = hist.length := by
      cases e with
      | locked => simp [Event.items]
      | call => simp [Event.items]
      | ret => simp [Event.items]
    refine ⟨ih, List.pairwise_of_forall_mem_list fun a ha b hb => ?_, fun a ha b hb => ?_⟩
    · rw [hnew a ha, hnew b hb]
    · rw [hnew b hb]; exact (items_time_lt ha).le

section Order

variable (Compare : V → V → Bool)

/-- The answers of one plain map to a list of operations. -/
def plainRets (t : TreeMap K V cmp) : List (KeyOp K V) → List (Ret K V)
  | [] => []
  | x :: xs => (x.onPlain Compare t).1 :: plainRets (x.onPlain Compare t).2 xs

/-- Items with the answers one plain map gives to them, in order. -/
def answered (t : TreeMap K V cmp) : List (Item C K V) → List (Entry C K V)
  | [] => []
  | it :: its =>
    { it with ret := (it.op.onPlain Compare t).1 } :: answered (it.op.onPlain Compare t).2 its

/-- The sequential order of a history. -/
def order (hist : List (Event C V L)) : List (Entry C K V) :=
  answered Compare (∅ : TreeMap K V cmp) (items hist)

theorem answered_toItem (t : TreeMap K V cmp) (its : List (Item C K V)) :
    (answered Compare t its).map Entry.toItem = its := by
  induction its generalizing t with
  | nil => rfl
  | cons it its ih => simp [answered, ih]

theorem answered_rets (t : TreeMap K V cmp) (its : List (Item C K V)) :
    (answered Compare t its).map Entry.ret = plainRets Compare t (its.map Item.op) := by
  induction its generalizing t with
  | nil => rfl
  | cons it its ih => simp [answered, plainRets, ih]

theorem answered_append (t : TreeMap K V cmp) (its its' : List (Item C K V)) :
    answered Compare t (its ++ its')
      = answered Compare t its
        ++ answered Compare (sectionPlain Compare (its.map Item.op) t) its' := by
  induction its generalizing t with
  | nil => rfl
  | cons it its ih => simp [answered, ih, sectionPlain]

theorem order_ops (hist : List (Event C V L)) :
    (order Compare hist).map (fun e => e.op) = (items hist).map Item.op := by
  have h := congrArg (List.map Item.op)
    (answered_toItem Compare (∅ : TreeMap K V cmp) (items hist))
  rwa [List.map_map] at h

theorem mem_items_of_mem_order {hist : List (Event C V L)} {e : Entry C K V}
    (h : e ∈ order Compare hist) : e.toItem ∈ items hist := by
  rw [← answered_toItem Compare (∅ : TreeMap K V cmp) (items hist)]
  exact List.mem_map_of_mem h

end Order

/-- The operations a list of items holds for one call. -/
def callOps (its : List (Item C K V)) (id : Nat) : List (KeyOp K V) :=
  (its.filter fun it => it.call == id).map Item.op

/-- `lin` explains the run that led to `s`. -/
structure Linearizes (Compare : V → V → Bool) (s : State C V L) (lin : List (Entry C K V)) :
    Prop where
  /-- One plain map, run in this order from empty, gives the recorded answers. -/
  legal : plainRets Compare (∅ : TreeMap K V cmp) (lin.map fun e => e.op) = lin.map Entry.ret
  /-- It ends with the bindings of the concurrent map. -/
  contents : s.map.pairs.Perm
    (sectionPlain Compare (lin.map fun e => e.op) (∅ : TreeMap K V cmp)).toList
  /-- The order is an order in time. -/
  times : lin.Pairwise fun a b => a.time ≤ b.time
  /-- One client's calls keep their program order. -/
  program : lin.Pairwise fun a b => a.client = b.client → a.call ≤ b.call
  /-- An entry is an operation of its call, done at a locked section strictly between the call's
  start and its return. -/
  between : ∀ e ∈ lin, ∃ op i sec, s.hist[e.call]? = some (.call e.client op) ∧
    e.op ∈ op.keyOps ∧ s.hist[e.time]? = some (.locked e.client e.call i sec) ∧
    e.call < e.time ∧ ∀ (t : Nat) c r, s.hist[t]? = some (.ret c e.call r) → e.time < t
  /-- A returned call is in the order with all its items, each once; a single-key call was
  answered as recorded. -/
  complete : ∀ (t : Nat) c id r, s.hist[t]? = some (.ret c id r) → ∃ op,
    s.hist[id]? = some (.call c op) ∧ (callOps (lin.map Entry.toItem) id).Perm op.keyOps ∧
      (op.isBatch = false → ∀ e ∈ lin, e.call = id → e.ret = r)
  /-- A call still running is in the order with some of its items, each at most once. -/
  running : ∀ (id : Nat) c op, s.hist[id]? = some (.call c op) →
    (callOps (lin.map Entry.toItem) id).Subperm op.keyOps
  /-- Items of one call on one key are in the order all or not at all, in list order. -/
  sameKey : ∀ (id : Nat) c op k, s.hist[id]? = some (.call c op) →
    (callOps (lin.map Entry.toItem) id).filter (onKey cmp KeyOp.key k) = [] ∨
      (callOps (lin.map Entry.toItem) id).filter (onKey cmp KeyOp.key k)
        = op.keyOps.filter (onKey cmp KeyOp.key k)

/-! ## What holds along every run

Two things go along with the machine: the plain map after the items so far, and, for each client in
a call, which of its items are in the order already. A section adds its items at the end, where the
plain map is what the buckets are. -/

section Explains

variable (Compare : V → V → Bool)

/-- The plain map after the items of a history. -/
def plainOf (hist : List (Event C V L)) : TreeMap K V cmp :=
  sectionPlain Compare ((items hist).map Item.op) ∅

/-- Every entry of the call `id` got the answer `r`. -/
def Answered (hist : List (Event C V L)) (id : Nat) (r : Ret K V) : Prop :=
  ∀ e ∈ order Compare hist, e.call = id → e.ret = r

/-- A client inside a call: the call is its latest, has not returned, and the sections behind it are
the items the order holds for it. `progress` has both: what is to come is a rest of the plan, and
what is behind is in the order. -/
structure Running (s : State C V L) (c : C) (id : Nat) (op : Op K V)
    (todo : List (Fin L.bucketNums × Section K V)) (acc : Ret K V) : Prop where
  called : s.hist[id]? = some (.call c op)
  latest : ∀ (id' : Nat) op', s.hist[id']? = some (.call c op') → id' ≤ id
  notReturned : ∀ (t : Nat) c' r, s.hist[t]? ≠ some (.ret c' id r)
  progress : ∃ done, op.plan L = done ++ todo ∧
    callOps (items s.hist) id = done.flatMap (fun p => p.2.keyOps) ∧
      (done = [] → acc = op.start)
  answered : op.isBatch = false → Answered Compare s.hist id acc

/-- It speaks of the calls that are in the history, and of those that are under way. -/
structure Explains (s : State C V L) : Prop where
  rep : Represents s.map (plainOf Compare s.hist)
  program : (items s.hist).Pairwise fun a b => a.client = b.client → a.call ≤ b.call
  keyed : ∀ (id : Nat) c op, s.hist[id]? = some (.call c op) → op.isKeyed = true
  call : ∀ (id : Nat) c op, s.hist[id]? = some (.call c op) → ∃ done todo,
    op.plan L = done ++ todo ∧
      callOps (items s.hist) id = done.flatMap (fun p => p.2.keyOps)
  locked : ∀ (t : Nat) c id i sec, s.hist[t]? = some (.locked c id i sec) → ∃ op,
    s.hist[id]? = some (.call c op) ∧ (i, sec) ∈ op.plan L ∧ id < t ∧
      ∀ (t' : Nat) c' r, s.hist[t']? = some (.ret c' id r) → t < t'
  ret : ∀ (t : Nat) c id r, s.hist[t]? = some (.ret c id r) → ∃ op,
    s.hist[id]? = some (.call c op) ∧
      callOps (items s.hist) id = (op.plan L).flatMap (fun p => p.2.keyOps) ∧
      (op.isBatch = false → Answered Compare s.hist id r)
  running : ∀ c id op todo acc, s.clients c = .running id op todo acc →
    Running Compare s c id op todo acc

variable {Compare}

/-! ### One event more

How the parts of `Explains` grow with the history. An event that is not about a key adds nothing to
the order, and a call that is under way keeps what it has answered so far. -/

theorem order_snoc (hist : List (Event C V L)) (e : Event C V L) :
    order Compare (hist ++ [e])
      = order Compare hist ++ answered Compare (plainOf Compare hist) (e.items hist.length) := by
  rw [order, items_snoc, answered_append]
  rfl

theorem plainOf_snoc (hist : List (Event C V L)) (e : Event C V L) :
    plainOf Compare (hist ++ [e])
      = sectionPlain Compare ((e.items hist.length).map Item.op) (plainOf Compare hist) := by
  simp [plainOf, items_snoc, sectionPlain]

theorem callOps_append (its its' : List (Item C K V)) (id : Nat) :
    callOps (its ++ its') id = callOps its id ++ callOps its' id := by
  simp [callOps]

theorem callOps_eq_nil {its : List (Item C K V)} {id : Nat} (h : ∀ it ∈ its, it.call ≠ id) :
    callOps its id = [] := by
  rw [callOps, List.filter_eq_nil_iff.mpr fun it hit => by simpa using h it hit, List.map_nil]

theorem callOps_locked (c : C) (id time : Nat) (i : Fin L.bucketNums) (sec : Section K V) :
    callOps ((Event.locked c id i sec : Event C V L).items time) id = sec.keyOps := by
  have hall : ∀ it ∈ (Event.locked c id i sec : Event C V L).items time,
      (it.call == id) = true := by
    simp [Event.items]
  rw [callOps, List.filter_eq_self.mpr hall, Event.items, List.map_map]
  exact List.map_id _

theorem call_of_mem_locked {c : C} {id time : Nat} {i : Fin L.bucketNums} {sec : Section K V}
    {it : Item C K V} (h : it ∈ (Event.locked c id i sec : Event C V L).items time) :
    it.call = id := by
  simp only [Event.items, List.mem_map] at h
  obtain ⟨x, -, rfl⟩ := h
  rfl

theorem callOps_snoc_locked (hist : List (Event C V L)) (c : C) (id : Nat)
    (i : Fin L.bucketNums) (sec : Section K V) :
    callOps (items (hist ++ [.locked c id i sec])) id = callOps (items hist) id ++ sec.keyOps := by
  rw [items_snoc, callOps_append, callOps_locked]

/-- An event adds no item to the other calls. -/
theorem callOps_snoc_other {hist : List (Event C V L)} {e : Event C V L} {id : Nat}
    (h : ∀ it ∈ e.items hist.length, it.call ≠ id) :
    callOps (items (hist ++ [e])) id = callOps (items hist) id := by
  rw [items_snoc, callOps_append, callOps_eq_nil h, List.append_nil]

theorem mem_answered {t : TreeMap K V cmp} {its : List (Item C K V)} {e : Entry C K V}
    (h : e ∈ answered Compare t its) : e.toItem ∈ its := by
  rw [← answered_toItem Compare t its]
  exact List.mem_map_of_mem h

/-- An event that is not a section adds nothing to the order. -/
theorem answered_snoc_of_items_nil {hist : List (Event C V L)} {e : Event C V L}
    (he : e.items hist.length = []) {id : Nat} {r : Ret K V} :
    Answered Compare (hist ++ [e]) id r ↔ Answered Compare hist id r := by
  rw [Answered, order_snoc, he]
  simp [answered, Answered]

/-- A section adds nothing to the entries of other calls. -/
theorem Answered.snoc_other {hist : List (Event C V L)} {e : Event C V L} {id : Nat}
    {r : Ret K V} (h : Answered Compare hist id r)
    (he : ∀ it ∈ e.items hist.length, it.call ≠ id) : Answered Compare (hist ++ [e]) id r := by
  intro en hen hid
  rw [order_snoc, List.mem_append] at hen
  rcases hen with hen | hen
  · exact h en hen hid
  · exact absurd hid (he _ (mem_answered hen))

/-- An event of another client. -/
theorem Running.snoc_other {s s' : State C V L} {c : C} {id : Nat} {op : Op K V}
    {todo : List (Fin L.bucketNums × Section K V)} {acc : Ret K V}
    (hr : Running Compare s c id op todo acc) {e : Event C V L} (hhist : s'.hist = s.hist ++ [e])
    (hcall : ∀ op', e ≠ .call c op') (hret : ∀ c' r, e ≠ .ret c' id r)
    (hitems : ∀ it ∈ e.items s.hist.length, it.call ≠ id) :
    Running Compare s' c id op todo acc where
  called := by
    rw [hhist]
    exact getElem?_snoc.mpr (.inl hr.called)
  latest id' op' hid := by
    rw [hhist] at hid
    exact hr.latest id' op' (getElem?_of_snoc hid (hcall op'))
  notReturned t c' r ht := by
    rw [hhist] at ht
    exact hr.notReturned t c' r (getElem?_of_snoc ht (hret c' r))
  progress := by
    rw [hhist, callOps_snoc_other hitems]
    exact hr.progress
  answered hb := by
    rw [hhist]
    exact (hr.answered hb).snoc_other hitems

namespace Explains

variable {s s' : State C V L}

/-! ### A step of a client

The three kinds of steps: a call begins, a section is entered, a call returns. The one that matters
is the second, where the items of the section are put at the end of the order. -/

theorem item_called (h : Explains Compare s) {it : Item C K V} (hit : it ∈ items s.hist) :
    ∃ op, s.hist[it.call]? = some (.call it.client op) ∧ it.call < it.time := by
  obtain ⟨i, sec, ht, -⟩ := mem_items_iff.mp hit
  obtain ⟨op, hop, -, hlt, -⟩ := h.locked _ _ _ _ _ ht
  exact ⟨op, hop, hlt⟩

/-- A call that has not started has no items. -/
theorem callOps_length (h : Explains Compare s) : callOps (items s.hist) s.hist.length = [] := by
  refine callOps_eq_nil fun it hit heq => ?_
  obtain ⟨op, hop, -⟩ := h.item_called hit
  exact absurd (lt_length_of_getElem? hop) (by omega)

/-- A single-key call has one section, and this answers it as the plain map does. -/
theorem answered_enter [TransCmp cmp] (h : Explains Compare s) {c : C} {id : Nat} {op : Op K V}
    {i : Fin L.bucketNums} {sec : Section K V} {todo : List (Fin L.bucketNums × Section K V)}
    {acc : Ret K V} (hr : Running Compare s c id op ((i, sec) :: todo) acc)
    (hb : op.isBatch = false) :
    Answered Compare (s.hist ++ [.locked c id i sec]) id
      (sec.enter Compare acc (s.map.buckets_ i)).1 := by
  obtain ⟨done, hplan, hops, hstart⟩ := hr.progress
  obtain ⟨x, sec', -, hplan', -, hkey, henter⟩ :=
    plan_of_single (L := L) (h.keyed _ _ _ hr.called) hb
  rw [hplan'] at hplan
  obtain ⟨rfl, hcons⟩ : done = [] ∧ (i, sec) :: todo = [(L.bucketIndex x.key, sec')] := by
    cases done with
    | nil => exact ⟨rfl, hplan.symm⟩
    | cons p done => simp at hplan
  cases hcons
  intro e he heq
  rw [order_snoc, List.mem_append] at he
  rcases he with he | he
  · -- the order held no item of this call before
    have hit := mem_items_of_mem_order Compare he
    have hnil : e.op ∈ callOps (items s.hist) id :=
      List.mem_map.mpr ⟨e.toItem, List.mem_filter.mpr ⟨hit, by simpa using heq⟩, rfl⟩
    rw [hops] at hnil
    simp at hnil
  · simp only [Event.items, hkey, List.map_cons, List.map_nil, answered, List.mem_singleton] at he
    subst he
    dsimp only
    rw [hstart rfl, henter, KeyOp.onPlain_fst, KeyOp.onBucket_fst, ← h.rep.cell_getBucket,
      getBucket]

variable [DecidableEq C] {c : C}

/-- A call begins: it has no items yet, and nothing else changes. -/
theorem step_call (h : Explains Compare s) {op : Op K V} (hk : op.isKeyed = true)
    (hs : ConcurrentMap.step Compare s (.call c op) = some s') : Explains Compare s' := by
  obtain ⟨hidle, rfl⟩ := ConcurrentMap.step_call hs
  have hitems : items (s.hist ++ [.call c op]) = items s.hist := by
    simp [items_snoc, Event.items]
  have hplain : plainOf Compare (s.hist ++ [.call c op]) = plainOf Compare s.hist := by
    rw [plainOf, hitems, plainOf]
  have hans : ∀ {id : Nat} {r : Ret K V},
      Answered Compare (s.hist ++ [.call c op]) id r ↔ Answered Compare s.hist id r :=
    answered_snoc_of_items_nil rfl
  -- the new event is no return, so the returns are the old ones
  have hret : ∀ {t : Nat} {c' : C} {id : Nat} {r : Ret K V},
      (s.hist ++ [.call c op])[t]? = some (.ret c' id r) → s.hist[t]? = some (.ret c' id r) :=
    fun ht => getElem?_of_snoc ht nofun
  refine ⟨?_, ?_, ?_, ?_, ?_, ?_, ?_⟩
  · dsimp only; rw [hplain]; exact h.rep
  · dsimp only; rw [hitems]; exact h.program
  · intro id c' op' hid
    rcases getElem?_snoc.mp hid with hid | ⟨-, hid⟩
    · exact h.keyed _ _ _ hid
    · cases hid; exact hk
  · intro id c' op' hid
    dsimp only
    rw [hitems]
    rcases getElem?_snoc.mp hid with hid | ⟨rfl, heq⟩
    · exact h.call _ _ _ hid
    · cases heq
      exact ⟨[], op.plan L, rfl, h.callOps_length⟩
  · intro t c' id i sec ht
    rcases getElem?_snoc.mp ht with ht | ⟨-, ht⟩
    · obtain ⟨op', hop, hmem, hlt, hrets⟩ := h.locked _ _ _ _ _ ht
      exact ⟨op', getElem?_snoc.mpr (.inl hop), hmem, hlt, fun t' c'' r hr =>
        hrets t' c'' r (hret hr)⟩
    · cases ht
  · intro t c' id r ht
    obtain ⟨op', hop, hops, hr⟩ := h.ret _ _ _ _ (hret ht)
    refine ⟨op', getElem?_snoc.mpr (.inl hop), ?_, fun hb => hans.mpr (hr hb)⟩
    dsimp only
    rw [hitems]
    exact hops
  · intro c' id op' todo acc hrun
    by_cases hc : c' = c
    · subst hc
      simp only [Function.update_self, Client.running.injEq] at hrun
      obtain ⟨rfl, rfl, rfl, rfl⟩ := hrun
      refine ⟨by simp, ?_, ?_, ⟨[], rfl, ?_, fun _ => rfl⟩, ?_⟩
      · intro id' op' hid'
        have := lt_length_of_getElem? hid'
        simp only [List.length_append, List.length_singleton] at this
        omega
      · intro t c'' r ht
        obtain ⟨op', hop, -⟩ := h.ret _ _ _ _ (hret ht)
        exact absurd (lt_length_of_getElem? hop) (by omega)
      · dsimp only; rw [hitems]; exact h.callOps_length
      · intro _
        refine hans.mpr fun e he heq => ?_
        obtain ⟨op', hop, -⟩ := h.item_called (mem_items_of_mem_order Compare he)
        rw [heq] at hop
        exact absurd (lt_length_of_getElem? hop) (by omega)
    · simp only [Function.update_of_ne hc] at hrun
      refine (h.running _ _ _ _ _ hrun).snoc_other rfl (fun op' heq => ?_) nofun nofun
      cases heq
      exact hc rfl

/-- **A locked section**: its items join the order at the end, where the plain map answers them
as the bucket did. -/
theorem step_enter [TransCmp cmp] (h : Explains Compare s)
    (hs : ConcurrentMap.step Compare s (.enter c) = some s') : Explains Compare s' := by
  obtain ⟨id, op, i, sec, todo, acc, hrun, rfl⟩ := ConcurrentMap.step_enter hs
  have hr := h.running _ _ _ _ _ hrun
  obtain ⟨done, hplan, hops, -⟩ := hr.progress
  have hmem : (i, sec) ∈ op.plan L := by rw [hplan]; simp
  obtain ⟨hclear, hsec⟩ := plan_section (h.keyed _ _ _ hr.called) hmem
  have hother : ∀ {id' : Nat}, id' ≠ id →
      ∀ it ∈ (Event.locked c id i sec : Event C V L).items s.hist.length, it.call ≠ id' :=
    fun hne it hit heq => hne (heq.symm.trans (call_of_mem_locked hit))
  -- the new event is neither a call nor a return
  have hcall : ∀ {t : Nat} {c' : C} {op' : Op K V},
      (s.hist ++ [.locked c id i sec])[t]? = some (.call c' op') →
        s.hist[t]? = some (.call c' op') := fun ht => getElem?_of_snoc ht nofun
  have hret : ∀ {t : Nat} {c' : C} {id' : Nat} {r : Ret K V},
      (s.hist ++ [.locked c id i sec])[t]? = some (.ret c' id' r) →
        s.hist[t]? = some (.ret c' id' r) := fun ht => getElem?_of_snoc ht nofun
  have hsame : ∀ {c' : C} {op' : Op K V}, s.hist[id]? = some (.call c' op') → c = c' ∧ op = op' :=
    fun hid => by simpa using hr.called.symm.trans hid
  refine ⟨?_, ?_, ?_, ?_, ?_, ?_, ?_⟩
  · have hops' : ((Event.locked c id i sec : Event C V L).items s.hist.length).map Item.op
        = sec.keyOps := by
      simp only [Event.items, List.map_map]
      exact List.map_id _
    dsimp only
    rw [plainOf_snoc, hops', Section.enter_snd Compare hclear]
    exact h.rep.section Compare fun x hx => (hsec x hx).2
  · dsimp only
    rw [items_snoc, List.pairwise_append]
    refine ⟨h.program, List.pairwise_of_forall_mem_list fun a ha b hb _ => ?_,
      fun a ha b hb hac => ?_⟩
    · rw [call_of_mem_locked ha, call_of_mem_locked hb]
    · rw [call_of_mem_locked hb]
      obtain ⟨op', hop', -⟩ := h.item_called ha
      have hclient : b.client = c := by
        simp only [Event.items, List.mem_map] at hb
        obtain ⟨x, -, rfl⟩ := hb
        rfl
      rw [hac, hclient] at hop'
      exact hr.latest _ _ hop'
  · exact fun id' c' op' hid => h.keyed _ _ _ (hcall hid)
  · intro id' c' op' hid
    dsimp only
    by_cases hid' : id' = id
    · subst hid'
      obtain ⟨-, rfl⟩ := hsame (hcall hid)
      rw [callOps_snoc_locked]
      exact ⟨done ++ [(i, sec)], todo, by simp [hplan], by simp [hops]⟩
    · rw [callOps_snoc_other (hother hid')]
      exact h.call _ _ _ (hcall hid)
  · intro t c' id' i' sec' ht
    rcases getElem?_snoc.mp ht with ht | ⟨rfl, heq⟩
    · obtain ⟨op', hop, hmem', hlt, hrets⟩ := h.locked _ _ _ _ _ ht
      exact ⟨op', getElem?_snoc.mpr (.inl hop), hmem', hlt, fun t' c'' r hr' =>
        hrets t' c'' r (hret hr')⟩
    · cases heq
      exact ⟨op, getElem?_snoc.mpr (.inl hr.called), hmem, lt_length_of_getElem? hr.called,
        fun t' c'' r hr' => absurd (hret hr') (hr.notReturned _ _ _)⟩
  · intro t c' id' r ht
    have hne : id' ≠ id := fun heq => hr.notReturned t c' r (heq ▸ hret ht)
    obtain ⟨op', hop, hops', hans⟩ := h.ret _ _ _ _ (hret ht)
    refine ⟨op', getElem?_snoc.mpr (.inl hop), ?_, fun hb => (hans hb).snoc_other (hother hne)⟩
    dsimp only
    rw [callOps_snoc_other (hother hne)]
    exact hops'
  · intro c' id' op' todo' acc' hrun'
    by_cases hc : c' = c
    · subst hc
      simp only [Function.update_self, Client.running.injEq] at hrun'
      obtain ⟨rfl, rfl, rfl, rfl⟩ := hrun'
      refine ⟨getElem?_snoc.mpr (.inl hr.called), fun id' op' hid => hr.latest _ _ (hcall hid),
        fun t c'' r ht => hr.notReturned _ _ _ (hret ht),
        ⟨done ++ [(i, sec)], by simp [hplan], ?_, by simp⟩, h.answered_enter hr⟩
      dsimp only
      rw [callOps_snoc_locked]
      simp [hops]
    · simp only [Function.update_of_ne hc] at hrun'
      have hr' := h.running _ _ _ _ _ hrun'
      refine hr'.snoc_other rfl nofun nofun (hother ?_)
      rintro rfl
      exact hc (hsame hr'.called).1.symm

/-- A call returns: all its sections are behind it. -/
theorem step_ret (h : Explains Compare s)
    (hs : ConcurrentMap.step Compare s (.ret c) = some s') : Explains Compare s' := by
  obtain ⟨id, op, acc, hrun, rfl⟩ := ConcurrentMap.step_ret hs
  have hr := h.running _ _ _ _ _ hrun
  -- a return adds no operation, so the order and the plain map stay what they were
  have hitems : items (s.hist ++ [.ret c id acc]) = items s.hist := by
    simp [items_snoc, Event.items]
  have hplain : plainOf Compare (s.hist ++ [.ret c id acc]) = plainOf Compare s.hist := by
    rw [plainOf, hitems, plainOf]
  have hans : ∀ {id' : Nat} {r : Ret K V},
      Answered Compare (s.hist ++ [.ret c id acc]) id' r ↔ Answered Compare s.hist id' r :=
    answered_snoc_of_items_nil rfl
  have hcall : ∀ {t : Nat} {c' : C} {op' : Op K V},
      (s.hist ++ [.ret c id acc])[t]? = some (.call c' op') → s.hist[t]? = some (.call c' op') :=
    fun ht => getElem?_of_snoc ht nofun
  refine ⟨?_, ?_, ?_, ?_, ?_, ?_, ?_⟩
  · dsimp only; rw [hplain]; exact h.rep
  · dsimp only; rw [hitems]; exact h.program
  · exact fun id' c' op' hid => h.keyed _ _ _ (hcall hid)
  · intro id' c' op' hid
    dsimp only
    rw [hitems]
    exact h.call _ _ _ (hcall hid)
  · intro t c' id' i sec ht
    rcases getElem?_snoc.mp ht with ht | ⟨-, ht⟩
    · obtain ⟨op', hop, hmem, hlt, hrets⟩ := h.locked _ _ _ _ _ ht
      refine ⟨op', getElem?_snoc.mpr (.inl hop), hmem, hlt, fun t' c'' r hr' => ?_⟩
      rcases getElem?_snoc.mp hr' with hr' | ⟨rfl, -⟩
      · exact hrets _ _ _ hr'
      · exact lt_length_of_getElem? ht
    · cases ht
  -- the answer that is recorded is the one the call has collected
  · intro t c' id' r ht
    dsimp only
    rw [hitems]
    rcases getElem?_snoc.mp ht with ht | ⟨rfl, heq⟩
    · obtain ⟨op', hop, hops, hb⟩ := h.ret _ _ _ _ ht
      exact ⟨op', getElem?_snoc.mpr (.inl hop), hops, fun hnb => hans.mpr (hb hnb)⟩
    · cases heq
      obtain ⟨done, hplan, hops, -⟩ := hr.progress
      rw [List.append_nil] at hplan
      exact ⟨op, getElem?_snoc.mpr (.inl hr.called), by rw [hops, hplan],
        fun hnb => hans.mpr (hr.answered hnb)⟩
  -- the client that returned runs nothing now; the others are where they were
  · intro c' id' op' todo' acc' hrun'
    by_cases hc : c' = c
    · subst hc
      simp at hrun'
    · simp only [Function.update_of_ne hc] at hrun'
      have hr' := h.running _ _ _ _ _ hrun'
      refine hr'.snoc_other rfl nofun (fun c'' r heq => ?_) nofun
      cases heq
      obtain ⟨rfl, -⟩ : c = c' ∧ op = op' := by
        simpa using hr.called.symm.trans hr'.called
      exact hc rfl

theorem init : Explains Compare (clients C Compare L).init where
  rep := represents_empty L
  program := .nil
  keyed := by simp [clients]
  call := by simp [clients]
  locked := by simp [clients]
  ret := by simp [clients]
  running := by simp [clients]

omit [DecidableEq C] in
/-- What the invariant says about the order of the history. -/
theorem linearizes [TransCmp cmp] (h : Explains Compare s) :
    Linearizes Compare s (order Compare s.hist) where
  legal := by rw [order_ops, order, answered_rets]
  contents := by
    rw [order_ops]
    exact pairs_perm h.rep
  times := by
    have ht := items_times s.hist
    rw [← answered_toItem Compare (∅ : TreeMap K V cmp) (items s.hist), List.pairwise_map] at ht
    exact ht
  program := by
    have hp := h.program
    rw [← answered_toItem Compare (∅ : TreeMap K V cmp) (items s.hist), List.pairwise_map] at hp
    exact hp
  between := by
    intro e he
    obtain ⟨i, sec, ht, hx⟩ := mem_items_iff.mp (mem_items_of_mem_order Compare he)
    obtain ⟨op, hop, hmem, hlt, hrets⟩ := h.locked _ _ _ _ _ ht
    have hxop := ((plan_section (h.keyed _ _ _ hop) hmem).2 _ hx).1
    exact ⟨op, i, sec, hop, hxop, ht, hlt, hrets⟩
  -- a call that has returned has nothing left of its plan, a running one has a part of it done
  complete := by
    intro t c id r ht
    obtain ⟨op, hop, hops, hans⟩ := h.ret _ _ _ _ ht
    refine ⟨op, hop, ?_, hans⟩
    rw [order, answered_toItem, hops]
    exact plan_perm (h.keyed _ _ _ hop)
  running := by
    intro id c op hid
    obtain ⟨done, todo, hplan, hops⟩ := h.call _ _ _ hid
    rw [order, answered_toItem, hops]
    have hsub : (done.flatMap fun p => p.2.keyOps).Sublist
        ((op.plan L).flatMap fun p => p.2.keyOps) := by
      rw [hplan, List.flatMap_append]
      exact List.sublist_append_left _ _
    exact hsub.subperm.trans (plan_perm (h.keyed _ _ _ hid)).subperm
  sameKey := by
    intro id c op k hid
    obtain ⟨done, todo, hplan, hops⟩ := h.call _ _ _ hid
    rw [order, answered_toItem, hops]
    exact plan_sameKey (h.keyed _ _ _ hid) hplan k

end Explains

/-- A schedule in which clients call only members made of single-key operations. -/
def KeyedCalls (as : List (Action C K V)) : Prop :=
  ∀ c op, Action.call c op ∈ as → op.isKeyed = true

theorem explains_of_run [TransCmp cmp] [DecidableEq C] {as : List (Action C K V)}
    {s : State C V L} (hk : KeyedCalls as) (h : (clients C Compare L).run as = some s) :
    Explains Compare s := by
  refine Machine.run_induction
    (P := fun as s => KeyedCalls as → Explains Compare s) (fun _ => Explains.init) ?_ h hk
  intro as s a s' _ ih hs hk
  have hex := ih fun c op hop => hk c op (List.mem_append_left _ hop)
  cases a with
  | call c op => exact hex.step_call (hk c op (by simp)) hs
  | enter c => exact hex.step_enter hs
  | ret c => exact hex.step_ret hs

end Explains

/-- **`ConcurrentMap` is linearizable key by key, batches included**: whatever the clients call
and however their locked sections interleave, one sequential order of single-key operations
explains the run. -/
theorem linearizable [TransCmp cmp] [DecidableEq C] (Compare : V → V → Bool) (L : Layout K cmp)
    (as : List (Action C K V)) (hk : KeyedCalls as) (s : State C V L)
    (h : (clients C Compare L).run as = some s) :
    ∃ lin, Linearizes Compare s lin :=
  ⟨_, (explains_of_run hk h).linearizes⟩

/-- A batch over both buckets of `evenOdd`, with another client's update of one of its keys
between its two sections. -/
theorem linearizable_evenOdd :
    ∃ s : State Bool Nat evenOdd,
      (clients Bool (fun a b : Nat => a < b) evenOdd).run
          [.call true (.insertKeyBatch [(1, 5), (2, 6), (1, 3)]), .enter true,
            .call false (.update 1 2), .enter false, .enter true, .ret true, .ret false]
        = some s ∧
      ∃ lin, Linearizes (fun a b : Nat => a < b) s lin := by
  obtain ⟨s, hs⟩ := Option.isSome_iff_exists.mp
    (show ((clients Bool (fun a b : Nat => decide (a < b)) evenOdd).run
      [.call true (.insertKeyBatch [(1, 5), (2, 6), (1, 3)]), .enter true,
        .call false (.update 1 2), .enter false, .enter true, .ret true, .ret false]).isSome
        = true by decide)
  refine ⟨s, hs, linearizable _ evenOdd _ ?_ s hs⟩
  intro c op hop
  simp only [List.mem_cons, Action.call.injEq, reduceCtorEq, List.not_mem_nil, or_false,
    false_or] at hop
  rcases hop with ⟨-, rfl⟩ | ⟨-, rfl⟩ <;> rfl

end CppDone.ConcurrentMap
