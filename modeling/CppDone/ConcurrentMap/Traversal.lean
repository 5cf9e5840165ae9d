import CppDone.ConcurrentMap.Best

/-!
# Traversals while others write

`GetAllKey` and `Size` enter the buckets one after the other, so what they return is in general no
state the map was ever in. What holds of it is read off a list: the pairs found so far, each
bucket's as they were when its section was entered. A pair found was bound at that moment. A key
is bound in its own bucket or nowhere, so no later bucket brings it again, and a key that is bound
all the time is found when its bucket is entered.

The two members differ in what they make of the pairs: `GetAllKey` returns them and `Size` counts
them.

Nothing better can be had from the source: a value that is moved from a key of a bucket not yet
entered to a key of one that was is not found at all, although it was bound all the time under one
key or the other.
-/

set_option autoImplicit false

namespace CppDone.ConcurrentMap

open Std

variable {C K V : Type} {cmp : K → K → Ordering} {L : Layout K cmp} [DecidableEq C]
  {Compare : V → V → Bool} {s s' s₁ : State C V L}

/-! ## A key is in its own bucket

Nobody puts a key into a bucket that it does not hash to, so a traversal meets a key in one bucket
only, whatever the others do meanwhile. -/

/-- A bucket binds only keys that hash to it. -/
def Placed (s : State C V L) : Prop :=
  ∀ i k, L.bucketIndex k ≠ i → (s.map.buckets_ i).cell k = none

omit [DecidableEq C] in
theorem Placed.setBucket (h : Placed s) {i : Fin L.bucketNums} {b : ConcurrentBucket K V cmp}
    (hb : ∀ k, L.bucketIndex k ≠ i → b.cell k = none) :
    ∀ j k, L.bucketIndex k ≠ j → ((s.map.setBucket i b).buckets_ j).cell k = none := by
  intro j k hk
  rw [buckets_setBucket]
  split
  · next hj => exact hb k (hj ▸ hk)
  · exact h j k hk

/-- A section writes under keys of its own bucket only. -/
theorem Placed.step [TransCmp cmp] (h : Placed s) (hhome : Todo Home s) {a : Action C K V}
    (hs : step Compare s a = some s') : Placed s' := by
  cases a with
  | call c op =>
    obtain ⟨-, rfl⟩ := step_call hs
    exact h
  | ret c =>
    obtain ⟨id, op, acc, -, rfl⟩ := step_ret hs
    exact h
  | enter c =>
    obtain ⟨id, op, i, sec, todo, acc, hrun, rfl⟩ := step_enter hs
    have hsec : Home i sec := hhome _ _ _ _ _ hrun _ List.mem_cons_self
    refine h.setBucket fun k hk => ?_
    by_cases hclear : sec = .clear
    · subst hclear
      exact ConcurrentBucket.cell_clear (s.map.buckets_ i) k
    · rw [Section.enter_snd Compare hclear, cell_sectionBucket, hsec.filter_eq_nil hk]
      exact h i k hk

theorem placed_of_reachable [TransCmp cmp] (h : (clients C Compare L).Reachable s) : Placed s := by
  have hI : (clients C Compare L).Inductive fun s => Placed s ∧ Todo Home s := by
    refine ⟨⟨fun i k _ => ?_, todo_home_init⟩, fun h hs => ?_⟩
    · exact ConcurrentBucket.cell_empty k
    · exact ⟨h.1.step h.2 hs, todo_step_home h.2 hs⟩
  exact (h.inv hI).1

omit [DecidableEq C] in
/-- So a pair that a traversal finds in a bucket is the one that the map has under its key. -/
theorem Placed.mem_toList_iff [TransCmp cmp] (h : Placed s) {i : Fin L.bucketNums} {p : K × V} :
    p ∈ (s.map.buckets_ i).map_.toList ↔ L.bucketIndex p.1 = i ∧ s.cell p.1 = some p := by
  rw [mem_toList_iff_cell]
  constructor
  · intro hp
    have hi : L.bucketIndex p.1 = i := by
      by_contra hne
      have hnone := h i p.1 hne
      rw [ConcurrentBucket.cell, hp] at hnone
      cases hnone
    subst hi
    exact ⟨rfl, hp⟩
  · rintro ⟨rfl, hp⟩
    exact hp

omit [DecidableEq C] in
/-- Equivalent keys have one cell, since they have one bucket. -/
theorem State.cell_congr [TransCmp cmp] (s : State C V L) {k k' : K} (h : cmp k k' = .eq) :
    s.cell k = s.cell k' := by
  rw [State.cell, State.cell, getBucket, getBucket, L.bucketIndex_congr k k' h]
  exact ConcurrentBucket.cell_congr _ h

/-! ## The pairs found

A bucket is read as a whole under its lock, at some moment of the traversal. What is found there was
bound at that moment, and what was bound all along is found. -/

/-- What holds of the pairs found in the buckets `is` of a traversal that began in `s₁`, when the
schedule since then is `mid`. `bound` and `kept` are the two sides: nothing is found that was not
there, and nothing missed that was there all along. -/
structure Found (Compare : V → V → Bool) (s₁ : State C V L) (mid : List (Action C K V))
    (is : List (Fin L.bucketNums)) (seen : List (K × V)) : Prop where
  distinct : DistinctKeys cmp seen
  home : ∀ p ∈ seen, L.bucketIndex p.1 ∈ is
  bound : ∀ p ∈ seen, (clients C Compare L).Sometime (fun s => s.cell p.1 = some p) s₁ mid
  kept : ∀ k, L.bucketIndex k ∈ is →
    (clients C Compare L).Throughout (fun s => (s.cell k).isSome = true) s₁ mid →
    ∃ p ∈ seen, cmp p.1 k = .eq

section Found

variable {mid : List (Action C K V)} {is : List (Fin L.bucketNums)} {seen : List (K × V)}

theorem found_nil : Found Compare s₁ mid [] [] where
  distinct := List.Pairwise.nil
  home _ hp := absurd hp List.not_mem_nil
  bound _ hp := absurd hp List.not_mem_nil
  kept _ hk := absurd hk List.not_mem_nil

theorem Found.append (h : Found Compare s₁ mid is seen) (post : List (Action C K V)) :
    Found Compare s₁ (mid ++ post) is seen where
  distinct := h.distinct
  home := h.home
  bound p hp := (h.bound p hp).append post
  kept k hk hall := h.kept k hk hall.of_append

/-- The next bucket is entered. -/
theorem Found.visit [TransCmp cmp] (h : Found Compare s₁ mid is seen)
    (hmid : (clients C Compare L).runFrom s₁ mid = some s) (hplaced : Placed s)
    {i : Fin L.bucketNums} (hi : i ∉ is) :
    Found Compare s₁ mid (is ++ [i]) (seen ++ (s.map.buckets_ i).map_.toList) where
  distinct := by
    refine List.pairwise_append.mpr ⟨h.distinct, TreeMap.distinct_keys_toList, ?_⟩
    -- the same key would hash to two buckets
    intro p hp q hq heq
    have hqi := (hplaced.mem_toList_iff.mp hq).1
    rw [← L.bucketIndex_congr _ _ heq] at hqi
    exact hi (hqi ▸ h.home p hp)
  home p hp := by
    rcases List.mem_append.mp hp with hp | hp
    · exact List.mem_append_left [i] (h.home p hp)
    · rw [(hplaced.mem_toList_iff.mp hp).1]
      exact List.mem_append_right is (List.mem_singleton.mpr rfl)
  bound p hp := by
    rcases List.mem_append.mp hp with hp | hp
    · exact h.bound p hp
    · exact Machine.Sometime.last hmid (hplaced.mem_toList_iff.mp hp).2
  kept k hk hall := by
    rcases List.mem_append.mp hk with hk | hk
    · obtain ⟨p, hp, heq⟩ := h.kept k hk hall
      exact ⟨p, List.mem_append_left _ hp, heq⟩
    · obtain ⟨p, hp⟩ := Option.isSome_iff_exists.mp (hall.last hmid)
      obtain rfl := List.mem_singleton.mp hk
      have heq : cmp p.1 k = .eq := cell_key hp
      refine ⟨p, List.mem_append_right seen (hplaced.mem_toList_iff.mpr ⟨?_, ?_⟩), heq⟩
      · exact L.bucketIndex_congr _ _ heq
      · rw [s.cell_congr heq, hp]

end Found

/-- Distinct keys, all among the pairs of a list, are not more than the list has. -/
theorem length_le_of_distinct [TransCmp cmp] {ks : List K} {list : List (K × V)}
    (hks : ks.Pairwise fun a b => cmp a b ≠ .eq)
    (h : ∀ k ∈ ks, ∃ p ∈ list, cmp p.1 k = .eq) : ks.length ≤ list.length := by
  induction ks generalizing list with
  | nil => exact Nat.zero_le _
  | cons k ks ih =>
    obtain ⟨hk, hks⟩ := List.pairwise_cons.mp hks
    obtain ⟨p, hp, heq⟩ := h k List.mem_cons_self
    obtain ⟨front, back, rfl⟩ := List.append_of_mem hp
    -- the pair of `k` is the pair of no other key
    have hrest : ∀ k' ∈ ks, ∃ q ∈ front ++ back, cmp q.1 k' = .eq := by
      intro k' hk'
      obtain ⟨q, hq, heq'⟩ := h k' (List.mem_cons_of_mem k hk')
      refine ⟨q, ?_, heq'⟩
      rcases List.mem_append.mp hq with hq | hq
      · exact List.mem_append_left back hq
      · rcases List.mem_cons.mp hq with rfl | hq
        · exact absurd (TransCmp.eq_trans (OrientedCmp.eq_symm heq) heq') (hk k' hk')
        · exact List.mem_append_right front hq
    have hle := ih hks hrest
    rw [List.length_append] at hle
    rw [List.length_cons, List.length_append, List.length_cons]
    omega

/-! ## The traversal

The moments differ from bucket to bucket, so the answer need not be a state that the map was ever
in. What can be said is said key by key. -/

/-- The call `id` of `c` is a traversal that has found pairs in the buckets it has entered. -/
def Traverses (Compare : V → V → Bool) (sec : Section K V) (mk : List (K × V) → Ret K V)
    (c : C) (id : Nat) (s₁ : State C V L) (mid : List (Action C K V)) (s : State C V L) : Prop :=
  ∀ op todo acc, s.clients c = .running id op todo acc →
    ∃ is js seen, List.finRange L.bucketNums = is ++ js ∧ todo = js.map (fun i => (i, sec)) ∧
      acc = mk seen ∧ Found Compare s₁ mid is seen

section Traverses

variable {sec : Section K V} {mk : List (K × V) → Ret K V} {c : C} {id : Nat}
  {mid : List (Action C K V)}

/-- The traversal enters its next bucket and finds what is in it now. Steps of the others change
neither what it has found nor the buckets that are still in front of it. -/
theorem Traverses.step [TransCmp cmp] (h : Traverses Compare sec mk c id s₁ mid s)
    (hsec : ∀ (seen : List (K × V)) (b : ConcurrentBucket K V cmp),
      sec.enter Compare (mk seen) b = (mk (seen ++ b.map_.toList), b))
    (hmid : (clients C Compare L).runFrom s₁ mid = some s) (hplaced : Placed s)
    (hid : id < s.hist.length) {a : Action C K V} (hs : step Compare s a = some s') :
    Traverses Compare sec mk c id s₁ (mid ++ [a]) s' := by
  have hkept : ∀ op todo acc, s.clients c = .running id op todo acc →
      ∃ is js seen, List.finRange L.bucketNums = is ++ js ∧ todo = js.map (fun i => (i, sec)) ∧
        acc = mk seen ∧ Found Compare s₁ (mid ++ [a]) is seen := by
    intro op todo acc hrun
    obtain ⟨is, js, seen, hij, htodo, hacc, hfound⟩ := h op todo acc hrun
    exact ⟨is, js, seen, hij, htodo, hacc, hfound.append [a]⟩
  intro op todo acc hrun
  cases a with
  | call c' op' =>
    obtain ⟨-, rfl⟩ := step_call hs
    by_cases hc : c = c'
    · -- a call that begins now has another name
      subst hc
      simp only [Function.update_self, Client.running.injEq] at hrun
      omega
    · simp only [Function.update_of_ne hc] at hrun
      exact hkept _ _ _ hrun
  | ret c' =>
    obtain ⟨id', op', acc', -, rfl⟩ := step_ret hs
    by_cases hc : c = c'
    · subst hc
      simp at hrun
    · simp only [Function.update_of_ne hc] at hrun
      exact hkept _ _ _ hrun
  | enter c' =>
    obtain ⟨id', op', i, sec', todo', acc', hrun', rfl⟩ := step_enter hs
    by_cases hc : c = c'
    · subst hc
      simp only [Function.update_self, Client.running.injEq] at hrun
      obtain ⟨rfl, rfl, rfl, rfl⟩ := hrun
      obtain ⟨is, js, seen, hij, htodo, rfl, hfound⟩ := h _ _ _ hrun'
      cases js with
      | nil => cases htodo
      | cons j js =>
        obtain ⟨hij', rfl⟩ := List.cons.inj htodo
        obtain ⟨rfl, rfl⟩ := Prod.mk.inj hij'
        have hnew : i ∉ is := by
          have hnodup := List.nodup_finRange L.bucketNums
          rw [hij] at hnodup
          exact fun hi => (List.disjoint_of_nodup_append hnodup) hi List.mem_cons_self
        refine ⟨is ++ [i], js, seen ++ (s.map.buckets_ i).map_.toList, ?_, rfl, ?_, ?_⟩
        · rw [hij, List.append_assoc]
          rfl
        · rw [hsec]
        · exact (hfound.visit hmid hplaced hnew).append _
    · simp only [Function.update_of_ne hc] at hrun
      exact hkept _ _ _ hrun

theorem length_hist_step {a : Action C K V} (hs : step Compare s a = some s') :
    s'.hist.length = s.hist.length + 1 := by
  cases a with
  | call c op =>
    obtain ⟨-, rfl⟩ := step_call hs
    exact List.length_append
  | ret c =>
    obtain ⟨id, op, acc, -, rfl⟩ := step_ret hs
    exact List.length_append
  | enter c =>
    obtain ⟨id, op, i, sec, todo, acc, -, rfl⟩ := step_enter hs
    exact List.length_append

variable (mk) in
/-- What a traversal returns is made of the pairs found in all buckets. -/
theorem found_of_call [TransCmp cmp] {op : Op K V} {s₀ s₂ s₃ : State C V L} {r : Ret K V}
    (hplan : op.plan L = Op.eachBucket L fun _ => sec) (hstart : op.start = mk [])
    (hsec : ∀ (seen : List (K × V)) (b : ConcurrentBucket K V cmp),
      sec.enter Compare (mk seen) b = (mk (seen ++ b.map_.toList), b))
    (h₀ : (clients C Compare L).Reachable s₀)
    (hcall : (clients C Compare L).step s₀ (.call c op) = some s₁)
    (hmid : (clients C Compare L).runFrom s₁ mid = some s₂)
    (hret : (clients C Compare L).step s₂ (.ret c) = some s₃)
    (hr : s₃.hist = s₂.hist ++ [.ret c s₀.hist.length r]) :
    ∃ seen, r = mk seen ∧ Found Compare s₁ mid (List.finRange L.bucketNums) seen := by
  have h₁ := h₀.step hcall
  have hcall : step Compare s₀ (.call c op) = some s₁ := hcall
  have hret : step Compare s₂ (.ret c) = some s₃ := hret
  -- along the run: the buckets entered so far, and the pairs found in them
  have hrun : s₀.hist.length < s₂.hist.length ∧
      Traverses Compare sec mk c s₀.hist.length s₁ mid s₂ := by
    refine Machine.runFrom_induction (M := clients C Compare L)
      (P := fun mid s => s₀.hist.length < s.hist.length ∧
        Traverses Compare sec mk c s₀.hist.length s₁ mid s) ?_ ?_ hmid
    · refine ⟨by rw [length_hist_step hcall]; exact Nat.lt_succ_self _, ?_⟩
      obtain ⟨-, rfl⟩ := step_call hcall
      intro op' todo acc hrun
      simp only [Function.update_self, Client.running.injEq] at hrun
      obtain ⟨-, rfl, rfl, rfl⟩ := hrun
      exact ⟨[], List.finRange L.bucketNums, [], rfl, hplan, hstart, found_nil⟩
    · intro mid s a s' hmid h hs
      have hplaced := placed_of_reachable (h₁.runFrom hmid)
      refine ⟨?_, h.2.step hsec hmid hplaced h.1 hs⟩
      rw [length_hist_step hs]
      exact Nat.lt_succ_of_lt h.1
  obtain ⟨id, op', acc, hclient, rfl⟩ := step_ret hret
  obtain ⟨rfl, rfl⟩ : id = s₀.hist.length ∧ acc = r := by
    simpa using List.append_cancel_left hr
  obtain ⟨is, js, seen, hij, htodo, rfl, hfound⟩ := hrun.2 _ _ _ hclient
  -- at the return no bucket is left
  obtain rfl := List.map_eq_nil_iff.mp htodo.symm
  rw [hij, List.append_nil]
  exact ⟨seen, rfl, hfound⟩

end Traverses

/-- **Traversals are weakly consistent.** Let `c` call `op` in `s₀`, let everybody go on by `mid`
from there, and let `c` then get the answer `r` to this call. If `op` is `GetAllKey`, no key is
returned twice, every returned pair was bound at some moment of the call, and every key that
stayed bound during the call is returned. If it is `Size`, the number is at least that of the keys
that stayed bound and at most that of the keys bound at some moment. -/
theorem traversals_weakly_consistent [TransCmp cmp] (Compare : V → V → Bool) (L : Layout K cmp)
    (c : C) (op : Op K V) (mid : List (Action C K V)) (r : Ret K V) (s₀ s₁ s₂ s₃ : State C V L)
    (h₀ : (clients C Compare L).Reachable s₀)
    (hcall : (clients C Compare L).step s₀ (.call c op) = some s₁)
    (hmid : (clients C Compare L).runFrom s₁ mid = some s₂)
    (hret : (clients C Compare L).step s₂ (.ret c) = some s₃)
    (hr : s₃.hist = s₂.hist ++ [.ret c s₀.hist.length r]) :
    (∀ list, op = .getAllKey list → ∃ found, r = .list found ∧ DistinctKeys cmp found ∧
      (∀ p ∈ found, (clients C Compare L).Sometime (fun s => s.cell p.1 = some p) s₁ mid) ∧
      ∀ k, (clients C Compare L).Throughout (fun s => (s.cell k).isSome = true) s₁ mid →
        ∃ p ∈ found, cmp p.1 k = .eq) ∧
    (op = .size → ∃ total, r = .size total ∧
      (∀ ks : List K, ks.Pairwise (fun a b => cmp a b ≠ .eq) →
        (∀ k ∈ ks, (clients C Compare L).Throughout (fun s => (s.cell k).isSome = true) s₁ mid) →
        ks.length ≤ total) ∧
      ∃ ks : List K, ks.Pairwise (fun a b => cmp a b ≠ .eq) ∧
        (∀ k ∈ ks, (clients C Compare L).Sometime (fun s => (s.cell k).isSome = true) s₁ mid) ∧
        total ≤ ks.length) := by
  constructor
  · rintro list rfl
    obtain ⟨found, rfl, hfound⟩ :=
      found_of_call .list rfl rfl (fun _ _ => rfl) h₀ hcall hmid hret hr
    refine ⟨found, rfl, hfound.distinct, hfound.bound, fun k hk => ?_⟩
    exact hfound.kept k (List.mem_finRange _) hk
  · rintro rfl
    -- `Size` counts what `GetAllKey` would have found
    have hsec : ∀ (seen : List (K × V)) (b : ConcurrentBucket K V cmp),
        Section.size.enter Compare (.size seen.length) b
          = (.size (seen ++ b.map_.toList).length, b) := by
      intro seen b
      rw [List.length_append, TreeMap.length_toList]
      rfl
    obtain ⟨found, rfl, hfound⟩ :=
      found_of_call (fun seen => .size seen.length) rfl rfl hsec h₀ hcall hmid hret hr
    refine ⟨found.length, rfl, fun ks hks hall => ?_, found.map Prod.fst, ?_, ?_, ?_⟩
    · exact length_le_of_distinct hks fun k hk => hfound.kept k (List.mem_finRange _) (hall k hk)
    · exact List.pairwise_map.mpr hfound.distinct
    · intro k hk
      obtain ⟨p, hp, rfl⟩ := List.mem_map.mp hk
      refine (hfound.bound p hp).imp fun s hs => ?_
      rw [hs]
      rfl
    · exact (List.length_map Prod.fst).ge

/-! ### A traversal among writes

A map with two buckets and a traversal that comes to the second one when the first has been written
to. What it returns is none of the states of the map. -/

/-- Two keys are bound before the call. Between its two sections the odd one is removed, and then
an even and an odd one are added. -/
def evenOddBefore : List (Action Bool Nat Nat) :=
  [.call false (.insertKeyBatch [(1, 10), (2, 20)]), .enter false, .enter false, .ret false]

def evenOddDuring : List (Action Bool Nat Nat) :=
  [.enter true, .call false (.delete 1), .enter false, .ret false, .call false (.insert 4 40),
    .enter false, .ret false, .call false (.insert 3 30), .enter false, .enter true]

/-- What a call of `Client` has in hand that has no section left to enter. -/
def Client.answer {K V : Type} {cmp : K → K → Ordering} {L : Layout K cmp} :
    Client V L → Option (Nat × Ret K V)
  | .idle => none
  | .running id _ todo acc => if todo.isEmpty then some (id, acc) else none

theorem Client.answer_cases {K V : Type} {cmp : K → K → Ordering} {L : Layout K cmp}
    {client : Client V L} {id : Nat} {acc : Ret K V} (h : client.answer = some (id, acc)) :
    ∃ op, client = .running id op [] acc := by
  cases client with
  | idle => cases h
  | running id' op todo acc' =>
    cases todo with
    | nil =>
      obtain ⟨rfl, rfl⟩ := Prod.mk.inj (Option.some.inj h)
      exact ⟨op, rfl⟩
    | cons section_ todo => cases h

theorem traversals_weakly_consistent_evenOdd :
    ∃ s₁ : State Bool Nat evenOdd,
      (clients Bool (fun a b : Nat => a < b) evenOdd).run
        (evenOddBefore ++ [.call true (.getAllKey [(8, 8)])]) = some s₁ ∧
      DistinctKeys compare [(2, 20), (3, 30)] ∧
      (∀ p ∈ [(2, 20), (3, 30)], (clients Bool (fun a b : Nat => a < b) evenOdd).Sometime
        (fun s => s.cell p.1 = some p) s₁ evenOddDuring) := by
  obtain ⟨s₂, hs₂⟩ := Option.isSome_iff_exists.mp
    (show ((clients Bool (fun a b : Nat => decide (a < b)) evenOdd).run
      ((evenOddBefore ++ [.call true (.getAllKey [(8, 8)])]) ++ evenOddDuring)).isSome = true by
        decide)
  have hend : ((clients Bool (fun a b : Nat => decide (a < b)) evenOdd).run
      ((evenOddBefore ++ [.call true (.getAllKey [(8, 8)])]) ++ evenOddDuring)).map
        (fun s => (s.clients true).answer) = some (some (4, .list [(2, 20), (3, 30)])) := by decide
  rw [hs₂, Option.map_some, Option.some.injEq] at hend
  obtain ⟨s₁, hs₁, hmid⟩ := Machine.run_append.mp hs₂
  obtain ⟨s₀, hs₀, hcall⟩ := Machine.run_snoc.mp hs₁
  have hlen : ((clients Bool (fun a b : Nat => decide (a < b)) evenOdd).run evenOddBefore).map
      (fun s => s.hist.length) = some 4 := by decide
  rw [hs₀, Option.map_some, Option.some.injEq] at hlen
  obtain ⟨op, hclient⟩ := Client.answer_cases hend
  have hret : (clients Bool (fun a b : Nat => decide (a < b)) evenOdd).step s₂ (.ret true)
      = some { s₂ with
        clients := Function.update s₂.clients true .idle
        hist := s₂.hist ++ [.ret true 4 (.list [(2, 20), (3, 30)])] } := by
    show step (fun a b : Nat => decide (a < b)) s₂ (.ret true) = _
    rw [step, hclient]
  obtain ⟨found, hfound, hdistinct, hbound, -⟩ :=
    (traversals_weakly_consistent (fun a b : Nat => decide (a < b)) evenOdd true
      (.getAllKey [(8, 8)]) evenOddDuring (.list [(2, 20), (3, 30)]) s₀ s₁ s₂ _
      ⟨_, hs₀⟩ hcall hmid hret (by rw [hlen])).1 [(8, 8)] rfl
  obtain rfl := Ret.list.inj hfound
  exact ⟨s₁, hs₁, hdistinct, hbound⟩

end CppDone.ConcurrentMap
