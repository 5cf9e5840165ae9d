import CppDone.WorkThread.Pool

/-!
# The cursor of `ThreadPool`

`PostWork` takes the workers in turn: it goes back to the first one when the cursor is behind
`threads_size_`, and takes the one at the cursor. So the cursor runs through `threads_size_ + 1`
places, and `threads_size_` is what `StartPool` was given. How many workers there are is another
matter. `MakeWorkThread` counts from `num` to what is left of the hardware threads after `num`, and
so makes fewer of them the more are asked for.

`cursor_in_range_iff` says for which numbers the two agree. It is about the part of `PostWork`
behind its test of `stop_`, as if a flag that is never cleared were no matter.
-/

set_option autoImplicit false

namespace CppDone.WorkThread

/-- Executions of `PostWork` behind its test, one after the other, after `StartPool(num)`. Each is
given its id. -/
def enqueues (num max_threads : Nat) : Machine ThreadPool Nat where
  init := ThreadPool.init.startPool num max_threads
  step p work_id := (p.enqueue work_id).map Prod.fst

namespace ThreadPool

/-- `workers_[offset_]` is there when it is used. -/
def InRange (p : ThreadPool) (_ : Nat) : Prop := p.wrap.offset_ < p.workers_.length

instance (p : ThreadPool) (work_id : Nat) : Decidable (p.InRange work_id) :=
  inferInstanceAs (Decidable (_ < _))

/-- The workers that `MakeWorkThread` makes. -/
def made (num max_threads : Nat) : Nat :=
  if max_threads ≤ num % UInt32.size then 0
  else max_threads - num % UInt32.size + 1 - num

theorem startPool_init (num max_threads : Nat) :
    init.startPool num max_threads =
      { init with threads_size_ := num % UInt32.size,
                  workers_ := List.replicate (made num max_threads) View.started } := by
  unfold startPool makeWorkThread made
  split
  · rfl
  · rw [foldl_addWorker, List.length_range']
    rfl

variable {p p' : ThreadPool}

/-- The only thing that can go wrong is the access. -/
theorem inRange_iff {work_id : Nat} :
    p.InRange work_id ↔ ∃ q, p.enqueue work_id = some q := by
  rw [enqueue_eq]
  constructor
  · intro h
    rw [List.getElem?_eq_getElem h]
    exact ⟨_, rfl⟩
  · rintro ⟨q, hq⟩
    obtain ⟨worker, hworker, -⟩ := Option.map_eq_some_iff.mp hq
    exact lt_length_of_getElem? hworker

/-! ## The cursor turns

Behind `k` executions the cursor, read behind its wrap, is `k` modulo `threads_size_ + 1`. So it
goes through one place more than the number that was given. -/

/-- After `k` executions in a pool of size `size`. The cursor is read behind its wrap, as the access
reads it. -/
structure Turned (p : ThreadPool) (size workers k : Nat) : Prop where
  threads_size_ : p.threads_size_ = size
  workers_ : p.workers_.length = workers
  cursor : p.wrap.offset_ = k % (size + 1)

theorem succ_mod_succ (k n : Nat) :
    (k + 1) % (n + 1) = if k % (n + 1) = n then 0 else k % (n + 1) + 1 := by
  have hlt : k % (n + 1) < n + 1 := Nat.mod_lt k n.succ_pos
  rw [← Nat.mod_add_mod]
  split
  · next hlast =>
    rw [hlast]
    exact Nat.mod_self (n + 1)
  · next hlast =>
    apply Nat.mod_eq_of_lt
    omega

/-- The increment and the next wrap take the cursor to the next place, or to the first. -/
theorem offset_wrap {size c : Nat} (hsize : size < UInt32.size) (hp : p.threads_size_ = size)
    (hc : c ≤ size) (ho : p.offset_ = (c + 1) % UInt32.size) :
    p.wrap.offset_ = if c = size then 0 else c + 1 := by
  by_cases hlast : c = size
  · rw [if_pos hlast]
    by_cases hfull : c + 1 = UInt32.size
    · -- the increment itself overflows
      have hzero : p.offset_ = 0 := by
        rw [ho, hfull]
        exact Nat.mod_self _
      rw [wrap, if_neg (by omega)]
      exact hzero
    · have hbehind : p.offset_ = c + 1 := by
        rw [ho]
        apply Nat.mod_eq_of_lt
        omega
      rw [wrap, if_pos (by omega)]
  · rw [if_neg hlast]
    have hnext : p.offset_ = c + 1 := by
      rw [ho]
      apply Nat.mod_eq_of_lt
      omega
    rw [wrap, if_neg (by omega)]
    exact hnext

theorem Turned.enqueue {size workers k work_id : Nat} (hsize : size < UInt32.size)
    (h : p.Turned size workers k) (hs : (p.enqueue work_id).map Prod.fst = some p') :
    p'.Turned size workers (k + 1) := by
  rw [enqueue_eq, Option.map_map] at hs
  obtain ⟨worker, -, rfl⟩ := Option.map_eq_some_iff.mp hs
  have hle : p.wrap.offset_ ≤ size := by
    rw [h.cursor]
    exact Nat.le_of_lt_succ (Nat.mod_lt k size.succ_pos)
  refine ⟨h.threads_size_, ?_, ?_⟩
  · simp only [Function.comp_apply, List.length_set]
    exact h.workers_
  · refine (offset_wrap hsize ?_ hle rfl).trans ?_
    · exact h.threads_size_
    · rw [succ_mod_succ, h.cursor]

end ThreadPool

section Runs

variable {num max_threads : Nat}

/-! ## Runs

A run goes on as long as the cursor is at a worker that there is. With fewer workers than places it
breaks off before the cursor has been round once. -/

theorem size_lt (num : Nat) : num % UInt32.size < UInt32.size := Nat.mod_lt num (by decide)

theorem turned_init :
    (enqueues num max_threads).init.Turned (num % UInt32.size)
      (ThreadPool.made num max_threads) 0 := by
  show (ThreadPool.init.startPool num max_threads).Turned _ _ _
  rw [ThreadPool.startPool_init]
  refine ⟨rfl, List.length_replicate, ?_⟩
  rw [Nat.zero_mod]
  exact congrArg ThreadPool.offset_ (if_neg (Nat.not_lt_zero _))

theorem turned_of_run {work_ids : List Nat} {p : ThreadPool}
    (h : (enqueues num max_threads).run work_ids = some p) :
    p.Turned (num % UInt32.size) (ThreadPool.made num max_threads) work_ids.length := by
  refine Machine.run_induction (P := fun as p => p.Turned (num % UInt32.size)
    (ThreadPool.made num max_threads) as.length) turned_init ?_ h
  intro as p a p' _ hp hs
  rw [List.length_append, List.length_singleton]
  exact hp.enqueue (size_lt num) hs

/-- As long as every access is in range, the executions go on. -/
theorem run_of_meets {work_ids : List Nat}
    (h : (enqueues num max_threads).Meets ThreadPool.InRange work_ids) :
    ∃ p, (enqueues num max_threads).run work_ids = some p := by
  induction work_ids using List.reverseRecOn with
  | nil => exact ⟨_, rfl⟩
  | append_singleton work_ids work_id ih =>
    obtain ⟨p, hp⟩ := ih h.of_append
    obtain ⟨q, hq⟩ := ThreadPool.inRange_iff.mp (h work_ids work_id [] p rfl hp)
    refine ⟨q.1, Machine.run_snoc.mpr ⟨p, hp, ?_⟩⟩
    exact Option.map_eq_some_iff.mpr ⟨q, hq, rfl⟩

/-- The cursor is in range exactly as long as it has not come to as many places as there are
workers. -/
theorem meets_inRange_iff (work_ids : List Nat) :
    (enqueues num max_threads).Meets ThreadPool.InRange work_ids ↔
      min work_ids.length (num % UInt32.size + 1) ≤ ThreadPool.made num max_threads := by
  constructor
  · intro h
    apply Nat.le_of_not_lt
    intro hfew
    -- the execution that comes to the first place without a worker
    have hlt : ThreadPool.made num max_threads < work_ids.length :=
      Nat.lt_of_lt_of_le hfew (Nat.min_le_left _ _)
    obtain ⟨work_id, post, hsplit⟩ : ∃ work_id post, work_ids =
        work_ids.take (ThreadPool.made num max_threads) ++ work_id :: post := by
      refine ⟨work_ids[ThreadPool.made num max_threads],
        work_ids.drop (ThreadPool.made num max_threads + 1), ?_⟩
      rw [List.getElem_cons_drop, List.take_append_drop]
    have hpre : (enqueues num max_threads).Meets ThreadPool.InRange
        (work_ids.take (ThreadPool.made num max_threads)) := by
      rw [hsplit] at h
      exact h.of_append
    obtain ⟨p, hp⟩ := run_of_meets hpre
    have hrange := h _ work_id post p hsplit hp
    have hturned := turned_of_run hp
    rw [ThreadPool.InRange, hturned.cursor, hturned.workers_,
      List.length_take_of_le (Nat.le_of_lt hlt),
      Nat.mod_eq_of_lt (Nat.lt_of_lt_of_le hfew (Nat.min_le_right _ _))] at hrange
    exact Nat.lt_irrefl _ hrange
  · intro hmany pre work_id post p hsplit hp
    have hturned := turned_of_run hp
    rw [ThreadPool.InRange, hturned.cursor, hturned.workers_]
    refine Nat.lt_of_lt_of_le (Nat.lt_min.mpr ⟨?_, Nat.mod_lt _ (Nat.succ_pos _)⟩) hmany
    rw [hsplit, List.length_append, List.length_cons]
    have hle := Nat.mod_le pre.length (num % UInt32.size + 1)
    omega

/-- **The cursor names an existing worker** in all of any number of executions exactly when there
is none, or the workers are as many as the places it comes to. -/
theorem cursor_in_range_iff (num max_threads : Nat) (hnum : 1 ≤ num) (work_ids : List Nat) :
    (enqueues num max_threads).Meets ThreadPool.InRange work_ids ↔
      work_ids = [] ∨
        min work_ids.length (num % UInt32.size + 1) + num % UInt32.size + num
          ≤ max_threads + 1 := by
  rw [meets_inRange_iff, ThreadPool.made, ← List.length_eq_zero_iff]
  generalize num % UInt32.size = size
  split <;> omega

theorem cursor_in_range_one : (enqueues 1 3).Meets ThreadPool.InRange [7, 8, 9] :=
  (cursor_in_range_iff 1 3 (Nat.le_refl 1) [7, 8, 9]).mpr (by decide)

/-- **One worker, two places**: the second execution goes behind the end. -/
theorem cursor_out_of_range : ¬ (enqueues 1 2).Meets ThreadPool.InRange [7, 8] := by
  decide

end Runs

end CppDone.WorkThread
