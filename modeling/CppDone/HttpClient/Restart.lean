import CppDone.HttpClient.PoolThreads
import Mathlib.Data.List.Nodup

/-!
# Stopping and starting `net::ThreadPool` again

A life of the pool is a list of calls of `start` and `stop`, and at its end the destructor, which
calls `stop` if the pool runs. `stop` goes through `threads_` and calls `join` on each member; it
neither takes the members out nor looks whether they were joined before. So the threads of the
first `start` are joined once more by the second `stop`, whoever calls it.

The calls of `Thread::join` are recorded beside the run, by the worker whose thread is joined.
-/

set_option autoImplicit false

namespace CppDone.Net.ThreadPool

variable {T : Type} {m : Nat} {s s' t : State T}

/-! ## The life of a pool

The calls of `start` and `stop` that a program makes, without what the threads do in between. Only
such lives are looked at as the pool is meant for: one `start` with threads before each `stop`. -/

/-- What a program does with a pool, as far as its life goes. -/
inductive LifeCall where
  | start (numThreads : Nat)
  | stop
deriving DecidableEq, Repr

def LifeCall.isStop : LifeCall → Bool
  | .start _ => false
  | .stop => true

def Action.lifeCall : Action T → Option LifeCall
  | .start numThreads => some (.start numThreads)
  | .stop => some .stop
  | _ => none

def lifeCalls (as : List (Action T)) : List LifeCall := as.filterMap Action.lifeCall

/-- `start` is called with one thread at least, and only while the pool does not run. -/
def Proper : Bool → List LifeCall → Prop
  | _, [] => True
  | running_, .start numThreads :: cs => running_ = false ∧ 1 ≤ numThreads ∧ Proper true cs
  | _, .stop :: cs => Proper false cs

/-- `running_` behind the calls. -/
def runningAfter : Bool → List LifeCall → Bool
  | running_, [] => running_
  | _, .start _ :: cs => runningAfter true cs
  | _, .stop :: cs => runningAfter false cs

/-- The calls of `start` and `stop` until the pool is destroyed: `~ThreadPool` tests `running_`. -/
def destroyed (running_ : Bool) (cs : List LifeCall) : List LifeCall :=
  cs ++ if runningAfter running_ cs then [.stop] else []

/-- The worker whose thread the step calls `Thread::join` on. -/
def State.joinCall (s : State T) : Action T → Option Nat
  | .join =>
    match s.control with
    | .joining i => s.threads_[i]?.map Thread.worker
    | _ => none
  | _ => none

/-- The calls of `Thread::join` from `s` on. -/
def joinCallsFrom (m : Nat) : State T → List (Action T) → List Nat
  | _, [] => []
  | s, a :: as =>
    match s.step m a with
    | some s' => (s.joinCall a).toList ++ joinCallsFrom m s' as
    | none => []

def joinCalls (m : Nat) (as : List (Action T)) : List Nat := joinCallsFrom m .init as

/-- However the threads interleave: no thread is joined again, and when the destructor is through,
every thread that was created is joined once. In the middle of a life some threads may not be joined
yet, but none twice. -/
def JoinsOnce (T : Type) (m : Nat) (cs : List LifeCall) : Prop :=
  ∀ (as : List (Action T)) (s : State T), (pool T m).run as = some s →
    lifeCalls as <+: destroyed false cs →
    (joinCalls m as).Nodup ∧
      (lifeCalls as = destroyed false cs → s.control = .idle →
        ∀ w < s.workers.length, (joinCalls m as).count w = 1)

/-! ### Calls and joins of a run

Both are read off the schedule. A run that goes on has a call more or none, and a join more or none.
-/

theorem lifeCalls_append (as bs : List (Action T)) :
    lifeCalls (as ++ bs) = lifeCalls as ++ lifeCalls bs :=
  List.filterMap_append

theorem lifeCalls_snoc (as : List (Action T)) (a : Action T) :
    lifeCalls (as ++ [a]) = lifeCalls as ++ a.lifeCall.toList := by
  rw [lifeCalls_append]
  cases a with
  | _ => rfl

/-- The joins of two runs, one behind the other. What the first one has come to decides which
threads the second one joins. -/
theorem joinCallsFrom_append {as bs : List (Action T)}
    (h : (pool T m).runFrom s as = some t) :
    joinCallsFrom m s (as ++ bs) = joinCallsFrom m s as ++ joinCallsFrom m t bs := by
  induction as generalizing s with
  | nil =>
    obtain rfl : s = t := by simpa using h
    rfl
  | cons a as ih =>
    obtain ⟨s', hs', h'⟩ := Option.bind_eq_some_iff.mp h
    have hs'' : s.step m a = some s' := hs'
    rw [List.cons_append, joinCallsFrom, joinCallsFrom, hs'']
    dsimp only
    rw [ih h', List.append_assoc]

/-- One step adds one join or none. -/
theorem joinCalls_snoc {as : List (Action T)} {a : Action T} (h : (pool T m).run as = some s)
    (hs : s.step m a = some s') :
    joinCalls m (as ++ [a]) = joinCalls m as ++ (s.joinCall a).toList := by
  have hone : joinCallsFrom m s [a] = (s.joinCall a).toList := by
    simp [joinCallsFrom, hs]
  rw [← hone]
  exact joinCallsFrom_append h

theorem runningAfter_snoc (running_ : Bool) (cs : List LifeCall) (c : LifeCall) :
    runningAfter running_ (cs ++ [c]) = !c.isStop := by
  induction cs generalizing running_ with
  | nil =>
    cases c with
    | start numThreads => rfl
    | stop => rfl
  | cons c' cs ih =>
    cases c' with
    | start numThreads => exact ih true
    | stop => exact ih false

/-- Nothing but `start` and `stop` writes `running_`. -/
theorem running_lifeCall {a : Action T} (hs : s.step m a = some s') :
    s'.running_ = (a.lifeCall.map fun c => !c.isStop).getD s.running_ := by
  cases hctl : a.isControl with
  | false =>
    rw [(State.step_frame hctl hs).1]
    cases a with
    | start | stop => cases hctl
    | _ => rfl
  | true =>
    cases a with
    | start numThreads =>
      obtain ⟨-, rfl⟩ := State.start_cases hs
      rfl
    | spawn => obtain ⟨-, rfl⟩ | ⟨turns, -, rfl⟩ := State.spawn_cases hs <;> rfl
    | pushBack =>
      obtain ⟨worker, turns, -, rfl⟩ := State.pushBack_cases hs
      rfl
    | stop =>
      obtain ⟨-, rfl⟩ := State.stop_cases hs
      rfl
    | join =>
      obtain ⟨i, -, ⟨-, rfl⟩ | ⟨thread, -, ⟨-, rfl⟩ | ⟨-, -, rfl⟩⟩⟩ := State.join_cases hs
      · rfl
      · rfl
      · rfl
    | _ => cases hctl

/-- The flag that the destructor tests. -/
theorem running_of_run {as : List (Action T)} (h : (pool T m).run as = some s) :
    s.running_ = runningAfter false (lifeCalls as) := by
  refine Machine.run_induction (P := fun as s => s.running_ = runningAfter false (lifeCalls as))
    rfl ?_ h
  intro as s a s' _ ih hs
  rw [running_lifeCall hs, lifeCalls_snoc]
  cases a.lifeCall with
  | none =>
    rw [Option.toList_none, List.append_nil]
    exact ih
  | some c =>
    rw [Option.toList_some, runningAfter_snoc]
    rfl

/-! ## One start and one stop

A pool goes through stages. Before the first `start` and between it and its `stop` nothing is
joined; in the loop of joins the threads before the index are; behind it all are. Each stage is kept
by what the threads do, and the calls lead from one to the next. -/

/-- The members of `threads_` are the workers in their order, but for one that is not in there yet;
the first `i` are joined, and these joins are all there were. So the joins are those of the workers
`0` to `i - 1`, each once and in this order. -/
structure JoinedTo (s : State T) (joins : List Nat) (i : Nat) : Prop where
  joins : joins = List.range i
  numbered : ∀ j thread, s.threads_[j]? = some thread →
    thread.worker = j ∧ (thread.joined_ = true ↔ j < i)
  pushing : ∀ w turns, s.control = .pushing w turns →
    w = s.threads_.length ∧ s.workers.length = s.threads_.length + 1
  settled : (∀ w turns, s.control ≠ .pushing w turns) → s.workers.length = s.threads_.length

/-- Where a pool is that was never started, that was started, and that was stopped after that. A
`stop` may come before any `start`, and finds no thread to join. -/
inductive Stage (s : State T) (joins : List Nat) : Nat → Prop where
  | unstarted (hthreads : s.threads_ = []) (hc : s.control = .idle ∨ s.control = .joining 0)
      (hjoined : JoinedTo s joins 0) : Stage s joins 0
  | started (hc : ∀ i, s.control ≠ .joining i) (hok : s.control ≠ .threw)
      (hjoined : JoinedTo s joins 0) : Stage s joins 1
  | stopping (i : Nat) (hc : s.control = .joining i) (hle : i ≤ s.threads_.length)
      (hjoined : JoinedTo s joins i) : Stage s joins 2
  | stopped (hc : s.control = .idle) (hjoined : JoinedTo s joins s.threads_.length) :
      Stage s joins 2

/-- The calls from the first `start` on. -/
def stage (cs : List LifeCall) : Nat := (cs.dropWhile LifeCall.isStop).length

/-! ### Steps

Who has a part in the joins is the controlling thread, with what it puts into `threads_`. Each of
its steps is looked at by itself, and the steps of the others all at once. -/

/-- A step that leaves the threads and the controlling thread as they are. -/
theorem JoinedTo.frame {joins : List Nat} {i : Nat} (h : JoinedTo s joins i)
    (ht : s'.threads_ = s.threads_) (hlen : s'.workers.length = s.workers.length)
    (hc : s'.control = s.control) : JoinedTo s' joins i := by
  refine ⟨h.joins, ?_, ?_, ?_⟩
  · rw [ht]
    exact h.numbered
  · rw [ht, hlen, hc]
    exact h.pushing
  · rw [ht, hlen, hc]
    exact h.settled

/-- The controlling thread moves on while every worker is in `threads_`. -/
theorem JoinedTo.move {joins : List Nat} {i : Nat} (h : JoinedTo s joins i)
    (hno : ∀ w turns, s.control ≠ .pushing w turns)
    (hno' : ∀ w turns, s'.control ≠ .pushing w turns) (ht : s'.threads_ = s.threads_)
    (hlen : s'.workers.length = s.workers.length) : JoinedTo s' joins i := by
  refine ⟨h.joins, ?_, ?_, ?_⟩
  · rw [ht]
    exact h.numbered
  · intro w turns hc
    exact absurd hc (hno' w turns)
  · intro _
    rw [ht, hlen]
    exact h.settled hno

/-- What is said of a stage is about `threads_`, the number of workers and the controlling thread,
so a step that keeps the three keeps the stage. -/
theorem Stage.frame {joins : List Nat} {n : Nat} (h : Stage s joins n)
    (ht : s'.threads_ = s.threads_) (hlen : s'.workers.length = s.workers.length)
    (hc : s'.control = s.control) : Stage s' joins n := by
  cases h with
  | unstarted hthreads hcontrol hjoined =>
    refine .unstarted ?_ ?_ (hjoined.frame ht hlen hc)
    · rw [ht, hthreads]
    · rw [hc]
      exact hcontrol
  | started hcontrol hok hjoined =>
    refine .started ?_ ?_ (hjoined.frame ht hlen hc)
    · rw [hc]
      exact hcontrol
    · rw [hc]
      exact hok
  | stopping i hcontrol hle hjoined =>
    refine .stopping i (hc.trans hcontrol) ?_ (hjoined.frame ht hlen hc)
    rw [ht]
    exact hle
  | stopped hcontrol hjoined =>
    refine .stopped (hc.trans hcontrol) ?_
    rw [ht]
    exact hjoined.frame ht hlen hc

/-- Only a pool in its first `start` spawns. The worker it makes gets the number of the place its
thread will have in `threads_`. -/
theorem Stage.spawn {joins : List Nat} {n : Nat} (h : Stage s joins n) (hs : s.spawn = some s') :
    Stage s' joins n := by
  rcases State.spawn_cases hs with ⟨hc, rfl⟩ | ⟨turns, hc, rfl⟩
  · cases h with
    | unstarted hthreads hcontrol hjoined => simp [hc] at hcontrol
    | started _ _ hjoined =>
      refine .started (by simp) (by simp) (hjoined.move ?_ (by simp) rfl rfl)
      simp [hc]
    | stopping i hcontrol => simp [hc] at hcontrol
    | stopped hcontrol => simp [hc] at hcontrol
  · cases h with
    | unstarted hthreads hcontrol hjoined => simp [hc] at hcontrol
    | started _ _ hjoined =>
      have hlen : s.workers.length = s.threads_.length := hjoined.settled (by simp [hc])
      refine .started (by simp) (by simp) ⟨hjoined.joins, hjoined.numbered, ?_, ?_⟩
      · intro w turns' hpush
        obtain ⟨rfl, -⟩ := Control.pushing.inj hpush
        refine ⟨hlen, ?_⟩
        rw [← hlen]
        exact List.length_append
      · intro hno
        exact absurd rfl (hno _ _)
    | stopping i hcontrol => simp [hc] at hcontrol
    | stopped hcontrol => simp [hc] at hcontrol

/-- The new thread goes to the end of `threads_`, not joined, and the numbers agree again. -/
theorem Stage.pushBack {joins : List Nat} {n : Nat} (h : Stage s joins n)
    (hs : s.pushBack = some s') : Stage s' joins n := by
  obtain ⟨worker, turns, hc, rfl⟩ := State.pushBack_cases hs
  cases h with
  | unstarted hthreads hcontrol hjoined => simp [hc] at hcontrol
  | started _ _ hjoined =>
    obtain ⟨rfl, hlen⟩ := hjoined.pushing worker turns hc
    refine .started (by simp) (by simp) ⟨hjoined.joins, ?_, by simp, ?_⟩
    · intro j thread hj
      rcases getElem?_snoc.mp hj with hj | ⟨rfl, rfl⟩
      · exact hjoined.numbered j thread hj
      · exact ⟨rfl, by simp⟩
    · intro _
      simp [hlen]
  | stopping i hcontrol => simp [hc] at hcontrol
  | stopped hcontrol => simp [hc] at hcontrol

/-- The loop of joins does one more, or comes to its end. -/
theorem Stage.join {joins : List Nat} {n : Nat} (h : Stage s joins n) (hs : s.join = some s') :
    Stage s' (joins ++ (s.joinCall .join).toList) n := by
  obtain ⟨i, hc, hcases⟩ := State.join_cases hs
  have hcall : s.joinCall .join = s.threads_[i]?.map Thread.worker := by
    simp [State.joinCall, hc]
  have hno : ∀ w turns, s.control ≠ .pushing w turns := by simp [hc]
  have hend : s.threads_[i]? = none → joins ++ (s.joinCall .join).toList = joins := by
    intro hnone
    rw [hcall, hnone]
    exact List.append_nil _
  -- only the first `stop` is in its joins
  cases h with
  | unstarted hthreads hcontrol hjoined =>
    have hnone : s.threads_[i]? = none := by simp [hthreads]
    obtain ⟨-, rfl⟩ | ⟨thread, hthread, -⟩ := hcases
    · rw [hend hnone]
      exact .unstarted hthreads (Or.inl rfl) (hjoined.move hno (by simp) rfl rfl)
    -- no thread was ever started, so there is none to join
    · rw [hnone] at hthread
      cases hthread
  | started hcontrol => exact absurd hc (hcontrol i)
  | stopping i' hcontrol hle hjoined =>
    obtain rfl : i = i' := by simpa [hc] using hcontrol
    obtain ⟨hnone, rfl⟩ | ⟨thread, hthread, hcases⟩ := hcases
    · rw [hend hnone]
      -- `i` is behind the last thread: each has been joined
      have hall : i = s.threads_.length :=
        Nat.le_antisymm hle (List.getElem?_eq_none_iff.mp hnone)
      subst hall
      exact .stopped rfl (hjoined.move hno (by simp) rfl rfl)
    · obtain ⟨hworker, hflag⟩ := hjoined.numbered i thread hthread
      obtain ⟨hj, -⟩ | ⟨-, -, rfl⟩ := hcases
      -- the marks are those of the threads before `i`, so this one has none
      · exact absurd (hflag.mp hj) (Nat.lt_irrefl i)
      · have hlt := lt_length_of_getElem? hthread
        refine .stopping (i + 1) rfl ?_ ⟨?_, ?_, by simp, ?_⟩
        · rw [List.length_set]
          exact hlt
        · rw [hcall, hthread, hjoined.joins, List.range_succ]
          exact congrArg (fun w => List.range i ++ [w]) hworker
        · intro j th hth
          rcases getElem?_set_cases hth with ⟨rfl, rfl⟩ | ⟨hne, hth⟩
          · exact ⟨hworker, by simp⟩
          · obtain ⟨hw, hfl⟩ := hjoined.numbered j th hth
            refine ⟨hw, hfl.trans ?_⟩
            omega
        · intro _
          rw [List.length_set]
          exact hjoined.settled hno
  | stopped hcontrol => simp [hc] at hcontrol

theorem Stage.start {joins : List Nat} {numThreads : Nat} (h : Stage s joins 0)
    (hs : s.start numThreads = some s') : Stage s' joins 1 := by
  obtain ⟨hc, rfl⟩ := State.start_cases hs
  cases h with
  | unstarted _ _ hjoined =>
    refine .started (by simp) (by simp) (hjoined.move ?_ (by simp) rfl rfl)
    simp [hc]

/-- Before the first `start` a `stop` has nothing to do. Behind it, it is the one that joins. -/
theorem Stage.stop {joins : List Nat} (hs : s.stop = some s') :
    (Stage s joins 0 → Stage s' joins 0) ∧ (Stage s joins 1 → Stage s' joins 2) := by
  obtain ⟨hc, rfl⟩ := State.stop_cases hs
  have hno : ∀ w turns, s.control ≠ .pushing w turns := by simp [hc]
  have hlen : (notEmpty_.notifyAll s.workers).length = s.workers.length := List.length_map _
  constructor
  · intro h
    cases h with
    | unstarted hthreads _ hjoined =>
      exact .unstarted hthreads (Or.inr rfl) (hjoined.move hno (by simp) rfl hlen)
  · intro h
    cases h with
    | started _ _ hjoined =>
      exact .stopping 0 rfl (Nat.zero_le _) (hjoined.move hno (by simp) rfl hlen)

/-! ### How the calls go on

What the calls so far say about the ones to come: whether the pool runs, and how many calls there
may be still. -/

/-- Once there was a `start`, every call counts. -/
theorem stage_append (cs cs' : List LifeCall) :
    stage (cs ++ cs') = if stage cs = 0 then stage cs' else stage cs + cs'.length := by
  unfold stage
  rw [List.dropWhile_append]
  cases cs.dropWhile LifeCall.isStop with
  | nil => rfl
  | cons c rest =>
    rw [if_neg (by simp), if_neg (by simp), List.length_append]

/-- So a life that has come to its third call does not get back to two. -/
theorem stage_le {cs cs' : List LifeCall} (h : cs <+: cs') : stage cs ≤ stage cs' := by
  obtain ⟨rest, rfl⟩ := h
  rw [stage_append]
  split <;> omega

/-- Whether the calls of the second part may be made is decided by what the first part leaves in
`running_`. -/
theorem proper_append {running_ : Bool} {cs cs' : List LifeCall} :
    Proper running_ (cs ++ cs') ↔
      Proper running_ cs ∧ Proper (runningAfter running_ cs) cs' := by
  induction cs generalizing running_ with
  | nil => simp [Proper, runningAfter]
  | cons c cs ih =>
    cases c with
    | start numThreads => simp [Proper, runningAfter, ih, and_assoc]
    | stop => simp [Proper, runningAfter, ih]

theorem runningAfter_append (running_ : Bool) (cs cs' : List LifeCall) :
    runningAfter running_ (cs ++ cs') = runningAfter (runningAfter running_ cs) cs' := by
  induction cs generalizing running_ with
  | nil => rfl
  | cons c cs ih =>
    cases c with
    | start numThreads => exact ih true
    | stop => exact ih false

/-- Behind a single call from the first `start` on, the pool runs. -/
theorem running_of_stage {cs : List LifeCall} (h : stage cs = 1) :
    runningAfter false cs = true := by
  induction cs with
  | nil => cases h
  | cons c cs ih =>
    cases c with
    | start numThreads =>
      have hnil : cs = [] := List.length_eq_zero_iff.mp (Nat.succ.inj h)
      rw [hnil]
      rfl
    | stop => exact ih h

theorem proper_destroyed {running_ : Bool} {cs : List LifeCall} (h : Proper running_ cs) :
    Proper running_ (destroyed running_ cs) := by
  refine proper_append.mpr ⟨h, ?_⟩
  split <;> trivial

theorem not_running_destroyed (running_ : Bool) (cs : List LifeCall) :
    runningAfter running_ (destroyed running_ cs) = false := by
  unfold destroyed
  rw [runningAfter_append]
  split
  · rfl
  · next h => exact Bool.eq_false_iff.mpr h

/-- Callers and workers come and go without a trace in the stage. -/
theorem Stage.other {joins : List Nat} {n : Nat} (h : Stage s joins n) {a : Action T}
    (ha : a.isControl = false) (hs : s.step m a = some s') : Stage s' joins n := by
  obtain ⟨-, ht, hc, hlen⟩ := State.step_frame ha hs
  exact h.frame ht hlen hc

/-- A step of anybody. What the bound on the calls excludes is a call behind the first `stop` that
follows a `start`. -/
theorem Stage.step {joins : List Nat} {cs : List LifeCall} {a : Action T}
    (h : Stage s joins (stage cs)) (hproper : Proper false (cs ++ a.lifeCall.toList))
    (hle : stage (cs ++ a.lifeCall.toList) ≤ 2) (hs : s.step m a = some s') :
    Stage s' (joins ++ (s.joinCall a).toList) (stage (cs ++ a.lifeCall.toList)) := by
  have hquiet : s.joinCall a = none → joins ++ (s.joinCall a).toList = joins := by
    intro hnone
    rw [hnone]
    exact List.append_nil _
  -- callers and workers have no part in it
  cases hctl : a.isControl with
  | false =>
    have hcall : a.lifeCall = none := by
      cases a with
      | start | stop => cases hctl
      | _ => rfl
    have hjoin : s.joinCall a = none := by
      cases a with
      | join => cases hctl
      | _ => rfl
    rw [hquiet hjoin, hcall]
    simpa using h.other hctl hs
  | true =>
    cases a with
    | start numThreads =>
      -- a `start` behind the first one has a `stop` before it, which is one call too many
      have hnot : runningAfter false cs = false := (proper_append.mp hproper).2.1
      have hlen : stage (cs ++ [.start numThreads]) ≤ 2 := hle
      have hone : stage [.start numThreads] = 1 := rfl
      rw [hquiet rfl]
      show Stage s' joins (stage (cs ++ [.start numThreads]))
      rw [stage_append] at hlen ⊢
      split
      · next hzero =>
        rw [hzero] at h
        exact h.start hs
      · next hne =>
        rw [if_neg hne, List.length_singleton] at hlen
        have hstage : stage cs = 1 := by omega
        have hrunning := running_of_stage hstage
        rw [hnot] at hrunning
        cases hrunning
    | stop =>
      -- a `stop` before the first `start` finds no thread, the one behind it joins them
      have hlen : stage (cs ++ [.stop]) ≤ 2 := hle
      rw [hquiet rfl]
      show Stage s' joins (stage (cs ++ [.stop]))
      rw [stage_append] at hlen ⊢
      split
      · next hzero =>
        rw [hzero] at h
        exact (Stage.stop hs).1 h
      · next hne =>
        rw [if_neg hne, List.length_singleton] at hlen
        have hone : stage cs = 1 := by omega
        rw [hone] at h ⊢
        exact (Stage.stop hs).2 h
    | spawn =>
      rw [hquiet rfl]
      simpa [Action.lifeCall] using h.spawn hs
    | pushBack =>
      rw [hquiet rfl]
      simpa [Action.lifeCall] using h.pushBack hs
    | join => simpa [Action.lifeCall] using h.join hs
    | _ => cases hctl

/-- At every moment of a life with at most two calls from the first `start` on, the pool is in the
stage that the calls so far give. -/
theorem stage_of_run {cs : List LifeCall} (hproper : Proper false cs) (hcs : stage cs ≤ 2)
    {as : List (Action T)} (h : (pool T m).run as = some s) (hpre : lifeCalls as <+: cs) :
    Stage s (joinCalls m as) (stage (lifeCalls as)) := by
  revert hpre
  refine Machine.run_induction (P := fun as s => lifeCalls as <+: cs →
    Stage s (joinCalls m as) (stage (lifeCalls as))) ?_ ?_ h
  · intro _
    refine .unstarted rfl (Or.inl rfl) ⟨rfl, ?_, ?_, fun _ => rfl⟩
    · intro j thread hj
      cases hj
    · intro w turns hc
      cases hc
  · intro as s a s' hr ih hs hpre
    rw [lifeCalls_snoc] at hpre ⊢
    rw [joinCalls_snoc hr hs]
    have hstage := ih (List.IsPrefix.trans (List.prefix_append _ _) hpre)
    refine hstage.step ?_ (Nat.le_trans (stage_le hpre) hcs) hs
    obtain ⟨rest, hrest⟩ := hpre
    rw [← hrest] at hproper
    exact (proper_append.mp hproper).1

/-- The first `stop` behind the first `start` joins every thread, and no more than once. -/
theorem joinsOnce_of_stage {cs : List LifeCall} (hproper : Proper false cs)
    (hcs : stage (destroyed false cs) ≤ 2) : JoinsOnce T m cs := by
  intro as s h hpre
  have hstage := stage_of_run (proper_destroyed hproper) hcs h hpre
  have hnodup : ∀ {joins : List Nat} {i : Nat}, JoinedTo s joins i → joins.Nodup := by
    intro joins i hjoined
    rw [hjoined.joins]
    exact List.nodup_range
  constructor
  -- what has been joined is a beginning of the row of workers
  · generalize stage (lifeCalls as) = n at hstage
    cases hstage with
    | unstarted _ _ hjoined => exact hnodup hjoined
    | started _ _ hjoined => exact hnodup hjoined
    | stopping i _ _ hjoined => exact hnodup hjoined
    | stopped _ hjoined => exact hnodup hjoined
  · intro hall hidle w hw
    have hno : ∀ w turns, s.control ≠ .pushing w turns := by simp [hidle]
    -- all calls are made, the destructor's among them, so the pool is stopped
    have hone : stage (lifeCalls as) ≠ 1 := by
      intro hone
      have hrunning := running_of_stage hone
      rw [hall, not_running_destroyed] at hrunning
      cases hrunning
    generalize stage (lifeCalls as) = n at hstage hone
    cases hstage with
    | unstarted hthreads _ hjoined =>
      rw [hjoined.settled hno, hthreads] at hw
      exact absurd hw (Nat.not_lt_zero w)
    | started => exact absurd rfl hone
    | stopping i hc => simp [hidle] at hc
    | stopped _ hjoined =>
      apply List.count_eq_one_of_mem (hnodup hjoined)
      rw [hjoined.joins, ← hjoined.settled hno]
      exact List.mem_range.mpr hw

/-! ## A second stop

`threads_` still names the threads of the first `start`, at its beginning. A second `stop` comes to
them first. -/

/-- A thread becomes a joined one by a call. -/
theorem joined_step {a : Action T} (hs : s.step m a = some s') {thread : Thread}
    (hmem : thread ∈ s'.threads_) (hj : thread.joined_ = true) :
    thread ∈ s.threads_ ∨ s.joinCall a = some thread.worker := by
  cases hctl : a.isControl with
  | false =>
    rw [(State.step_frame hctl hs).2.1] at hmem
    exact Or.inl hmem
  | true =>
    -- only `join` marks a thread
    cases a with
    | start numThreads =>
      obtain ⟨-, rfl⟩ := State.start_cases hs
      exact Or.inl hmem
    | spawn =>
      obtain ⟨-, rfl⟩ | ⟨turns, -, rfl⟩ := State.spawn_cases hs
      · exact Or.inl hmem
      · exact Or.inl hmem
    | pushBack =>
      obtain ⟨worker, turns, -, rfl⟩ := State.pushBack_cases hs
      rcases List.mem_append.mp hmem with hmem | hnew
      · exact Or.inl hmem
      · rw [List.mem_singleton.mp hnew] at hj
        cases hj
    | stop =>
      obtain ⟨-, rfl⟩ := State.stop_cases hs
      exact Or.inl hmem
    | join =>
      obtain ⟨i, hc, ⟨-, rfl⟩ | ⟨th, hth, ⟨-, rfl⟩ | ⟨-, -, rfl⟩⟩⟩ := State.join_cases hs
      · exact Or.inl hmem
      · exact Or.inl hmem
      · rcases List.mem_or_eq_of_mem_set hmem with hmem | rfl
        · exact Or.inl hmem
        · apply Or.inr
          simp [State.joinCall, hc, hth]
    | _ => cases hctl

theorem joined_recorded {as : List (Action T)} (h : (pool T m).run as = some s) :
    ∀ thread ∈ s.threads_, thread.joined_ = true → thread.worker ∈ joinCalls m as := by
  refine Machine.run_induction (P := fun as s => ∀ thread ∈ s.threads_, thread.joined_ = true →
    thread.worker ∈ joinCalls m as) ?_ ?_ h
  · intro thread hmem
    cases hmem
  · intro as s a s' hr ih hs thread hmem hj
    rw [joinCalls_snoc hr hs]
    rcases joined_step hs hmem hj with hold | hcall
    · exact List.mem_append_left _ (ih thread hold hj)
    · apply List.mem_append_right
      rw [hcall]
      exact List.mem_singleton.mpr rfl

/-- `stop` on a pool whose first thread is joined calls `join` on it again. -/
theorem stop_again {as : List (Action T)} (h : (pool T m).run as = some s)
    (hidle : s.control = .idle) {thread : Thread} (hfirst : s.threads_[0]? = some thread)
    (hj : thread.joined_ = true) :
    (∃ t, (pool T m).run (as ++ [.stop, .join]) = some t) ∧
      ¬ (joinCalls m (as ++ [.stop, .join])).Nodup := by
  have hstop : s.step m .stop = some { s with running_ := false, control := .joining 0,
                                              workers := notEmpty_.notifyAll s.workers } := by
    simp only [State.step, State.stop, if_pos hidle]
  generalize hs₁ : ({ s with running_ := false, control := .joining 0,
                             workers := notEmpty_.notifyAll s.workers } : State T) = s₁ at hstop
  have hcontrol : s₁.control = .joining 0 := by rw [← hs₁]
  have hfirst₁ : s₁.threads_[0]? = some thread := by rw [← hs₁, hfirst]
  have hjoin : s₁.step m .join = some { s₁ with control := .threw } := by
    simp only [State.step, State.join, hcontrol, hfirst₁, hj, if_true]
  have hrun₁ : (pool T m).run (as ++ [.stop]) = some s₁ := Machine.run_snoc.mpr ⟨s, h, hstop⟩
  have hrun : (pool T m).run ((as ++ [.stop]) ++ [.join]) = some { s₁ with control := .threw } :=
    Machine.run_snoc.mpr ⟨s₁, hrun₁, hjoin⟩
  rw [List.append_assoc] at hrun
  refine ⟨⟨_, hrun⟩, ?_⟩
  have hrecorded := joined_recorded h thread (List.mem_of_getElem? hfirst) hj
  have hcalls : joinCalls m (as ++ [.stop, .join]) = joinCalls m as ++ [thread.worker] := by
    have hsnoc := joinCalls_snoc hrun₁ hjoin
    rw [List.append_assoc, joinCalls_snoc h hstop] at hsnoc
    refine hsnoc.trans ?_
    simp [State.joinCall, hcontrol, hfirst₁]
  rw [hcalls]
  intro hnodup
  exact List.disjoint_of_nodup_append hnodup hrecorded (List.mem_singleton.mpr rfl)

/-! ### A schedule that gets there

The workers do nothing but look at `running_`. The run is put together of four parts: the loop of
`start`, the section of `stop`, the tests of the workers, the loop of joins. -/

/-- A member of `threads_` as `start` puts it in, and as `stop` leaves it. -/
def Thread.ofWorker (joined_ : Bool) (worker : Nat) : Thread where
  worker := worker
  joined_ := joined_

/-- The turns of the loop of `start`. -/
def turns (T : Type) : Nat → List (Action T)
  | 0 => [.spawn]
  | n + 1 => .spawn :: .pushBack :: turns T n

theorem runFrom_turns {n : Nat} (hc : s.control = .starting n) :
    (pool T m).runFrom s (turns T n) =
      some { s with
        workers := s.workers ++ List.replicate n .test,
        threads_ := s.threads_ ++ (List.range' s.workers.length n).map (Thread.ofWorker false),
        control := .idle } := by
  induction n generalizing s with
  | zero =>
    have hs : s.spawn = some { s with control := .idle } := by
      simp only [State.spawn, hc]
    refine Option.bind_eq_some_iff.mpr ⟨_, hs, ?_⟩
    simp
  | succ n ih =>
    have hs : s.spawn = some { s with workers := s.workers ++ [.test],
                                      control := .pushing s.workers.length n } := by
      simp only [State.spawn, hc]
    refine Option.bind_eq_some_iff.mpr ⟨_, hs, Option.bind_eq_some_iff.mpr ⟨_, rfl, ?_⟩⟩
    rw [ih rfl]
    simp [Thread.ofWorker, List.range'_succ, List.replicate_succ]

/-- Each worker looks at `running_` and leaves. -/
theorem runFrom_tests {k n : Nat} (hr : s.running_ = false)
    (hw : s.workers = List.replicate k .exited ++ List.replicate n .test) :
    (pool T m).runFrom s ((List.range' k n).map Action.test) =
      some { s with workers := List.replicate (k + n) .exited } := by
  induction n generalizing s k with
  | zero =>
    simp at hw
    simp [← hw]
  | succ n ih =>
    have hget : s.workers[k]? = some .test := by
      rw [hw, List.replicate_succ]
      simp
    have hs : s.test k = some { s with workers := s.workers.set k .exited } := by
      simp only [State.test, hget, hr]
      rfl
    rw [List.range'_succ, List.map_cons]
    refine Option.bind_eq_some_iff.mpr ⟨_, hs, ?_⟩
    refine (ih (k := k + 1) ?_ ?_).trans ?_
    · exact hr
    · show s.workers.set k .exited = _
      rw [hw, List.replicate_succ, List.replicate_succ', List.set_append_right _ _ (by simp)]
      simp
    · rw [Nat.add_assoc, Nat.add_comm 1 n]

/-- The joins of workers that have left. -/
theorem runFrom_joins {i n : Nat} (hc : s.control = .joining i)
    (ht : s.threads_ = (List.range' 0 i).map (Thread.ofWorker true) ++
      (List.range' i n).map (Thread.ofWorker false))
    (hw : s.workers = List.replicate (i + n) .exited) :
    (pool T m).runFrom s (List.replicate (n + 1) .join) =
      some { s with threads_ := (List.range' 0 (i + n)).map (Thread.ofWorker true),
                    control := .idle } := by
  -- one more thread moves from those to be joined to the joined ones
  induction n generalizing s i with
  | zero =>
    have hnone : s.threads_[i]? = none := by simp [ht]
    have hs : s.join = some { s with control := .idle } := by
      simp only [State.join, hc, hnone]
    refine Option.bind_eq_some_iff.mpr ⟨_, hs, ?_⟩
    simp [ht]
  | succ n ih =>
    have hget : s.threads_[i]? = some (Thread.ofWorker false i) := by
      rw [ht, List.getElem?_append_right (by simp)]
      simp
    have hexit : s.workers[i]? = some .exited := by
      rw [hw, List.getElem?_replicate]
      simp
    have hs : s.join = some { s with threads_ := s.threads_.set i (Thread.ofWorker true i),
                                     control := .joining (i + 1) } := by
      simp only [State.join, hc, hget]
      simp only [Thread.ofWorker, hexit]
      rfl
    refine Option.bind_eq_some_iff.mpr ⟨_, hs, ?_⟩
    refine (ih (i := i + 1) rfl ?_ ?_).trans ?_
    · show s.threads_.set i _ = _
      rw [ht, List.range'_succ, List.range'_concat, List.set_append_right _ _ (by simp)]
      simp
    · show s.workers = _
      rw [hw, Nat.add_assoc, Nat.add_comm 1 n]
    · rw [Nat.add_assoc, Nat.add_comm 1 n]

/-- A `start` and a `stop` during which the workers do nothing. -/
def cycle (T : Type) (n : Nat) : List (Action T) :=
  .start n :: turns T n ++ .stop :: (List.range' 0 n).map Action.test ++
    List.replicate (n + 1) .join

/-- A whole life that is short: `start`, every worker at its test, `stop`, every worker out of the
loop, and the joins. It leaves the first thread in `threads_`, and joined. -/
theorem run_cycle {n : Nat} (hn : 1 ≤ n) :
    ∃ t, (pool T m).run (cycle T n) = some t ∧ t.control = .idle ∧
      t.threads_[0]? = some (Thread.ofWorker true 0) := by
  -- the three states on the way: all threads in the loop, stopped, and all of them out
  let up : State T := { State.init with
    running_ := true, workers := List.replicate n .test,
    threads_ := (List.range' 0 n).map (Thread.ofWorker false) }
  let stopping : State T := { up with running_ := false, control := .joining 0 }
  let left : State T := { stopping with workers := List.replicate n .exited }
  have hup : (pool T m).run (.start n :: turns T n) = some up :=
    runFrom_turns (s := { State.init with running_ := true, control := .starting n }) rfl
  have hstop : (pool T m).step up .stop = some stopping := by
    have hall : notEmpty_.notifyAll up.workers = List.replicate n .test := by
      simp [up, CondVar.notifyAll, notEmpty_]
    show up.stop = some stopping
    have hidle : up.control = .idle := rfl
    unfold State.stop
    rw [if_pos hidle, hall]
  have hleft : (pool T m).runFrom stopping ((List.range' 0 n).map Action.test) = some left := by
    have htests := runFrom_tests (m := m) (s := stopping) (k := 0) (n := n) rfl rfl
    rw [Nat.zero_add] at htests
    exact htests
  have hend : (pool T m).runFrom left (List.replicate (n + 1) .join) =
      some { left with threads_ := (List.range' 0 n).map (Thread.ofWorker true),
                       control := .idle } := by
    have hjoins := runFrom_joins (m := m) (s := left) (i := 0) (n := n) rfl rfl
    rw [Nat.zero_add] at hjoins
    exact hjoins rfl
  -- stop, and each worker finds `running_` false at its test
  have hdown : (pool T m).runFrom up (.stop :: (List.range' 0 n).map Action.test) = some left :=
    Option.bind_eq_some_iff.mpr ⟨stopping, hstop, hleft⟩
  have hrun := Machine.run_append.mpr ⟨left, Machine.run_append.mpr ⟨up, hup, hdown⟩, hend⟩
  refine ⟨_, hrun, rfl, ?_⟩
  obtain ⟨k, rfl⟩ : ∃ k, n = k + 1 := ⟨n - 1, by omega⟩
  rfl

/-- Another `start` puts its threads behind those that are there. -/
theorem run_restart {as : List (Action T)} (h : (pool T m).run as = some s)
    (hidle : s.control = .idle) {thread : Thread} (hfirst : s.threads_[0]? = some thread)
    (n : Nat) :
    ∃ t, (pool T m).run (as ++ .start n :: turns T n) = some t ∧ t.control = .idle ∧
      t.threads_[0]? = some thread := by
  let starting : State T := { s with running_ := true, control := .starting n }
  have hstart : s.start n = some starting := by
    unfold State.start
    rw [if_pos hidle]
  have hturns := runFrom_turns (m := m) (s := starting) (n := n) rfl
  have hup : (pool T m).runFrom s (.start n :: turns T n) = some _ :=
    Option.bind_eq_some_iff.mpr ⟨starting, hstart, hturns⟩
  refine ⟨_, Machine.run_append.mpr ⟨s, h, hup⟩, rfl, ?_⟩
  exact (List.getElem?_append_left (lt_length_of_getElem? hfirst)).trans hfirst

/-! ### Which lives of the pool are sound

For how many calls the joins are sound, counted from the first `start` on with the call of the
destructor: two. A third one joins again. -/

theorem lifeCalls_turns (n : Nat) : lifeCalls (turns T n) = [] := by
  induction n with
  | zero => rfl
  | succ n ih => exact ih

/-- The calls of such a life, without the steps of the threads between them. -/
theorem lifeCalls_cycle (n : Nat) : lifeCalls (cycle T n) = [.start n, .stop] := by
  have htests : ∀ ws : List Nat, lifeCalls (T := T) (ws.map Action.test) = [] := by
    intro ws
    apply List.filterMap_eq_nil_iff.mpr
    intro a ha
    obtain ⟨w, -, rfl⟩ := List.mem_map.mp ha
    rfl
  have hjoins : lifeCalls (T := T) (List.replicate (n + 1) .join) = [] := by
    apply List.filterMap_eq_nil_iff.mpr
    intro a ha
    rw [List.eq_of_mem_replicate ha]
    rfl
  unfold cycle
  rw [lifeCalls_append, hjoins, List.append_nil, lifeCalls_append]
  show (LifeCall.start n :: lifeCalls (turns T n)) ++
    LifeCall.stop :: lifeCalls ((List.range' 0 n).map Action.test) = _
  rw [lifeCalls_turns, htests]
  rfl

/-- Behind the first `start`, a second call that is no `stop`, or a third call of any kind, leads
to a second join of the first thread. -/
theorem joined_again {cs : List LifeCall} (hproper : Proper false cs) (hcs : 2 < stage cs) :
    ∃ (as : List (Action T)) (s : State T), (pool T m).run as = some s ∧
      lifeCalls as <+: destroyed false cs ∧ ¬ (joinCalls m as).Nodup := by
  induction cs with
  | nil => cases hcs
  | cons c cs ih =>
    cases c with
    | stop =>
      -- nothing happens: there is no thread to join
      obtain ⟨as, s, hrun, hpre, hagain⟩ := ih hproper hcs
      exact ⟨.stop :: .join :: as, s, hrun, List.cons_prefix_cons.mpr ⟨rfl, hpre⟩, hagain⟩
    | start n =>
      obtain ⟨-, hn, hproper⟩ := hproper
      obtain ⟨t, ht, hidle, hfirst⟩ := run_cycle (T := T) (m := m) hn
      have hlen : 2 ≤ cs.length := Nat.le_of_lt_succ hcs
      cases cs with
      | nil => cases hlen
      | cons c cs =>
        cases c with
        | start => cases hproper.1
        | stop =>
          cases cs with
          | nil => exact absurd hlen (by decide)
          | cons c cs =>
            cases c with
            | stop =>
              obtain ⟨⟨s, hs⟩, hagain⟩ := stop_again ht hidle hfirst rfl
              refine ⟨_, s, hs, ?_, hagain⟩
              rw [lifeCalls_append, lifeCalls_cycle]
              exact ⟨_, rfl⟩
            | start k =>
              obtain ⟨u, hu, huidle, hufirst⟩ := run_restart ht hidle hfirst k
              obtain ⟨⟨s, hs⟩, hagain⟩ := stop_again hu huidle hufirst rfl
              refine ⟨_, s, hs, ?_, hagain⟩
              rw [lifeCalls_append, lifeCalls_append, lifeCalls_cycle]
              show [LifeCall.start n, .stop] ++ LifeCall.start k :: lifeCalls (turns T k) ++
                [LifeCall.stop] <+: _
              rw [lifeCalls_turns]
              cases cs with
              | nil => exact ⟨[], rfl⟩
              | cons c cs =>
                cases c with
                | start => cases hproper.2.2.1
                | stop => exact ⟨_, rfl⟩

/-- Of a start and one more call the second is a `stop`. -/
theorem not_running_of_stage {cs : List LifeCall} (hproper : Proper false cs)
    (h : stage cs = 2) : runningAfter false cs = false := by
  induction cs with
  | nil => cases h
  | cons c cs ih =>
    cases c with
    | stop => exact ih hproper h
    | start n =>
      obtain ⟨-, -, hproper⟩ := hproper
      obtain ⟨c, rfl⟩ : ∃ c, cs = [c] := List.length_eq_one_iff.mp (Nat.succ.inj h)
      cases c with
      | start => cases hproper.1
      | stop => rfl

/-- The destructor calls `stop` only where the pool runs, which is where there is room for one more
call. -/
theorem stage_destroyed {cs : List LifeCall} (hproper : Proper false cs) (hcs : stage cs ≤ 2) :
    stage (destroyed false cs) ≤ 2 := by
  unfold destroyed
  rw [stage_append]
  split
  · split <;> decide
  · split
    · next hrunning =>
      have hne : stage cs ≠ 2 := by
        intro h
        rw [not_running_of_stage hproper h] at hrunning
        cases hrunning
      simp only [List.length_singleton]
      omega
    · exact hcs

/-- **Stopping a pool once joins every thread once**, and this is all the pool is good for: the
joins are sound in all interleavings exactly if behind the first `start` there is at most one more
call, which is then a `stop`. -/
theorem joinsOnce_iff (T : Type) (m : Nat) (cs : List LifeCall) (hcs : Proper false cs) :
    JoinsOnce T m cs ↔ (cs.dropWhile LifeCall.isStop).length ≤ 2 := by
  constructor
  · intro honce
    apply Nat.le_of_not_lt
    intro hlong
    obtain ⟨as, s, hrun, hpre, hagain⟩ := joined_again (T := T) (m := m) hcs hlong
    exact hagain (honce as s hrun hpre).1
  · intro hshort
    exact joinsOnce_of_stage hcs (stage_destroyed hcs hshort)

theorem joinsOnce_once : JoinsOnce Nat 0 [.stop, .start 2, .stop] :=
  (joinsOnce_iff Nat 0 [.stop, .start 2, .stop] ⟨rfl, by decide, trivial⟩).mpr (by decide)

/-- **The second cycle throws**: the thread of the first one is joined again. -/
theorem not_joinsOnce_twice : ¬ JoinsOnce Nat 0 [.start 1, .stop, .start 1, .stop] := by
  intro honce
  obtain ⟨s, hs⟩ := Option.isSome_iff_exists.mp
    (show ((pool Nat 0).run [.start 1, .spawn, .pushBack, .spawn, .stop, .test 0, .join, .join,
      .start 1, .spawn, .pushBack, .spawn, .stop, .join]).isSome = true by decide)
  have hnodup := (honce _ s hs ⟨[], rfl⟩).1
  revert hnodup
  decide

end CppDone.Net.ThreadPool
