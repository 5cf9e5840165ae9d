import CppDone.Netlink.Monitor

/-!
# The limit of the event queue

The receiver makes room only when more than `kProcEvQueueMaxSize` events are queued, and pushes
after that. A push that finds exactly as many as the limit therefore leaves one more, and this is
the only way over the limit (`queue_limit_iff`); with one event too many there is room to be made,
so it stays at one (`queue_le_succ`).
-/

set_option autoImplicit false

namespace CppDone.Netlink

variable {D : Type} {M : Nat} {s s' : State D}

/-- The queue grows by nothing but a push. -/
theorem queue_step {a : Action D} (ha : a ≠ .push) (hs : s.step M a = some s') :
    s'.ProcEvQueue_ = s.ProcEvQueue_ ∨ s'.ProcEvQueue_ = [] := by
  -- the two that look at the queue beside the push are the swaps, which take all of it
  cases a with
  | enter =>
    obtain ⟨-, rfl⟩ := State.enter_cases hs
    exact Or.inl rfl
  | test =>
    obtain ⟨-, rfl⟩ := State.test_cases hs
    exact Or.inl rfl
  | recv r =>
    obtain ⟨-, ⟨ev, -, -, rfl⟩ | ⟨receiver, -, rfl⟩⟩ := State.recv_cases hs
    · exact Or.inl rfl
    · exact Or.inl rfl
  | push => exact absurd rfl ha
  | lock =>
    obtain ⟨-, ⟨-, rfl⟩ | ⟨-, ⟨-, rfl⟩ | ⟨-, rfl⟩⟩⟩ := State.lock_cases hs
    · exact Or.inl rfl
    · exact Or.inr rfl
    · exact Or.inl rfl
  | wake =>
    obtain ⟨-, rfl⟩ := State.wake_cases hs
    exact Or.inl rfl
  | resume =>
    obtain ⟨-, rfl⟩ := State.resume_cases hs
    exact Or.inr rfl
  | next =>
    obtain ⟨-, rfl⟩ | ⟨ev, tempEvQueue, -, rfl⟩ := State.next_cases hs
    · exact Or.inl rfl
    · exact Or.inl rfl
  | handedBack =>
    obtain ⟨ev, tempEvQueue, -, rfl⟩ := State.handedBack_cases hs
    exact Or.inl rfl
  | _ => exact Or.inl (State.controller_frame rfl hs).ProcEvQueue_

/-- The test comes before the push and is strict. -/
theorem length_push (hs : s.push M = some s') :
    s'.ProcEvQueue_.length =
      if M < s.ProcEvQueue_.length then s.ProcEvQueue_.length else s.ProcEvQueue_.length + 1 := by
  obtain ⟨ev, -, ⟨oldest, rest, hq, hlt, rfl⟩ | ⟨hle, rfl⟩⟩ := State.push_cases hs
  · rw [if_pos hlt, hq, List.length_append]
    rfl
  · rw [if_neg (Nat.not_lt.mpr hle), List.length_append]
    rfl

/-- A bound is the push's to break. -/
theorem length_le_step {B : Nat} {a : Action D} (hle : s.ProcEvQueue_.length ≤ B)
    (hs : s.step M a = some s') (hpush : a = .push → s'.ProcEvQueue_.length ≤ B) :
    s'.ProcEvQueue_.length ≤ B := by
  by_cases ha : a = .push
  · exact hpush ha
  · rcases queue_step ha hs with hq | hq
    · rw [hq]
      exact hle
    · rw [hq]
      exact Nat.zero_le B

/-- No push may find the queue exactly at its limit. -/
def BelowLimit (M : Nat) (s : State D) (a : Action D) : Prop :=
  a = .push → s.ProcEvQueue_.length ≠ M

instance [DecidableEq D] (M : Nat) (s : State D) (a : Action D) : Decidable (BelowLimit M s a) :=
  inferInstanceAs (Decidable (_ → _))

theorem BelowLimit.step {a : Action D} (hle : s.ProcEvQueue_.length ≤ M)
    (hok : BelowLimit M s a) (hs : s.step M a = some s') : s'.ProcEvQueue_.length ≤ M := by
  refine length_le_step hle hs fun ha => ?_
  have hne := hok ha
  subst ha
  rw [length_push hs]
  split_ifs <;> omega

/-- **The queue keeps to its limit in all states of a run** exactly when no push of the run finds
it at the limit. -/
theorem queue_limit_iff (M : Nat) (as : List (Action D)) (s : State D)
    (h : (monitor D M).run as = some s) :
    (monitor D M).Throughout (fun s => s.ProcEvQueue_.length ≤ M) State.init as ↔
      (monitor D M).Meets (BelowLimit M) as := by
  have hany : (monitor D M).Inductive fun _ => True := ⟨trivial, fun _ _ => trivial⟩
  have hneed : ∀ {t : State D} {a : Action D} {t' : State D}, t'.ProcEvQueue_.length ≤ M →
      (monitor D M).step t a = some t' → BelowLimit M t a := by
    intro t a t' hle hs ha heq
    subst ha
    rw [length_push hs, heq, if_neg (Nat.lt_irrefl M)] at hle
    omega
  exact (hany.meets_iff_throughout (Nat.zero_le M)
    (fun _ hle hok hs => BelowLimit.step hle hok hs) (fun _ hle hs => hneed hle hs) h).symm

/-- Two events behind a dispatcher that is not there yet. -/
def twoEvents : List (Action Nat) :=
  [.start, .connect true true, .subscribe true, .createRecv true, .enter, .test,
    .recv (.event ⟨.FORK, 1⟩), .push, .test, .recv (.event ⟨.EXIT, 2⟩), .push]

theorem queue_limit_iff_twoEvents :
    (monitor Nat 2).Throughout (fun s => s.ProcEvQueue_.length ≤ 2) State.init twoEvents := by
  obtain ⟨s, hs⟩ := Option.isSome_iff_exists.mp
    (show ((monitor Nat 2).run twoEvents).isSome = true by decide)
  exact (queue_limit_iff 2 twoEvents s hs).mpr (by decide)

/-- A queue for one event holds two. -/
theorem over_the_limit : ∃ s, (monitor Nat 1).Reachable s ∧ ¬ s.ProcEvQueue_.length ≤ 1 := by
  obtain ⟨s, hs⟩ := Option.isSome_iff_exists.mp
    (show ((monitor Nat 1).run twoEvents).isSome = true by decide)
  have hlen : ((monitor Nat 1).run twoEvents).map (fun s => s.ProcEvQueue_.length) = some 2 := by
    decide
  rw [hs] at hlen
  have htwo : s.ProcEvQueue_.length = 2 := Option.some.inj hlen
  exact ⟨s, ⟨twoEvents, hs⟩, by rw [htwo]; decide⟩

/-! ## One event too many

The test is strict and comes before the push, so the queue can be one over the limit, and not more:
with two too many the oldest would have gone. -/

/-- The queue never holds more than one event too many. -/
theorem queue_le_succ {s : State D} (h : (monitor D M).Reachable s) :
    s.ProcEvQueue_.length ≤ M + 1 := by
  have hI : (monitor D M).Inductive fun s => s.ProcEvQueue_.length ≤ M + 1 := by
    refine ⟨Nat.zero_le _, ?_⟩
    intro t a t' hle hs
    refine length_le_step hle hs fun ha => ?_
    subst ha
    rw [length_push hs]
    split_ifs <;> omega
  exact h.inv hI

/-- One turn of the receiver's loop with an event of which there are not too many. -/
theorem reachable_event {s : State D} (h : (monitor D M).Reachable s)
    (hp : s.ProcEvProducerThread_ = some .test) (hst : s.StopThreads_ = false)
    (hle : s.ProcEvQueue_.length ≤ M) {ev : ProcEvent D} (hev : ev.queued = true) :
    ∃ s', (monitor D M).Reachable s' ∧ s'.ProcEvProducerThread_ = some .test ∧
      s'.StopThreads_ = false ∧ s'.ProcEvQueue_ = s.ProcEvQueue_ ++ [ev] := by
  have htest : (monitor D M).step s .test =
      some { s with ProcEvProducerThread_ := some .recv } := by
    simp [monitor, State.step, State.test, hp, hst]
  have hrecv : (monitor D M).step { s with ProcEvProducerThread_ := some .recv }
      (.recv (.event ev)) = some { s with ProcEvProducerThread_ := some (.got ev),
                                          received := s.received ++ [ev] } := by
    simp [monitor, State.step, State.recv, hev]
  have hpush : (monitor D M).step { s with ProcEvProducerThread_ := some (.got ev),
                                           received := s.received ++ [ev] } .push =
      some { s with ProcEvProducerThread_ := some .test, received := s.received ++ [ev],
                    CallbackDispatchThread_ := s.CallbackDispatchThread_.map Dispatcher.notify,
                    pushed := s.pushed ++ [ev], ProcEvQueue_ := s.ProcEvQueue_ ++ [ev] } :=
    if_neg (Nat.not_lt.mpr hle)
  exact ⟨_, ((h.step htest).step hrecv).step hpush, rfl, hst, rfl⟩

/-- **Whatever the limit, there are runs over it**: the bound of `queue_le_succ` is reached. -/
theorem queue_reaches_succ (M : Nat) {ev : ProcEvent D} (hev : ev.queued = true) :
    ∃ s, (monitor D M).Reachable s ∧ s.ProcEvQueue_.length = M + 1 := by
  have hall : ∀ n, n ≤ M + 1 → ∃ s, (monitor D M).Reachable s ∧
      s.ProcEvProducerThread_ = some .test ∧ s.StopThreads_ = false ∧
      s.ProcEvQueue_.length = n := by
    intro n
    induction n with
    | zero =>
      intro _
      exact ⟨_, ⟨[.start, .connect true true, .subscribe true, .createRecv true, .enter], rfl⟩,
        rfl, rfl, rfl⟩
    | succ n ih =>
      intro hn
      obtain ⟨s, h, hp, hst, hlen⟩ := ih (by omega)
      obtain ⟨s', h', hp', hst', hq⟩ := reachable_event h hp hst (by omega) hev
      exact ⟨s', h', hp', hst', by rw [hq, List.length_append, hlen]; rfl⟩
  obtain ⟨s, h, -, -, hlen⟩ := hall (M + 1) (Nat.le_refl _)
  exact ⟨s, h, hlen⟩

end CppDone.Netlink
