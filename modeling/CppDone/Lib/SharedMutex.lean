import Mathlib.Data.Finset.Card
import Mathlib.Logic.Function.Basic

/-!
# A mutex that readers share

The mutex counts those that share it and has a flag for the one that does not. Who they are is not
in it: `Held` says so, from the side of the threads, with the mode in which each of them holds the
mutex, if it does.
-/

set_option autoImplicit false

namespace CppDone

/-- `shared_count` and `exclusive` are never both there. -/
structure SharedMutex where
  shared_count : Nat
  exclusive : Bool
deriving DecidableEq, Repr

namespace SharedMutex

def free : SharedMutex := { shared_count := 0, exclusive := false }

variable (m : SharedMutex)

/-- `none`: the thread has to wait. -/
def lockShared : Option SharedMutex :=
  if m.exclusive then none else some { m with shared_count := m.shared_count + 1 }

def lock : Option SharedMutex :=
  if m.exclusive ∨ m.shared_count ≠ 0 then none else some { m with exclusive := true }

def unlockShared : SharedMutex := { m with shared_count := m.shared_count - 1 }

def unlock : SharedMutex := { m with exclusive := false }

/-- The constructor of a lock that is shared or not. -/
def acquire (shared : Bool) : Option SharedMutex := if shared then m.lockShared else m.lock

/-- And its destructor. -/
def release (shared : Bool) : SharedMutex := if shared then m.unlockShared else m.unlock

/-- How many hold it. -/
def holders : Nat := m.shared_count + if m.exclusive then 1 else 0

variable {m} {m' : SharedMutex} {b : Bool}

/-- A shared lock waits for whoever has it alone, an exclusive one for everybody. -/
theorem acquire_cases (h : m.acquire b = some m') :
    m.exclusive = false ∧
      ((b = true ∧ m' = { m with shared_count := m.shared_count + 1 }) ∨
        (b = false ∧ m.shared_count = 0 ∧ m' = { m with exclusive := true })) := by
  -- shared: nobody alone; alone: nobody at all
  cases b with
  | true =>
    unfold acquire lockShared at h
    rw [if_pos rfl] at h
    split at h
    · cases h
    · next hx =>
      obtain rfl := (Option.some.inj h).symm
      exact ⟨eq_false_of_ne_true hx, .inl ⟨rfl, rfl⟩⟩
  | false =>
    unfold acquire lock at h
    rw [if_neg nofun] at h
    split at h
    · cases h
    · next hx =>
      obtain ⟨hx, hn⟩ := not_or.mp hx
      obtain rfl := (Option.some.inj h).symm
      exact ⟨eq_false_of_ne_true hx, .inr ⟨rfl, of_not_not hn, rfl⟩⟩

theorem acquire_free (b : Bool) : ∃ m, free.acquire b = some m := by
  cases b with
  | true => exact ⟨_, rfl⟩
  | false => exact ⟨_, rfl⟩

/-! ## Who has it

The mutex counts its readers and does not know them. For an argument about threads it is needed who
they are, so a mode for each thread is kept beside it. -/

/-- `mode c` is how thread `c` holds the mutex: `some true` for those that share it. A finite set
has the readers, since the count is one. -/
structure Held {C : Type} (m : SharedMutex) (mode : C → Option Bool) : Prop where
  shared : ∃ F : Finset C, (∀ c, c ∈ F ↔ mode c = some true) ∧ F.card = m.shared_count
  exclusive : m.exclusive = true ↔ ∃ c, mode c = some false
  alone : ∀ {c d b}, mode c = some false → mode d = some b → d = c

section Held

variable {C : Type} {mode : C → Option Bool} {c d : C}

theorem held_free : Held (C := C) free fun _ => none where
  shared := ⟨∅, by simp, rfl⟩
  exclusive := by simp [free]
  alone h := nomatch h

/-- **Two threads only share the mutex.** -/
theorem Held.both (h : m.Held mode) {b₁ b₂ : Bool} (hc : mode c = some b₁) (hd : mode d = some b₂)
    (hne : c ≠ d) : b₁ = true ∧ b₂ = true := by
  cases b₁ with
  | false => exact absurd (h.alone hc hd).symm hne
  | true =>
    cases b₂ with
    | false => exact absurd (h.alone hd hc) hne
    | true => exact ⟨rfl, rfl⟩

/-- Beside a reader there is no writer. -/
theorem Held.not_exclusive (h : m.Held mode) (hc : mode c = some true) : m.exclusive = false := by
  refine eq_false_of_ne_true fun hx => ?_
  obtain ⟨d, hd⟩ := h.exclusive.mp hx
  obtain rfl := h.alone hd hc
  cases hc.symm.trans hd

/-- Once nobody has it, it is as it was in the beginning. -/
theorem Held.eq_free (h : m.Held mode) (hnone : ∀ c, mode c = none) : m = free := by
  obtain ⟨F, hF, hcard⟩ := h.shared
  have hempty : F = ∅ := by
    refine Finset.eq_empty_of_forall_notMem fun c hc => ?_
    cases (hnone c).symm.trans ((hF c).mp hc)
  have hx : m.exclusive = false := by
    refine eq_false_of_ne_true fun hx => ?_
    obtain ⟨c, hc⟩ := h.exclusive.mp hx
    cases (hnone c).symm.trans hc
  obtain ⟨n, x⟩ := m
  obtain rfl : x = false := hx
  obtain rfl : n = 0 := by
    rw [← show F.card = n from hcard, hempty]
    rfl
  rfl

/-- Whoever holds the mutex is one of the holders. -/
theorem Held.holders_pos (h : m.Held mode) (hc : mode c = some b) : 0 < m.holders := by
  unfold holders
  cases b with
  | true =>
    obtain ⟨F, hF, hcard⟩ := h.shared
    have hpos : 0 < F.card := Finset.card_pos.mpr ⟨c, (hF c).mpr hc⟩
    exact Nat.add_pos_left (hcard ▸ hpos) _
  | false =>
    rw [if_pos (h.exclusive.mpr ⟨c, hc⟩)]
    exact Nat.succ_pos _

variable [DecidableEq C]

/-- Whoever gets it is added to those who have it. `acquire` has seen to it that the new holder and
the old ones may hold it together. -/
theorem Held.acquire (h : m.Held mode) (hc : mode c = none) (hm : m.acquire b = some m') :
    m'.Held (Function.update mode c (some b)) := by
  -- one reader more, or a writer where there was nobody
  obtain ⟨hx, ⟨rfl, rfl⟩ | ⟨rfl, hn, rfl⟩⟩ := acquire_cases hm
  · obtain ⟨F, hF, hcard⟩ := h.shared
    have hnot : c ∉ F := fun hmem => nomatch hc.symm.trans ((hF c).mp hmem)
    have hnone : ∀ d, Function.update mode c (some true) d ≠ some false := by
      intro d hd
      by_cases hdc : d = c
      · subst hdc
        rw [Function.update_self] at hd
        cases hd
      · rw [Function.update_of_ne hdc] at hd
        cases hx.symm.trans (h.exclusive.mpr ⟨d, hd⟩)
    refine ⟨⟨insert c F, fun d => ?_, ?_⟩, ?_, fun hd _ => absurd hd (hnone _)⟩
    · by_cases hdc : d = c
      · subst hdc
        simp
      · rw [Function.update_of_ne hdc, Finset.mem_insert]
        exact (or_iff_right hdc).trans (hF d)
    · rw [Finset.card_insert_of_notMem hnot, hcard]
    · constructor
      · intro hx'
        cases hx.symm.trans hx'
      · rintro ⟨d, hd⟩
        exact absurd hd (hnone d)
  -- the count is zero and the flag is down, so nobody holds it
  · have hothers : ∀ d, d ≠ c → mode d = none := by
      intro d _
      cases hd : mode d with
      | none => rfl
      | some b =>
        have hpos := h.holders_pos hd
        rw [holders, hn, hx] at hpos
        cases hpos
    refine ⟨⟨∅, fun d => ?_, hn.symm⟩, ⟨fun _ => ⟨c, Function.update_self ..⟩, fun _ => rfl⟩, ?_⟩
    · by_cases hdc : d = c
      · subst hdc
        simp
      · rw [Function.update_of_ne hdc, hothers d hdc]
        simp
    · intro d e b hd he
      have hown : ∀ {x : C} {b : Bool}, Function.update mode c (some false) x = some b → x = c := by
        intro x b hx
        by_contra hne
        rw [Function.update_of_ne hne, hothers x hne] at hx
        cases hx
      rw [hown hd, hown he]

/-- Whoever gives it back is gone from those who have it. The mode has to be the one it was taken
with, as it is when the lock object remembers it. -/
theorem Held.release (h : m.Held mode) (hc : mode c = some b) :
    (m.release b).Held (Function.update mode c none) := by
  have hself : Function.update mode c none c = none := Function.update_self ..
  -- one reader less, or the only holder
  cases b with
  | true =>
    have hx := h.not_exclusive hc
    obtain ⟨F, hF, hcard⟩ := h.shared
    refine ⟨⟨F.erase c, fun d => ?_, ?_⟩, ?_, fun {d e b} hd _ => ?_⟩
    · by_cases hdc : d = c
      · subst hdc
        simp
      · rw [Function.update_of_ne hdc, Finset.mem_erase]
        exact (and_iff_right hdc).trans (hF d)
    · rw [Finset.card_erase_of_mem ((hF c).mpr hc), hcard]
      rfl
    · constructor
      · intro hx'
        cases hx.symm.trans hx'
      · rintro ⟨d, hd⟩
        have hdc : d ≠ c := by
          rintro rfl
          cases hself.symm.trans hd
        rw [Function.update_of_ne hdc] at hd
        cases hx.symm.trans (h.exclusive.mpr ⟨d, hd⟩)
    · have hdc : d ≠ c := by
        rintro rfl
        cases hself.symm.trans hd
      rw [Function.update_of_ne hdc] at hd
      cases hx.symm.trans (h.exclusive.mpr ⟨d, hd⟩)
  | false =>
    have hnone : ∀ d, Function.update mode c none d = none := by
      intro d
      by_cases hdc : d = c
      · rw [hdc, hself]
      · rw [Function.update_of_ne hdc]
        cases hd : mode d with
        | none => rfl
        | some b => exact absurd (h.alone hc hd) hdc
    obtain ⟨F, hF, hcard⟩ := h.shared
    refine ⟨⟨F, fun d => ?_, hcard⟩, ?_, fun hd _ => nomatch (hnone _).symm.trans hd⟩
    · rw [hnone d, hF d]
      constructor
      · intro hd
        obtain rfl := h.alone hc hd
        cases hc.symm.trans hd
      · nofun
    · constructor
      · nofun
      · rintro ⟨d, hd⟩
        cases (hnone d).symm.trans hd

omit [DecidableEq C] in
/-- Whoever gives it back is a holder less. -/
theorem Held.holders_release (h : m.Held mode) (hc : mode c = some b) :
    (m.release b).holders < m.holders := by
  have hpos := h.holders_pos hc
  cases b with
  | true =>
    have hx := h.not_exclusive hc
    unfold holders at hpos ⊢
    show m.shared_count - 1 + (if m.exclusive then 1 else 0) < _
    rw [hx] at hpos ⊢
    exact Nat.sub_lt hpos Nat.one_pos
  | false =>
    unfold holders
    rw [if_pos (h.exclusive.mpr ⟨c, hc⟩)]
    exact Nat.lt_succ_self _

end Held

end SharedMutex

end CppDone
