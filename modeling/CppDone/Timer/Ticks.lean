import CppDone.Timer.Queue
import Mathlib.Data.List.Perm.Basic

/-!
# The waits of the timer

`CheckDelayedEventCallback` keeps one wait of `check_delayed_event_timer_` going: each tick starts
the next one. While there is no second, `expires_from_now` finds no pending wait and so completes
none with an error code. `Quiet` says so of a state, and as long as the queue is not stopped every
step of a worker and of the timer keeps it.

A second one comes about where a wait is cancelled and replaced while its handler is still to run:
by a `Stop` and a `Start` behind it. The handler of the cancelled wait finds an error code and
clears the table.
-/

set_option autoImplicit false

namespace CppDone.Timer

/-- A worker in a tick, or about to begin one. -/
def Worker.ticking : Worker → Bool
  | .now | .lock _ | .check _ | .post _ _ | .expires | .wait => true
  | _ => false

/-- Waits that ended with an error code and are not handled. -/
def errors (io : IoContext) (ws : List Worker) : Nat :=
  io.ready.countP (· = .check true) + ws.countP (· = .clear)

/-- Waits that are pending, ended without an error code, or are being handled. -/
def ticks (io : IoContext) (ws : List Worker) : Nat :=
  io.waits + io.ready.countP (· = .check false) + ws.countP Worker.ticking

/-! ## A timer that is quiet

No wait that has failed is on its way to a worker, and there is one tick at most. A second one would
set the timer anew, and so make the wait of the first one fail, which takes all events with it. -/

def Quiet (io : IoContext) (ws : List Worker) : Prop := errors io ws = 0 ∧ ticks io ws ≤ 1

instance (io : IoContext) (ws : List Worker) : Decidable (Quiet io ws) :=
  inferInstanceAs (Decidable (_ ∧ _))

theorem countP_eraseIdx_add {α : Type} {p : α → Bool} {l : List α} {i : Nat} {x : α}
    (hx : l[i]? = some x) : (l.eraseIdx i).countP p + (if p x then 1 else 0) = l.countP p := by
  obtain ⟨hi, rfl⟩ := List.getElem?_eq_some_iff.mp hx
  rw [← (List.getElem_cons_eraseIdx_perm hi).countP_eq p, List.countP_cons]

section Quiet

variable {io : IoContext} {ws : List Worker} {w : Nat} {pc pc' : Worker}

/-- A worker that takes up neither an error nor a tick. -/
theorem Quiet.set (h : Quiet io ws) (hw : ws[w]? = some pc) (hclear : pc' ≠ .clear)
    (htick : pc'.ticking = true → pc.ticking = true) : Quiet io (ws.set w pc') := by
  have herrors := countP_set_add (p := fun x => decide (x = .clear)) hw pc'
  have hticks := countP_set_add (p := Worker.ticking) hw pc'
  have hle : (if pc'.ticking then 1 else 0) ≤ if pc.ticking then 1 else 0 := by
    split
    · next ht => rw [if_pos (htick ht)]
    · exact Nat.zero_le _
  rw [if_neg (show ¬ decide (pc' = .clear) = true by simpa using hclear)] at herrors
  obtain ⟨h₁, h₂⟩ := h
  unfold errors at h₁
  unfold ticks at h₂
  refine ⟨?_, ?_⟩
  · unfold errors
    omega
  · unfold ticks
    omega

/-- No worker is at the error branch. -/
theorem Quiet.not_clear (h : Quiet io ws) : ws[w]? ≠ some .clear := by
  intro hw
  have hpos : 0 < ws.countP (· = .clear) :=
    List.countP_pos_iff.mpr ⟨_, List.mem_of_getElem? hw, by decide⟩
  have hzero : errors io ws = 0 := h.1
  unfold errors at hzero
  omega

theorem Quiet.post (h : Quiet io ws) (e : Nat) : Quiet (io.post (.event e)) ws := by
  obtain ⟨herrors, hticks⟩ := h
  refine ⟨?_, ?_⟩
  · unfold errors IoContext.post
    rw [List.countP_append]
    exact herrors
  · unfold ticks IoContext.post
    rw [List.countP_append]
    exact hticks

/-- A pending wait that expires is a tick as before. -/
theorem Quiet.expire (h : Quiet io ws) : Quiet (io.complete false) ws := by
  obtain ⟨herrors, hticks⟩ := h
  unfold errors at herrors
  unfold ticks at hticks
  refine ⟨?_, ?_⟩
  · unfold errors IoContext.complete
    simp only [List.countP_append, List.countP_replicate]
    simpa using herrors
  · unfold ticks IoContext.complete
    simp only [List.countP_append, List.countP_replicate]
    simp only [decide_true, if_true]
    omega

/-- The ready handler that is taken goes to a worker. -/
theorem Quiet.take (h : Quiet io ws) {i : Nat} {handler : Handler} (hw : ws[w]? = some .running)
    (hi : io.ready[i]? = some handler) :
    Quiet { io with ready := io.ready.eraseIdx i } (ws.set w handler.execute) := by
  obtain ⟨herrors, hticks⟩ := h
  unfold errors at herrors
  unfold ticks at hticks
  refine ⟨?_, ?_⟩
  -- the handler leaves the ready ones and appears at the worker, so the sum is the same
  · have hready := countP_eraseIdx_add (p := fun x => decide (x = .check true)) hi
    have hset := countP_set_add (p := fun x => decide (x = .clear)) hw handler.execute
    have hsame : (if decide (handler.execute = .clear) = true then 1 else 0) =
        if decide (handler = .check true) = true then 1 else 0 := by
      cases handler with
      | check error => cases error <;> rfl
      | event e => rfl
    rw [hsame, if_neg (by decide)] at hset
    show (io.ready.eraseIdx i).countP _ + (ws.set w handler.execute).countP _ = 0
    omega
  · have hready := countP_eraseIdx_add (p := fun x => decide (x = .check false)) hi
    have hset := countP_set_add (p := Worker.ticking) hw handler.execute
    have hsame : (if handler.execute.ticking = true then 1 else 0) =
        if decide (handler = .check false) = true then 1 else 0 := by
      cases handler with
      | check error => cases error <;> rfl
      | event e => rfl
    rw [hsame, if_neg (by decide)] at hset
    show io.waits + (io.ready.eraseIdx i).countP _ + (ws.set w handler.execute).countP _ ≤ 1
    omega

/-- The tick that re-arms the timer is the only one: there is no wait to cancel. -/
theorem Quiet.expires (h : Quiet io ws) (hw : ws[w]? = some .expires) (t : Nat) :
    Quiet (io.expiresAt t) (ws.set w .wait) := by
  have hpos : 0 < ws.countP Worker.ticking :=
    List.countP_pos_iff.mpr ⟨_, List.mem_of_getElem? hw, rfl⟩
  have hwaits : io.waits = 0 := by
    have hone : ticks io ws ≤ 1 := h.2
    unfold ticks at hone
    omega
  have hready : (io.expiresAt t).ready = io.ready := by
    show io.ready ++ List.replicate io.waits (.check true) = io.ready
    rw [hwaits]
    exact List.append_nil _
  have hquiet : Quiet io (ws.set w .wait) := h.set hw (by decide) fun _ => rfl
  obtain ⟨herrors, hticks⟩ := hquiet
  refine ⟨?_, ?_⟩
  · unfold errors at herrors ⊢
    rw [hready]
    exact herrors
  · unfold ticks at hticks ⊢
    rw [hready]
    show 0 + _ + _ ≤ 1
    omega

/-- And it goes on as a wait. -/
theorem Quiet.wait (h : Quiet io ws) (hw : ws[w]? = some .wait) :
    Quiet io.asyncWait (ws.set w .running) := by
  have hset := countP_set_add (p := Worker.ticking) hw .running
  rw [if_pos (show Worker.wait.ticking = true from rfl), if_neg (by decide)] at hset
  have hquiet : Quiet io (ws.set w .running) := h.set hw (by decide) (by decide)
  obtain ⟨-, hticks⟩ := h
  refine ⟨hquiet.1, ?_⟩
  unfold ticks at hticks
  show io.waits + 1 + io.ready.countP _ + (ws.set w .running).countP _ ≤ 1
  omega

end Quiet

end CppDone.Timer
