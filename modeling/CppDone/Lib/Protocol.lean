import CppDone.Lib.Machine
import CppDone.Lib.Program

/-!
# Protocols

A library that is used call by call asks something of the order of the calls: its protocol is a
machine over the calls with their answers, without a step where a call is misuse. `Keeps` says of a
program, and of a state of the protocol, that whatever the answers are no call is misuse, and how
things stand at the end. It is put together along a sequence.
-/

set_option autoImplicit false

namespace CppDone

namespace Program

variable {ι α β ρ : Type} {M : Machine ρ (ι × Bool)}

def Keeps (M : Machine ρ (ι × Bool)) : Program ι α → ρ → (α → ρ → Prop) → Prop
  | ret a, r, post => post a r
  | instr i next, r, post =>
    ∀ answer, ∃ r', M.step r (i, answer) = some r' ∧ (next answer).Keeps M r' post

theorem Keeps.bind {t : Program ι α} {f : α → Program ι β} {r : ρ} {mid : α → ρ → Prop}
    {post : β → ρ → Prop} (h : t.Keeps M r mid)
    (hf : ∀ a r', mid a r' → (f a).Keeps M r' post) : (t.bind f).Keeps M r post := by
  induction t generalizing r with
  | ret a => exact hf a r h
  | instr i next ih =>
    intro answer
    obtain ⟨r', hr', hnext⟩ := h answer
    exact ⟨r', hr', ih answer hnext⟩

theorem Keeps.mono {t : Program ι α} {r : ρ} {post post' : α → ρ → Prop} (h : t.Keeps M r post)
    (hpost : ∀ a r', post a r' → post' a r') : t.Keeps M r post' := by
  induction t generalizing r with
  | ret a => exact hpost a r h
  | instr i next ih =>
    intro answer
    obtain ⟨r', hr', hnext⟩ := h answer
    exact ⟨r', hr', ih answer hnext⟩

/-- Instructions that leave the state of the protocol as it is. -/
theorem Only.keeps {p : ι → Bool} {t : Program ι α} (ht : t.Only p) {r : ρ}
    (hp : ∀ i, p i = true → ∀ answer, M.step r (i, answer) = some r) :
    t.Keeps M r fun _ r' => r' = r := by
  induction t with
  | ret a => rfl
  | instr i next ih => exact fun answer => ⟨r, hp i ht.1 answer, ih answer (ht.2 answer)⟩

end Program

end CppDone
