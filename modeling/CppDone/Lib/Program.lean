/-!
# Programs that stop at every instruction

A thread's code as the rest of what it will do: it has come to its end with a value, or it is at an
instruction and goes on by the answer, which is a yes or a no. A machine takes such a rest as part
of its state and lets other parties in between any two instructions.

Of a program that owes an instruction (a destructor it runs at the end, a lock it gives back) one
wants to know that the instruction comes on every way to the end. `Awaits` says so of one rest, and
`Steady` of every rest that can come up; both are read off the last part of a sequence. Which
answers an instruction can get, where the program is to go on at all, is a parameter.
-/

set_option autoImplicit false

namespace CppDone

/-- `ι` are the instructions. The values of a program are of type `α`; whatever an instruction needs
to be told is in `ι`. -/
inductive Program (ι α : Type) where
  | ret (a : α)
  | instr (i : ι) (next : Bool → Program ι α)

namespace Program

variable {ι α β : Type}

def bind : Program ι α → (α → Program ι β) → Program ι β
  | ret a, f => f a
  | instr i next, f => instr i fun answer => (next answer).bind f

instance : Monad (Program ι) where
  pure := ret
  bind := bind

/-- One instruction, with its answer as the value. -/
def ask (i : ι) : Program ι Bool := instr i ret

def ended : Program ι α → Bool
  | ret _ => true
  | instr _ _ => false

theorem bind_ret (t : Program ι α) : t.bind ret = t := by
  induction t with
  | ret a => rfl
  | instr i next ih => exact congrArg (instr i) (funext ih)

theorem bind_assoc {γ : Type} (t : Program ι α) (f : α → Program ι β) (g : β → Program ι γ) :
    (t.bind f).bind g = t.bind fun a => (f a).bind g := by
  induction t with
  | ret a => rfl
  | instr i next ih =>
    have hnext : (fun answer => ((next answer).bind f).bind g) =
        fun answer => (next answer).bind fun a => (f a).bind g := funext ih
    exact congrArg (instr i) hnext

/-! ## What still comes

Read off the structure: of a sequence it is enough to know the last part, if what is in front cannot
get stuck. -/

variable {p : ι → Bool} {possible : ι → Bool → Prop}

/-- Whatever the answers, an instruction of `p` comes. -/
def Awaits (possible : ι → Bool → Prop) (p : ι → Bool) : Program ι α → Prop
  | ret _ => False
  | instr i next => p i = true ∨ ∀ answer, possible i answer → (next answer).Awaits possible p

/-- Wherever the program gets, it is at its end or an instruction of `p` still comes. -/
def Steady (possible : ι → Bool → Prop) (p : ι → Bool) : Program ι α → Prop
  | ret _ => True
  | instr i next =>
    (p i = true ∨ ∀ answer, possible i answer → (next answer).Awaits possible p) ∧
      ∀ answer, possible i answer → (next answer).Steady possible p

/-- All its instructions are of `p`. -/
def Only (p : ι → Bool) : Program ι α → Prop
  | ret _ => True
  | instr i next => p i = true ∧ ∀ answer, (next answer).Only p

theorem Steady.awaits {t : Program ι α} (h : t.Steady possible p) (ht : t.ended = false) :
    t.Awaits possible p := by
  cases t with
  | ret a => cases ht
  | instr i next => exact h.1

/-- What comes in the second part comes in the whole. -/
theorem Awaits.bind {t : Program ι α} {f : α → Program ι β} (h : ∀ a, (f a).Awaits possible p) :
    (t.bind f).Awaits possible p := by
  induction t with
  | ret a => exact h a
  | instr i next ih => exact Or.inr fun answer _ => ih answer

theorem Steady.bind {t : Program ι α} {f : α → Program ι β} (h : ∀ a, (f a).Awaits possible p)
    (hf : ∀ a, (f a).Steady possible p) : (t.bind f).Steady possible p := by
  induction t with
  | ret a => exact hf a
  | instr i next ih => exact ⟨Or.inr fun _ _ => Awaits.bind h, fun answer _ => ih answer⟩

theorem Only.bind {t : Program ι α} {f : α → Program ι β} (ht : t.Only p)
    (hf : ∀ a, (f a).Only p) : (t.bind f).Only p := by
  induction t with
  | ret a => exact hf a
  | instr i next ih => exact ⟨ht.1, fun answer => ih answer (ht.2 answer)⟩

theorem Only.mono {q : ι → Bool} {t : Program ι α} (h : t.Only p)
    (hpq : ∀ i, p i = true → q i = true) : t.Only q := by
  induction t with
  | ret a => trivial
  | instr i next ih => exact ⟨hpq i h.1, fun answer => ih answer (h.2 answer)⟩

theorem Only.steady {t : Program ι α} (h : t.Only p) : t.Steady possible p := by
  induction t with
  | ret a => trivial
  | instr i next ih => exact ⟨Or.inl h.1, fun answer _ => ih answer (h.2 answer)⟩

/-! ## How much can still come

The longest way, since the answers decide which one is taken. -/

/-- The instructions on the longest way to the end. -/
def depth : Program ι α → Nat
  | ret _ => 0
  | instr _ next => max (next true).depth (next false).depth + 1

theorem depth_next (i : ι) (next : Bool → Program ι α) (answer : Bool) :
    (next answer).depth + 1 ≤ (instr i next).depth := by
  cases answer with
  | true => exact Nat.succ_le_succ (Nat.le_max_left _ _)
  | false => exact Nat.succ_le_succ (Nat.le_max_right _ _)

/-! ## Runs

A run to the end is the list of the instructions with their answers, and the value. What holds of
all runs is put together from what holds of the parts. -/

def Ran : Program ι α → List (ι × Bool) → α → Prop
  | ret a, trace, b => trace = [] ∧ b = a
  | instr i next, trace, b =>
    ∃ answer rest, trace = (i, answer) :: rest ∧ (next answer).Ran rest b

/-- The run in which `answers` decides on every instruction. -/
def answered (answers : ι → Bool) : Program ι α → List (ι × Bool) × α
  | ret a => ([], a)
  | instr i next =>
    let rest := (next (answers i)).answered answers
    ((i, answers i) :: rest.1, rest.2)

theorem ran_answered (answers : ι → Bool) (t : Program ι α) :
    t.Ran (t.answered answers).1 (t.answered answers).2 := by
  induction t with
  | ret a => exact ⟨rfl, rfl⟩
  | instr i next ih => exact ⟨answers i, _, rfl, ih (answers i)⟩

/-- `Q` holds of every run. -/
def Ensures : Program ι α → (List (ι × Bool) → α → Prop) → Prop
  | ret a, Q => Q [] a
  | instr i next, Q =>
    ∀ answer, (next answer).Ensures fun trace a => Q ((i, answer) :: trace) a

theorem ensures_iff {t : Program ι α} {Q : List (ι × Bool) → α → Prop} :
    t.Ensures Q ↔ ∀ trace a, t.Ran trace a → Q trace a := by
  induction t generalizing Q with
  | ret a =>
    constructor
    · rintro h trace b ⟨rfl, rfl⟩
      exact h
    · exact fun h => h [] a ⟨rfl, rfl⟩
  | instr i next ih =>
    constructor
    · rintro h trace a ⟨answer, rest, rfl, hrest⟩
      exact (ih answer).mp (h answer) rest a hrest
    · intro h answer
      apply (ih answer).mpr
      intro rest a hrest
      exact h _ a ⟨answer, rest, rfl, hrest⟩

theorem Ensures.mono {t : Program ι α} {Q R : List (ι × Bool) → α → Prop} (h : t.Ensures Q)
    (hQR : ∀ trace a, Q trace a → R trace a) : t.Ensures R := by
  apply ensures_iff.mpr
  intro trace a hran
  exact hQR trace a (ensures_iff.mp h trace a hran)

theorem Ensures.and {t : Program ι α} {Q R : List (ι × Bool) → α → Prop} (hQ : t.Ensures Q)
    (hR : t.Ensures R) : t.Ensures fun trace a => Q trace a ∧ R trace a := by
  apply ensures_iff.mpr
  intro trace a hran
  exact ⟨ensures_iff.mp hQ trace a hran, ensures_iff.mp hR trace a hran⟩

theorem ensures_true (t : Program ι α) : t.Ensures fun _ _ => True :=
  ensures_iff.mpr fun _ _ _ => trivial

/-- A run of a sequence is a run of the first part and then one of the second. -/
theorem Ensures.bind {t : Program ι α} {f : α → Program ι β} {Q : List (ι × Bool) → α → Prop}
    {R : List (ι × Bool) → β → Prop} (h : t.Ensures Q)
    (hf : ∀ trace a, Q trace a → (f a).Ensures fun trace' b => R (trace ++ trace') b) :
    (t.bind f).Ensures R := by
  induction t generalizing Q R with
  | ret a => exact hf [] a h
  | instr i next ih =>
    intro answer
    apply ih answer (h answer)
    intro trace a hQ
    exact hf _ a hQ

theorem Ensures.map {t : Program ι α} {g : α → β} {Q : List (ι × Bool) → β → Prop}
    (h : t.Ensures fun trace a => Q trace (g a)) : (t.bind fun a => ret (g a)).Ensures Q := by
  apply h.bind
  intro trace a hQ
  show Q (trace ++ []) (g a)
  rw [List.append_nil]
  exact hQ

theorem ensures_only {t : Program ι α} (h : t.Only p) :
    t.Ensures fun trace _ => ∀ x ∈ trace, p x.1 = true := by
  induction t with
  | ret a =>
    intro x hx
    cases hx
  | instr i next ih =>
    intro answer
    apply (ih answer (h.2 answer)).mono
    intro trace _ htrace
    exact List.forall_mem_cons.mpr ⟨h.1, htrace⟩

/-! ## The same instructions

Two texts of one code, of which the second knows less. They stop at the same instructions and go on
by the same answers, up to a translation. -/

/-- Two programs are at the same instructions, when the answers to the second are what `f` makes of
the answers to the first, and come to related values. -/
def Follows (f : ι → Bool → Bool) (r : α → β → Prop) : Program ι α → Program ι β → Prop
  | ret a, ret b => r a b
  | instr i next, instr j next' =>
    i = j ∧ ∀ answer, (next answer).Follows f r (next' (f i answer))
  | ret _, instr _ _ => False
  | instr _ _, ret _ => False

variable {γ δ : Type} {f : ι → Bool → Bool}

theorem Follows.ran {r : α → β → Prop} {t : Program ι α} {t' : Program ι β}
    (h : t.Follows f r t') {trace : List (ι × Bool)} {a : α} (hran : t.Ran trace a) :
    ∃ b, t'.Ran (trace.map fun x => (x.1, f x.1 x.2)) b ∧ r a b := by
  induction t generalizing t' trace with
  | ret a' =>
    cases t' with
    | ret b =>
      obtain ⟨rfl, rfl⟩ := hran
      exact ⟨b, ⟨rfl, rfl⟩, h⟩
    | instr j next' => exact h.elim
  | instr i next ih =>
    cases t' with
    | ret b => exact h.elim
    | instr j next' =>
      obtain ⟨rfl, hnext⟩ := h
      obtain ⟨answer, rest, rfl, hrest⟩ := hran
      obtain ⟨b, hb, hr⟩ := ih answer (hnext answer) hrest
      exact ⟨b, ⟨f i answer, _, rfl, hb⟩, hr⟩

theorem Follows.bind {r : α → β → Prop} {r' : γ → δ → Prop} {t : Program ι α}
    {t' : Program ι β} {g : α → Program ι γ} {g' : β → Program ι δ} (h : t.Follows f r t')
    (hg : ∀ a b, r a b → (g a).Follows f r' (g' b)) : (t.bind g).Follows f r' (t'.bind g') := by
  induction t generalizing t' with
  | ret a =>
    cases t' with
    | ret b => exact hg a b h
    | instr j next' => exact h.elim
  | instr i next ih =>
    cases t' with
    | ret b => exact h.elim
    | instr j next' => exact ⟨h.1, fun answer => ih answer (h.2 answer)⟩

/-- The value may be made into another one. -/
theorem Follows.map {r : α → β → Prop} {r' : γ → β → Prop} {t : Program ι α} {t' : Program ι β}
    {g : α → γ} (h : t.Follows f r t') (hg : ∀ a b, r a b → r' (g a) b) :
    (t.bind fun a => ret (g a)).Follows f r' t' := by
  rw [← bind_ret t']
  exact h.bind hg

/-- Instructions whose answers are left as they are. -/
theorem Follows.refl (hf : ∀ i, p i = true → ∀ answer, f i answer = answer) {t : Program ι α}
    (h : t.Only p) : t.Follows f Eq t := by
  induction t with
  | ret a => rfl
  | instr i next ih =>
    refine ⟨rfl, fun answer => ?_⟩
    rw [hf i h.1]
    exact ih answer (h.2 answer)

end Program

end CppDone
