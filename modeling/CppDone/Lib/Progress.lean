import CppDone.Lib.Machine

/-!
# Getting somewhere

A machine does not say which of its steps are taken, so that something *will* happen needs an
assumption on the schedule. Two things can be said without one. `M.Leads ok s t`: steps of the
kind `ok`, and of no other, lead from `s` to `t`, so that whoever takes these steps needs nobody
else to get there. And a run cannot go on for ever in steps that lower a measure, so that it is
over, or another party has to act.

For both it is enough to look at single steps. A measure is often the sum over the parties.
-/

set_option autoImplicit false

namespace CppDone

/-! ## Adding up

The sum over the parties, and what one step does to it. -/

section Total

variable {β : Type} (f : β → Nat)

/-- What the records of a list come to. -/
def total : List β → Nat
  | [] => 0
  | x :: l => f x + total l

@[simp] theorem total_nil : total f [] = 0 := rfl

@[simp] theorem total_cons (x : β) (l : List β) : total f (x :: l) = f x + total f l := rfl

@[simp] theorem total_append (l l' : List β) : total f (l ++ l') = total f l + total f l' := by
  induction l with
  | nil => simp
  | cons x l ih => simp [ih, Nat.add_assoc]

/-- One record changes. -/
theorem total_set_add {l : List β} {i : Nat} {x : β} (hx : l[i]? = some x) (y : β) :
    total f (l.set i y) + f x = total f l + f y := by
  induction l generalizing i with
  | nil => simp at hx
  | cons z l ih =>
    cases i with
    | zero =>
      obtain rfl : z = x := by simpa using hx
      simp only [List.set_cons_zero, total_cons]
      omega
    | succ i =>
      have hrest := ih (by simpa using hx)
      simp only [List.set_cons_succ, total_cons]
      omega

theorem total_zero (l : List β) : total (fun _ => 0) l = 0 := by
  induction l with
  | nil => rfl
  | cons x l ih => simp [ih]

theorem total_ite (p : β → Bool) (k : Nat) (l : List β) :
    total (fun x => if p x then k else 0) l = k * l.countP p := by
  induction l with
  | nil => simp
  | cons x l ih =>
    cases hp : p x with
    | true => simp [hp, ih, Nat.mul_succ, Nat.add_comm]
    | false => simp [hp, ih]

end Total

namespace Machine

variable {σ α : Type} {M : Machine σ α} {ok : α → Prop} {s t u : σ}

/-! ## Leading to a state

Some run of the machine, by steps of a certain kind, gets from one state to another. That there is
one is what remains of "it comes to an end" when nobody promises that the threads are treated
fairly. -/

/-- Some schedule of allowed actions leads from `s` to `t`. -/
def Leads (M : Machine σ α) (ok : α → Prop) (s t : σ) : Prop :=
  ∃ as, M.runFrom s as = some t ∧ ∀ a ∈ as, ok a

theorem Leads.refl (s : σ) : M.Leads ok s s := ⟨[], rfl, fun _ h => (by cases h)⟩

theorem Leads.single {a : α} (ha : ok a) (h : M.step s a = some t) : M.Leads ok s t := by
  refine ⟨[a], Option.bind_eq_some_iff.mpr ⟨t, h, rfl⟩, fun b hb => ?_⟩
  rw [List.mem_singleton.mp hb]
  exact ha

theorem Leads.trans (h : M.Leads ok s t) (h' : M.Leads ok t u) : M.Leads ok s u := by
  obtain ⟨as, has, hok⟩ := h
  obtain ⟨bs, hbs, hok'⟩ := h'
  refine ⟨as ++ bs, ?_, fun a ha => ?_⟩
  · rw [runFrom_append, has]
    exact hbs
  · rcases List.mem_append.mp ha with ha | ha
    · exact hok a ha
    · exact hok' a ha

theorem Leads.mono {ok' : α → Prop} (h : M.Leads ok s t) (himp : ∀ a, ok a → ok' a) :
    M.Leads ok' s t :=
  let ⟨as, has, hok⟩ := h
  ⟨as, has, fun a ha => himp a (hok a ha)⟩

/-- One allowed step more. -/
theorem Leads.step {a : α} (h : M.Leads ok s t) (ha : ok a) (hs : M.step t a = some u) :
    M.Leads ok s u :=
  h.trans (Leads.single ha hs)

/-- What the allowed steps keep is kept on the way. -/
theorem Leads.inv {I : σ → Prop} (hstep : ∀ {s a s'}, I s → ok a → M.step s a = some s' → I s')
    (h : M.Leads ok s t) (hs : I s) : I t :=
  let ⟨_, has, hok⟩ := h
  runFrom_inv_of hstep hok hs has

/-- **A measure that some allowed step lowers leads to the goal**, if that step keeps what the
measure rests on. -/
theorem leads_of_measure {I goal : σ → Prop} (μ : σ → Nat)
    (hstep : ∀ s, I s → ¬ goal s → ∃ a s', ok a ∧ M.step s a = some s' ∧ I s' ∧ μ s' < μ s)
    (hs : I s) : ∃ t, M.Leads ok s t ∧ I t ∧ goal t := by
  generalize hn : μ s = n
  induction n using Nat.strongRecOn generalizing s with
  | ind n ih =>
    by_cases hgoal : goal s
    · exact ⟨s, Leads.refl s, hs, hgoal⟩
    · obtain ⟨a, s', ha, hs', hI, hlt⟩ := hstep s hs hgoal
      obtain ⟨t, ht, hIt, hgoalt⟩ := ih (μ s') (hn ▸ hlt) hI rfl
      exact ⟨t, (Leads.single ha hs').trans ht, hIt, hgoalt⟩

/-- **Allowed steps that all lower a measure lead to where none is possible.** -/
theorem leads_of_still {I goal : σ → Prop} (μ : σ → Nat)
    (hstep : ∀ {s a s'}, I s → ok a → M.step s a = some s' → I s' ∧ μ s' < μ s)
    (hgoal : ∀ {s}, I s → (∀ a, ok a → M.step s a = none) → goal s) (hs : I s) :
    ∃ t, M.Leads ok s t ∧ I t ∧ goal t := by
  refine leads_of_measure μ (fun s hI hnot => ?_) hs
  have hmoves : ¬ ∀ a, ok a → M.step s a = none := fun hstill => hnot (hgoal hI hstill)
  obtain ⟨a, hmoves⟩ := not_forall.mp hmoves
  obtain ⟨ha, hsome⟩ := Classical.not_imp.mp hmoves
  obtain ⟨s', hs'⟩ := Option.ne_none_iff_exists'.mp hsome
  obtain ⟨hI', hlt⟩ := hstep hI ha hs'
  exact ⟨a, s', ha, hs', hI', hlt⟩

/-! ### How many steps

A bound on the steps of a kind along any run: each takes something from a potential, and what the
others bring to it is counted. -/

/-- **Where a step pays one for being of a kind, and may be given something**, a run has no more
steps of the kind than what there was and what was given. -/
theorem countP_le_of_potential {I : σ → Prop} (p : α → Bool) (given : α → Nat) (μ : σ → Nat)
    (hstep : ∀ {s a s'}, I s → ok a → M.step s a = some s' →
      I s' ∧ μ s' + (if p a then 1 else 0) ≤ μ s + given a)
    {as : List α} (hok : ∀ a ∈ as, ok a) (hs : I s) (h : M.runFrom s as = some t) :
    as.countP p + μ t ≤ μ s + total given as := by
  induction as generalizing s with
  | nil =>
    obtain rfl : s = t := by simpa using h
    simp
  | cons a as ih =>
    obtain ⟨s', hs', h'⟩ := Option.bind_eq_some_iff.mp h
    obtain ⟨ha, hrest⟩ := List.forall_mem_cons.mp hok
    obtain ⟨hI, hle⟩ := hstep hs ha hs'
    have hle' := ih hrest hI h'
    rw [List.countP_cons, total_cons]
    omega

/-- The same where every step pays, from every state. -/
theorem countP_le_of_paid (p : α → Bool) (given : α → Nat) (μ : σ → Nat)
    (hstep : ∀ {s a s'}, M.step s a = some s' →
      μ s' + (if p a then 1 else 0) ≤ μ s + given a)
    {as : List α} (h : M.runFrom s as = some t) : as.countP p + μ t ≤ μ s + total given as := by
  have hpaid : ∀ {s a s'}, True → True → M.step s a = some s' →
      True ∧ μ s' + (if p a then 1 else 0) ≤ μ s + given a :=
    fun _ _ hs => ⟨trivial, hstep hs⟩
  exact countP_le_of_potential p given μ hpaid (fun _ _ => trivial) trivial h

/-- **Where no allowed step raises a measure and those of a kind lower it, a run has no more steps
of the kind than the measure says.** -/
theorem countP_le_of_measure {I : σ → Prop} (p : α → Bool) (μ : σ → Nat)
    (hstep : ∀ {s a s'}, I s → ok a → M.step s a = some s' →
      I s' ∧ μ s' + (if p a then 1 else 0) ≤ μ s)
    {as : List α} (hok : ∀ a ∈ as, ok a) (hs : I s) (h : M.runFrom s as = some t) :
    as.countP p + μ t ≤ μ s := by
  have hle := countP_le_of_potential p (fun _ => 0) μ (fun hI ha hs => hstep hI ha hs) hok hs h
  rwa [total_zero] at hle

end Machine

end CppDone
