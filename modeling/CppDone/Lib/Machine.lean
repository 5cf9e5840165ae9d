import Mathlib.Data.List.Induction

/-!
# Labelled machines and what holds along their runs

Every concurrent component of this development is the same kind of object: a state, a set of
labels naming *which party does which of its atomic steps*, and a function that says what the
step does or that it is not possible here. The nondeterminism of an interleaving lives in the
labels, so a schedule is a list of labels and a concrete run is a closed computation.

What is proved once here is the induction everybody needs. `Machine.run_induction` carries a
predicate of the schedule *and* the state it reached, which is what a statement about a history
wants; `Machine.Reachable.inv` is its state-only reading; `Machine.Meets.inv` is the reading for
the runs all of whose steps meet a condition, which is how a component that is right only under
a condition on its schedule is stated.
-/

set_option autoImplicit false

namespace CppDone

/-- A machine: where it starts, and what a labelled step does to a state (`none`: the step is not
possible there). Labels may carry what the outside decides, so that the step itself is a function.
-/
structure Machine (σ α : Type) where
  init : σ
  step : σ → α → Option σ

namespace Machine

variable {σ α : Type} {M : Machine σ α}

/-- The state a schedule leads to from `s`, if every step of it is possible. -/
def runFrom (M : Machine σ α) : σ → List α → Option σ
  | s, [] => some s
  | s, a :: as => (M.step s a).bind fun s' => M.runFrom s' as

/-- The state a schedule leads to from the start. -/
def run (M : Machine σ α) (as : List α) : Option σ := M.runFrom M.init as

@[simp] theorem runFrom_nil (s : σ) : M.runFrom s [] = some s := rfl

@[simp] theorem runFrom_cons (s : σ) (a : α) (as : List α) :
    M.runFrom s (a :: as) = (M.step s a).bind fun s' => M.runFrom s' as := rfl

theorem runFrom_append (s : σ) (as bs : List α) :
    M.runFrom s (as ++ bs) = (M.runFrom s as).bind fun s' => M.runFrom s' bs := by
  induction as generalizing s with
  | nil => rfl
  | cons a as ih =>
    cases h : M.step s a with
    | none => simp [h]
    | some s' => simp [h, ih]

theorem runFrom_snoc {s t u : σ} {as : List α} {a : α} (h : M.runFrom s as = some t)
    (ha : M.step t a = some u) : M.runFrom s (as ++ [a]) = some u := by
  rw [runFrom_append, h]
  simp [ha]

@[simp] theorem run_nil : M.run [] = some M.init := rfl

theorem run_append {as bs : List α} {s : σ} :
    M.run (as ++ bs) = some s ↔ ∃ t, M.run as = some t ∧ M.runFrom t bs = some s := by
  simp [run, runFrom_append, Option.bind_eq_some_iff]

theorem run_snoc {as : List α} {a : α} {s : σ} :
    M.run (as ++ [a]) = some s ↔ ∃ t, M.run as = some t ∧ M.step t a = some s := by
  simp [run_append]

/-- `s` is reached by some schedule. -/
def Reachable (M : Machine σ α) (s : σ) : Prop := ∃ as, M.run as = some s

theorem Reachable.init : M.Reachable M.init := ⟨[], rfl⟩

theorem Reachable.step {s s' : σ} {a : α} (h : M.Reachable s) (hs : M.step s a = some s') :
    M.Reachable s' :=
  let ⟨as, has⟩ := h
  ⟨as ++ [a], run_snoc.mpr ⟨s, has, hs⟩⟩

theorem Reachable.runFrom {s s' : σ} {as : List α} (h : M.Reachable s)
    (hs : M.runFrom s as = some s') : M.Reachable s' :=
  let ⟨pre, hpre⟩ := h
  ⟨pre ++ as, run_append.mpr ⟨s, hpre, hs⟩⟩

/-- Induction along a part of a run, last step last. -/
theorem runFrom_induction {s₀ : σ} {P : List α → σ → Prop} (h₀ : P [] s₀)
    (hstep : ∀ as s a s', M.runFrom s₀ as = some s → P as s → M.step s a = some s' →
      P (as ++ [a]) s')
    {as : List α} {s : σ} (h : M.runFrom s₀ as = some s) : P as s := by
  induction as using List.reverseRecOn generalizing s with
  | nil =>
    obtain rfl : s₀ = s := by simpa using h
    exact h₀
  | append_singleton as a ih =>
    rw [runFrom_append] at h
    obtain ⟨t, ht, hs⟩ := Option.bind_eq_some_iff.mp h
    exact hstep as t a s ht (ih ht) (by simpa using hs)

/-- **Induction along a run**, last step last: the predicate sees the whole schedule so far. -/
theorem run_induction {P : List α → σ → Prop} (h₀ : P [] M.init)
    (hstep : ∀ as s a s', M.run as = some s → P as s → M.step s a = some s' → P (as ++ [a]) s')
    {as : List α} {s : σ} (h : M.run as = some s) : P as s :=
  runFrom_induction h₀ hstep h

/-! ## Invariants

What holds at the start and is kept by each step holds of every state that can be reached. A run
that meets a condition at each of its steps has more: there the step may use it. -/

/-- An invariant: it holds at the start and every step keeps it. -/
structure Inductive (M : Machine σ α) (I : σ → Prop) : Prop where
  init : I M.init
  step : ∀ {s a s'}, I s → M.step s a = some s' → I s'

theorem Reachable.inv {I : σ → Prop} (hI : M.Inductive I) {s : σ} (h : M.Reachable s) : I s :=
  let ⟨_, has⟩ := h
  run_induction (P := fun _ s => I s) hI.init (fun _ _ _ _ _ hs h => hI.step hs h) has

/-- Every step of the schedule is taken in a state where `ok` allows it. -/
def Meets (M : Machine σ α) (ok : σ → α → Prop) (as : List α) : Prop :=
  ∀ pre a post s, as = pre ++ a :: post → M.run pre = some s → ok s a

theorem meets_nil {ok : σ → α → Prop} : M.Meets ok [] := by
  intro pre a post s h
  simp at h

theorem meets_snoc {ok : σ → α → Prop} {as : List α} {a : α} {s : σ} (hs : M.run as = some s) :
    M.Meets ok (as ++ [a]) ↔ M.Meets ok as ∧ ok s a := by
  constructor
  · intro h
    refine ⟨fun pre b post t he ht => ?_, h as a [] s rfl hs⟩
    exact h pre b (post ++ [a]) t (by simp [he]) ht
  · rintro ⟨h, hok⟩ pre b post t he ht
    rcases List.eq_nil_or_concat post with rfl | ⟨post', c, rfl⟩
    · obtain ⟨rfl, rfl⟩ : as = pre ∧ a = b := by simpa using List.append_inj' he rfl
      rw [ht] at hs
      cases hs
      exact hok
    · have he' : as = pre ++ b :: post' := by
        have hcat : as ++ [a] = (pre ++ b :: post') ++ [c] := by simpa using he
        exact (List.append_inj' hcat rfl).1
      exact h pre b post' t he' ht

/-- `Meets`, read off step by step. -/
def MeetsFrom (M : Machine σ α) (ok : σ → α → Prop) : σ → List α → Prop
  | _, [] => True
  | s, a :: as => ok s a ∧ ∀ s' ∈ M.step s a, M.MeetsFrom ok s' as

theorem meets_iff_meetsFrom {ok : σ → α → Prop} {as : List α} :
    M.Meets ok as ↔ M.MeetsFrom ok M.init as := by
  -- from any state, so that the induction can go on behind the first step
  have hgen : ∀ t, M.MeetsFrom ok t as ↔
      ∀ pre a post s, as = pre ++ a :: post → M.runFrom t pre = some s → ok s a := by
    induction as with
    | nil =>
      intro t
      refine ⟨fun _ pre a post s he => ?_, fun _ => trivial⟩
      simp at he
    | cons b as ih =>
      intro t
      constructor
      · rintro ⟨hok, hrest⟩ pre a post s he hs
        cases pre with
        | nil =>
          obtain ⟨rfl, -⟩ : b = a ∧ as = post := by simpa using he
          obtain rfl : t = s := by simpa using hs
          exact hok
        | cons c pre =>
          obtain ⟨rfl, he'⟩ : b = c ∧ as = pre ++ a :: post := by simpa using he
          obtain ⟨t', ht', hs'⟩ := Option.bind_eq_some_iff.mp hs
          exact (ih t').mp (hrest t' ht') pre a post s he' hs'
      · intro h
        refine ⟨h [] b as t rfl rfl, fun t' ht' => (ih t').mpr ?_⟩
        intro pre a post s he hs
        exact h (b :: pre) a post s (by rw [he]; rfl) (Option.bind_eq_some_iff.mpr ⟨t', ht', hs⟩)
  exact (hgen M.init).symm

/-- A schedule in two parts. -/
theorem meetsFrom_append {ok : σ → α → Prop} {s : σ} {as bs : List α} :
    M.MeetsFrom ok s (as ++ bs) ↔
      M.MeetsFrom ok s as ∧ ∀ t, M.runFrom s as = some t → M.MeetsFrom ok t bs := by
  induction as generalizing s with
  | nil =>
    constructor
    · intro h
      refine ⟨trivial, fun t ht => ?_⟩
      obtain rfl : s = t := by simpa using ht
      exact h
    · exact fun h => h.2 s rfl
  | cons a as ih =>
    constructor
    · rintro ⟨hok, hrest⟩
      refine ⟨⟨hok, fun s' hs' => (ih.mp (hrest s' hs')).1⟩, fun t ht => ?_⟩
      obtain ⟨s', hs', ht'⟩ := Option.bind_eq_some_iff.mp ht
      exact (ih.mp (hrest s' hs')).2 t ht'
    · rintro ⟨⟨hok, hrest⟩, hend⟩
      refine ⟨hok, fun s' hs' => ih.mpr ⟨hrest s' hs', fun t ht => hend t ?_⟩⟩
      exact Option.bind_eq_some_iff.mpr ⟨s', hs', ht⟩

theorem Meets.rest {ok : σ → α → Prop} {s : σ} {as bs : List α} (h : M.Meets ok (as ++ bs))
    (hr : M.run as = some s) : M.MeetsFrom ok s bs :=
  (meetsFrom_append.mp (meets_iff_meetsFrom.mp h)).2 s hr

instance decidableMeetsFrom {ok : σ → α → Prop} [∀ s a, Decidable (ok s a)] :
    (s : σ) → (as : List α) → Decidable (M.MeetsFrom ok s as)
  | _, [] => inferInstanceAs (Decidable True)
  | s, a :: as =>
    have : DecidablePred fun s' => M.MeetsFrom ok s' as := fun s' => decidableMeetsFrom s' as
    inferInstanceAs (Decidable (ok s a ∧ ∀ s' ∈ M.step s a, M.MeetsFrom ok s' as))

instance {ok : σ → α → Prop} [∀ s a, Decidable (ok s a)] (as : List α) :
    Decidable (M.Meets ok as) :=
  decidable_of_iff _ meets_iff_meetsFrom.symm

/-- What the allowed steps keep holds after every run that takes only allowed steps. -/
theorem Meets.inv {ok : σ → α → Prop} {I : σ → Prop} (h₀ : I M.init)
    (hstep : ∀ {s a s'}, I s → ok s a → M.step s a = some s' → I s')
    {as : List α} {s : σ} (hm : M.Meets ok as) (h : M.run as = some s) : I s := by
  have hP : M.Meets ok as → I s := by
    refine run_induction (P := fun as s => M.Meets ok as → I s) (fun _ => h₀) ?_ h
    intro as s a s' hr ih hs hm
    obtain ⟨hm, hok⟩ := (meets_snoc hr).mp hm
    exact hstep (ih hm) hok hs
  exact hP hm

theorem Meets.of_append {ok : σ → α → Prop} {as bs : List α} (hm : M.Meets ok (as ++ bs)) :
    M.Meets ok as := by
  intro pre a post s he hs
  exact hm pre a (post ++ bs) s (by rw [he, List.append_assoc]; rfl) hs

/-- In a run every step was possible. -/
theorem Meets.of_run {P : σ → α → Prop} {as : List α} {s : σ} (h : M.run as = some s)
    (hP : ∀ pre a post t t', as = pre ++ a :: post → M.run pre = some t → M.step t a = some t' →
      P t a) : M.Meets P as := by
  intro pre a post t he ht
  rw [he] at h
  obtain ⟨t₁, ht₁, hrest⟩ := run_append.mp h
  obtain rfl : t = t₁ := Option.some.inj (ht.symm.trans ht₁)
  obtain ⟨t', ht', -⟩ := Option.bind_eq_some_iff.mp hrest
  exact hP pre a post t t' he ht ht'

/-- What an invariant of the allowed steps makes each of them do. -/
theorem Meets.imp {ok P : σ → α → Prop} {I : σ → Prop} (h₀ : I M.init)
    (hstep : ∀ {s a s'}, I s → ok s a → M.step s a = some s' → I s')
    (hP : ∀ {s a}, I s → ok s a → P s a) {as : List α} (hm : M.Meets ok as) :
    M.Meets P as := by
  intro pre a post s he hs
  refine hP ?_ (hm pre a post s he hs)
  rw [he] at hm
  exact hm.of_append.inv h₀ hstep hs

/-! ### Parts of runs

The same for a part of a run that begins anywhere, and for properties that hold all the way, or
somewhere on the way. -/

/-- What the allowed actions keep holds on, as long as no other is taken. -/
theorem runFrom_inv_of {ok : α → Prop} {I : σ → Prop}
    (hstep : ∀ {s a s'}, I s → ok a → M.step s a = some s' → I s') {s t : σ} {as : List α}
    (hok : ∀ a ∈ as, ok a) (hs : I s) (h : M.runFrom s as = some t) : I t := by
  induction as generalizing s with
  | nil =>
    obtain rfl : s = t := by simpa using h
    exact hs
  | cons a as ih =>
    obtain ⟨s', hs', h'⟩ := Option.bind_eq_some_iff.mp h
    obtain ⟨ha, hrest⟩ := List.forall_mem_cons.mp hok
    exact ih hrest (hstep hs ha hs') h'

/-- What every step keeps holds on, however the run goes on. -/
theorem runFrom_inv {I : σ → Prop} (hstep : ∀ {s a s'}, I s → M.step s a = some s' → I s')
    {s t : σ} {as : List α} (hs : I s) (h : M.runFrom s as = some t) : I t := by
  have hok : ∀ a ∈ as, (fun _ : α => True) a := fun _ _ => trivial
  exact runFrom_inv_of (fun hs _ h => hstep hs h) hok hs h

/-- `P` holds in every state the schedule goes through from `s`, both ends included. -/
def Throughout (M : Machine σ α) (P : σ → Prop) : σ → List α → Prop
  | s, [] => P s
  | s, a :: as => P s ∧ ∀ s' ∈ M.step s a, M.Throughout P s' as

instance decidableThroughout {P : σ → Prop} [DecidablePred P] :
    (s : σ) → (as : List α) → Decidable (M.Throughout P s as)
  | s, [] => inferInstanceAs (Decidable (P s))
  | s, a :: as =>
    have : DecidablePred fun s' => M.Throughout P s' as := fun s' => decidableThroughout s' as
    inferInstanceAs (Decidable (P s ∧ ∀ s' ∈ M.step s a, M.Throughout P s' as))

theorem Throughout.first {P : σ → Prop} {s : σ} {as : List α} (h : M.Throughout P s as) :
    P s := by
  cases as with
  | nil => exact h
  | cons a as => exact h.1

theorem Throughout.last {P : σ → Prop} {s t : σ} {as : List α} (h : M.Throughout P s as)
    (hr : M.runFrom s as = some t) : P t := by
  induction as generalizing s with
  | nil =>
    obtain rfl : s = t := by simpa using hr
    exact h
  | cons a as ih =>
    obtain ⟨s', hs', hr'⟩ := Option.bind_eq_some_iff.mp hr
    exact ih (h.2 s' hs') hr'

theorem Throughout.imp {P Q : σ → Prop} (hPQ : ∀ s, P s → Q s) {s : σ} {as : List α}
    (h : M.Throughout P s as) : M.Throughout Q s as := by
  induction as generalizing s with
  | nil => exact hPQ s h
  | cons a as ih => exact ⟨hPQ s h.1, fun s' hs' => ih (h.2 s' hs')⟩

/-- What is kept between states of `P` holds after a run that stays in `P`. -/
theorem Throughout.inv {P I : σ → Prop}
    (hstep : ∀ {s a s'}, I s → P s → P s' → M.step s a = some s' → I s') {s t : σ}
    {as : List α} (h : M.Throughout P s as) (hs : I s) (hr : M.runFrom s as = some t) : I t := by
  induction as generalizing s with
  | nil =>
    obtain rfl : s = t := by simpa using hr
    exact hs
  | cons a as ih =>
    obtain ⟨s', hs', hr'⟩ := Option.bind_eq_some_iff.mp hr
    have hrest := h.2 s' hs'
    exact ih hrest (hstep hs h.1 hrest.first hs') hr'

theorem throughout_iff {P : σ → Prop} {s : σ} {as : List α} :
    M.Throughout P s as ↔
      ∀ pre post t, as = pre ++ post → M.runFrom s pre = some t → P t := by
  -- every state on the way is behind some beginning of the schedule
  induction as generalizing s with
  | nil =>
    constructor
    · intro h pre post t he ht
      obtain ⟨rfl, -⟩ := List.append_eq_nil_iff.mp he.symm
      obtain rfl : s = t := by simpa using ht
      exact h
    · exact fun h => h [] [] s rfl rfl
  | cons a as ih =>
    constructor
    · rintro ⟨hP, hrest⟩ pre post t he ht
      cases pre with
      | nil =>
        obtain rfl : s = t := by simpa using ht
        exact hP
      | cons b pre =>
        obtain ⟨rfl, rfl⟩ : a = b ∧ as = pre ++ post := by simpa using he
        obtain ⟨s', hs', ht'⟩ := Option.bind_eq_some_iff.mp ht
        exact ih.mp (hrest s' hs') pre post t rfl ht'
    · intro h
      refine ⟨h [] (a :: as) s rfl rfl, fun s' hs' => ih.mpr fun pre post t he ht => ?_⟩
      exact h (a :: pre) post t (by rw [he]; rfl) (Option.bind_eq_some_iff.mpr ⟨s', hs', ht⟩)

theorem Throughout.of_append {P : σ → Prop} {s : σ} {as bs : List α}
    (h : M.Throughout P s (as ++ bs)) : M.Throughout P s as := by
  rw [throughout_iff] at h ⊢
  intro pre post t he ht
  exact h pre (post ++ bs) t (by rw [he, List.append_assoc]) ht

/-- `P` holds in some state the schedule goes through from `s`, both ends included. -/
def Sometime (M : Machine σ α) (P : σ → Prop) (s : σ) (as : List α) : Prop :=
  ∃ pre post t, as = pre ++ post ∧ M.runFrom s pre = some t ∧ P t

theorem Sometime.last {P : σ → Prop} {s t : σ} {as : List α} (ht : M.runFrom s as = some t)
    (h : P t) : M.Sometime P s as :=
  ⟨as, [], t, (List.append_nil as).symm, ht, h⟩

theorem Sometime.append {P : σ → Prop} {s : σ} {as : List α} (h : M.Sometime P s as)
    (bs : List α) : M.Sometime P s (as ++ bs) := by
  obtain ⟨pre, post, t, rfl, ht, hP⟩ := h
  exact ⟨pre, post ++ bs, t, List.append_assoc pre post bs, ht, hP⟩

theorem Sometime.imp {P Q : σ → Prop} (hPQ : ∀ s, P s → Q s) {s : σ} {as : List α}
    (h : M.Sometime P s as) : M.Sometime Q s as := by
  obtain ⟨pre, post, t, he, ht, hP⟩ := h
  exact ⟨pre, post, t, he, ht, hPQ t hP⟩

/-- A property that the allowed steps keep holds throughout a run of allowed steps. -/
theorem Inductive.throughout {ok : σ → α → Prop} {I P : σ → Prop} (hI : M.Inductive I)
    (h₀ : P M.init) (hkeep : ∀ {s a s'}, I s → P s → ok s a → M.step s a = some s' → P s')
    {as : List α} (hm : M.Meets ok as) : M.Throughout P M.init as := by
  refine throughout_iff.mpr fun pre post t he ht => ?_
  rw [he] at hm
  have hboth : I t ∧ P t := by
    refine hm.of_append.inv (I := fun s => I s ∧ P s) ⟨hI.init, h₀⟩ ?_ ht
    exact fun hs hok hstep => ⟨hI.step hs.1 hstep, hkeep hs.1 hs.2 hok hstep⟩
  exact hboth.2

/-- A property that the allowed steps keep and every other step breaks holds throughout exactly
the runs of allowed steps. -/
theorem Inductive.meets_iff_throughout {ok : σ → α → Prop} {I P : σ → Prop}
    (hI : M.Inductive I) (h₀ : P M.init)
    (hkeep : ∀ {s a s'}, I s → P s → ok s a → M.step s a = some s' → P s')
    (hneed : ∀ {s a s'}, I s → P s' → M.step s a = some s' → ok s a) {as : List α} {s : σ}
    (h : M.run as = some s) : M.Meets ok as ↔ M.Throughout P M.init as := by
  refine ⟨hI.throughout h₀ hkeep, fun hP => Meets.of_run h fun pre a post t t' he ht hs => ?_⟩
  have ht' : M.run (pre ++ [a]) = some t' := run_snoc.mpr ⟨t, ht, hs⟩
  refine hneed (Reachable.inv hI ⟨pre, ht⟩) (throughout_iff.mp hP (pre ++ [a]) post t' ?_ ht') hs
  rw [he, List.append_assoc]
  rfl

end Machine

/-! ## Histories

A history grows at its end, so what was at a position stays there. -/

theorem getElem?_snoc {ε : Type} {hist : List ε} {e x : ε} {t : Nat} :
    (hist ++ [e])[t]? = some x ↔ hist[t]? = some x ∨ t = hist.length ∧ e = x := by
  rw [List.getElem?_append]
  split
  · rename_i h
    simp [Nat.ne_of_lt h]
  · rename_i h
    have hnone : hist[t]? = none := List.getElem?_eq_none (Nat.le_of_not_lt h)
    rw [hnone, List.getElem?_singleton]
    by_cases ht : t = hist.length
    · simp [ht]
    · rw [if_neg (by omega)]; simp [ht]

theorem getElem?_of_snoc {ε : Type} {hist : List ε} {e x : ε} {t : Nat}
    (h : (hist ++ [e])[t]? = some x) (hne : e ≠ x) : hist[t]? = some x := by
  rcases getElem?_snoc.mp h with hold | ⟨-, heq⟩
  · exact hold
  · exact absurd heq hne

theorem lt_length_of_getElem? {ε : Type} {hist : List ε} {x : ε} {t : Nat}
    (h : hist[t]? = some x) : t < hist.length :=
  (List.getElem?_eq_some_iff.mp h).1

/-! ## Parties

The parties of a machine are often a list, and a step replaces one of them. -/

theorem getElem?_set_cases {α : Type} {l : List α} {i j : Nat} {x y : α}
    (h : (l.set i x)[j]? = some y) : j = i ∧ y = x ∨ j ≠ i ∧ l[j]? = some y := by
  by_cases hji : j = i
  · subst hji
    rw [List.getElem?_set_self', Option.map_eq_map, Option.map_eq_some_iff] at h
    obtain ⟨-, -, rfl⟩ := h
    exact Or.inl ⟨rfl, rfl⟩
  · rw [List.getElem?_set_ne (Ne.symm hji)] at h
    exact Or.inr ⟨hji, h⟩

/-- A party that is not where the moving one is, is another one, and stays. -/
theorem getElem?_set_of_ne {α : Type} {l : List α} {i j : Nat} {x y : α} (hi : l[i]? = some x)
    (hj : l[j]? = some y) (hne : x ≠ y) (z : α) : (l.set i z)[j]? = some y := by
  have hij : i ≠ j := by
    rintro rfl
    exact hne (Option.some.inj (hi.symm.trans hj))
  rw [List.getElem?_set_ne hij, hj]

/-- Counting after one record changed, without subtraction. -/
theorem countP_set_add {α : Type} {p : α → Bool} {l : List α} {i : Nat} {x : α}
    (hx : l[i]? = some x) (y : α) :
    (l.set i y).countP p + (if p x then 1 else 0) = l.countP p + (if p y then 1 else 0) := by
  obtain ⟨hi, rfl⟩ := List.getElem?_eq_some_iff.mp hx
  have hle := List.boole_getElem_le_countP (p := p) hi
  rw [List.countP_set hi]
  omega

end CppDone
