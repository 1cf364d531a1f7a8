import Mathlib.Logic.Basic

/-! # Runs of partial transition systems

A system is given by a partial step function whose labels resolve every choice:
which party moves, which branch it takes, what the environment answers. A run is
a list of labels. Guards constrain the labels of a run by the state each of them
is performed in.
-/

namespace Transition

variable {σ α : Type*} {step : σ → α → Option σ} {G : σ → α → Prop}

/-- The state after performing the labels in order, if each of them is enabled. -/
def run (step : σ → α → Option σ) : σ → List α → Option σ
  | s, [] => some s
  | s, a :: as => (step s a).bind fun s' => run step s' as

/-- Every label performed meets the guard in the state before it. -/
def Meets (step : σ → α → Option σ) (G : σ → α → Prop) : σ → List α → Prop
  | _, [] => True
  | s, a :: as => G s a ∧ ∀ s', step s a = some s' → Meets step G s' as

instance Meets.decidable [∀ s a, Decidable (G s a)] : ∀ s as, Decidable (Meets step G s as)
  | _, [] => isTrue trivial
  | s, a :: as =>
    match h : step s a with
    | none => decidable_of_iff (G s a) (by simp [Meets, h])
    | some t =>
      have := Meets.decidable t as
      decidable_of_iff (G s a ∧ Meets step G t as) (by simp [Meets, h])

/-- The property holds in every state of the run. -/
def Always (step : σ → α → Option σ) (P : σ → Prop) : σ → List α → Prop
  | s, [] => P s
  | s, a :: as => P s ∧ ∀ s', step s a = some s' → Always step P s' as

@[simp] theorem run_nil (s : σ) : run step s [] = some s := rfl

theorem run_cons_iff {s s' : σ} {a : α} {as : List α} :
    run step s (a :: as) = some s' ↔ ∃ t, step s a = some t ∧ run step t as = some s' := by
  simp [run, Option.bind_eq_some_iff]

theorem run_append_iff {s s' : σ} {as bs : List α} :
    run step s (as ++ bs) = some s' ↔
      ∃ t, run step s as = some t ∧ run step t bs = some s' := by
  induction as generalizing s with
  | nil => simp
  | cons a as ih =>
    simp only [List.cons_append, run_cons_iff, ih]
    constructor
    · rintro ⟨u, hu, t, ht, hs⟩
      exact ⟨t, ⟨u, hu, ht⟩, hs⟩
    · rintro ⟨t, ⟨u, hu, ht⟩, hs⟩
      exact ⟨u, hu, t, ht, hs⟩

theorem meets_append_iff {s s' : σ} {as bs : List α} (hr : run step s as = some s') :
    Meets step G s (as ++ bs) ↔ Meets step G s as ∧ Meets step G s' bs := by
  induction as generalizing s with
  | nil =>
    obtain rfl : s = s' := by simpa using hr
    simp [Meets]
  | cons a as ih =>
    obtain ⟨t, ht, hr⟩ := run_cons_iff.mp hr
    simp only [List.cons_append, Meets, ht, Option.some.injEq, forall_eq', ih hr, and_assoc]

theorem meets_of_forall (h : ∀ s a, G s a) (s : σ) (as : List α) : Meets step G s as := by
  induction as generalizing s with
  | nil => trivial
  | cons a as ih => exact ⟨h s a, fun s' _ => ih s'⟩

theorem meets_of_forall_mem {Q : α → Prop} {as : List α} (h : ∀ a ∈ as, Q a) (s : σ) :
    Meets step (fun _ a => Q a) s as := by
  induction as generalizing s with
  | nil => trivial
  | cons a as ih =>
    obtain ⟨ha, has⟩ := List.forall_mem_cons.mp h
    exact ⟨ha, fun s' _ => ih has s'⟩

/-- Guards that agree under an invariant are met by the same runs. -/
theorem meets_congr {G' : σ → α → Prop} (Inv : σ → Prop)
    (hinv : ∀ s a s', Inv s → step s a = some s' → Inv s')
    (hG : ∀ s a, Inv s → (G s a ↔ G' s a)) {s : σ} (hs : Inv s) (as : List α) :
    Meets step G s as ↔ Meets step G' s as := by
  induction as generalizing s with
  | nil => exact Iff.rfl
  | cons a as ih =>
    rw [Meets, Meets, hG s a hs]
    exact and_congr_right fun _ => forall₂_congr fun t ht => ih (hinv s a t hs ht)

section Total

variable (htotal : ∀ s a, ∃ s', step s a = some s')

include htotal

theorem exists_run (s : σ) (as : List α) : ∃ s', run step s as = some s' := by
  induction as generalizing s with
  | nil => exact ⟨s, rfl⟩
  | cons a as ih =>
    obtain ⟨t, ht⟩ := htotal s a
    obtain ⟨s', hr⟩ := ih t
    exact ⟨s', run_cons_iff.mpr ⟨t, ht, hr⟩⟩

/-- A guard on the labels alone. -/
theorem meets_iff_forall_mem {Q : α → Prop} (s : σ) (as : List α) :
    Meets step (fun _ a => Q a) s as ↔ ∀ a ∈ as, Q a := by
  induction as generalizing s with
  | nil => simp [Meets]
  | cons a as ih =>
    obtain ⟨t, ht⟩ := htotal s a
    simp [Meets, ht, ih]

end Total

/-- What every guarded step preserves holds after every guarded run. -/
theorem run_invariant (Inv : σ → Prop)
    (hstep : ∀ s a s', Inv s → G s a → step s a = some s' → Inv s') {s s' : σ} {as : List α}
    (hs : Inv s) (hg : Meets step G s as) (hr : run step s as = some s') : Inv s' := by
  induction as generalizing s with
  | nil =>
    obtain rfl : s = s' := by simpa using hr
    exact hs
  | cons a as ih =>
    obtain ⟨t, ht, hr⟩ := run_cons_iff.mp hr
    exact ih (hstep s a t hs hg.1 ht) (hg.2 t ht) hr

/-- If, under an invariant, a step spoils a property exactly when it violates the guard, then a
run does. -/
theorem run_iff_meets (Inv P : σ → Prop)
    (hinv : ∀ s a s', Inv s → step s a = some s' → Inv s')
    (hstep : ∀ s a s', Inv s → step s a = some s' → (P s' ↔ P s ∧ G s a)) {s s' : σ}
    {as : List α} (hs : Inv s) (hr : run step s as = some s') :
    P s' ↔ P s ∧ Meets step G s as := by
  induction as generalizing s with
  | nil =>
    obtain rfl : s = s' := by simpa using hr
    simp [Meets]
  | cons a as ih =>
    obtain ⟨t, ht, hr⟩ := run_cons_iff.mp hr
    rw [ih (hinv s a t hs ht) hr, hstep s a t hs ht, Meets, and_assoc]
    simp [ht]

/-- The same for the runs that meet a guard of their own, which the invariant may need. -/
theorem run_iff_meets_of_meets {G' : σ → α → Prop} (Inv P : σ → Prop)
    (hinv : ∀ s a s', Inv s → G' s a → step s a = some s' → Inv s')
    (hstep : ∀ s a s', Inv s → G' s a → step s a = some s' → (P s' ↔ P s ∧ G s a)) {s s' : σ}
    {as : List α} (hs : Inv s) (hg : Meets step G' s as) (hr : run step s as = some s') :
    P s' ↔ P s ∧ Meets step G s as := by
  induction as generalizing s with
  | nil =>
    obtain rfl : s = s' := by simpa using hr
    simp [Meets]
  | cons a as ih =>
    obtain ⟨t, ht, hr⟩ := run_cons_iff.mp hr
    rw [ih (hinv s a t hs hg.1 ht) (hg.2 t ht) hr, hstep s a t hs hg.1 ht, Meets, and_assoc]
    simp [ht]

theorem Always.head {P : σ → Prop} {s : σ} {as : List α} (h : Always step P s as) : P s := by
  cases as with
  | nil => exact h
  | cons a as => exact h.1

/-- If, under an invariant, a step from a state with a property keeps it exactly when it meets
the guard, then a run keeps it throughout exactly when all its steps do. -/
theorem always_iff_meets (Inv : σ → Prop) {P : σ → Prop}
    (hinv : ∀ s a s', Inv s → step s a = some s' → Inv s')
    (hstep : ∀ s a s', Inv s → P s → step s a = some s' → (P s' ↔ G s a)) {s s' : σ}
    {as : List α} (hi : Inv s) (hs : P s) (hr : run step s as = some s') :
    Always step P s as ↔ Meets step G s as := by
  induction as generalizing s with
  | nil => simp [Always, Meets, hs]
  | cons a as ih =>
    obtain ⟨t, ht, hr⟩ := run_cons_iff.mp hr
    have hi' := hinv s a t hi ht
    simp only [Always, Meets, hs, ht, Option.some.injEq, forall_eq', true_and,
      ← hstep s a t hi hs ht]
    constructor
    · intro h
      have hp : P t := h.head
      exact ⟨hp, (ih hi' hp hr).mp h⟩
    · rintro ⟨hp, h⟩
      exact (ih hi' hp hr).mpr h

/-- The same where the property is only a part of what is preserved: a run keeps it throughout
exactly when all its steps meet the guard, if a step that does not spoils it. -/
theorem always_iff_meets_of_inv {P Q : σ → Prop} (hsub : ∀ s, Q s → P s)
    (hgood : ∀ s a s', Q s → G s a → step s a = some s' → Q s')
    (hbad : ∀ s a s', Q s → step s a = some s' → ¬ G s a → ¬ P s') {s s' : σ} {as : List α}
    (hs : Q s) (hr : run step s as = some s') : Always step P s as ↔ Meets step G s as := by
  induction as generalizing s with
  | nil => simp [Always, Meets, hsub s hs]
  | cons a as ih =>
    obtain ⟨t, ht, hr⟩ := run_cons_iff.mp hr
    simp only [Always, Meets, hsub s hs, ht, Option.some.injEq, forall_eq', true_and]
    constructor
    · intro h
      have hg : G s a := Classical.byContradiction fun hg => hbad s a t hs ht hg h.head
      exact ⟨hg, (ih (hgood s a t hs hg ht) hr).mp h⟩
    · rintro ⟨hg, h⟩
      exact (ih (hgood s a t hs hg ht) hr).mpr h

end Transition
