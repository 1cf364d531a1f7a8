import Mathlib.Data.List.Chain
import Mathlib.Logic.Function.Basic
import Mathlib.Tactic.SplitIfs
import ServerFramework.Lib.Transition

/-! # Configuration variables with listeners

`ConfigVar::SetValue` compares and notifies under a read lock and assigns under a write lock taken
after it has given up the first. Read locks are shared, so the calls of two threads may overlap:
they notify in one order and assign in the other.
-/

namespace ServerFramework

open Transition

/-- Where a thread is in `SetValue(v)`. -/
inductive SetPhase (T : Type) where
  | outside
  /-- Under the read lock and past the comparison; the first `k` listeners have been called. -/
  | notifying (v : T) (k : ℕ)
  /-- The read lock is given up. -/
  | pending (v : T)
  deriving DecidableEq, Repr

def SetPhase.isNotifying {T : Type} : SetPhase T → Bool
  | notifying _ _ => true
  | _ => false

/-- A variable with `p` threads that set it and the `m` listeners it had from the start. -/
structure ConfigVar (T : Type) (p m : ℕ) where
  val : T
  phase : Fin p → SetPhase T
  /-- The old and the new value of each call of a listener, in order. -/
  calls : Fin m → List (T × T)

/-- The steps of a thread in `SetValue`. -/
inductive SetOp (T : Type) (p : ℕ) where
  /-- Take the read lock and compare. -/
  | enter (t : Fin p) (v : T)
  /-- Call the next listener. -/
  | notify (t : Fin p)
  /-- Give up the read lock after the last listener. -/
  | leave (t : Fin p)
  /-- Take the write lock, assign and return. -/
  | assign (t : Fin p)
  deriving DecidableEq, Repr

namespace ConfigVar

variable {T : Type} {p m : ℕ}

def new (val : T) : ConfigVar T p m where
  val := val
  phase := fun _ => .outside
  calls := fun _ => []

def setPhase (s : ConfigVar T p m) (t : Fin p) (phase : SetPhase T) : ConfigVar T p m :=
  { s with phase := Function.update s.phase t phase }

/-- `i.second(val_, v)` for one of the listeners. -/
def callListener (s : ConfigVar T p m) (l : Fin m) (v : T) : ConfigVar T p m :=
  { s with calls := Function.update s.calls l (s.calls l ++ [(s.val, v)]) }

/-- One step, where `eq` is `operator==` of the values. -/
def step (eq : T → T → Bool) (s : ConfigVar T p m) : SetOp T p → Option (ConfigVar T p m)
  | .enter t v =>
    match s.phase t with
    | .outside => some (if eq v s.val then s else s.setPhase t (.notifying v 0))
    | _ => none
  | .notify t =>
    match s.phase t with
    | .notifying v k =>
      if h : k < m then some ((s.setPhase t (.notifying v (k + 1))).callListener ⟨k, h⟩ v)
      else none
    | _ => none
  | .leave t =>
    match s.phase t with
    | .notifying v k => if k < m then none else some (s.setPhase t (.pending v))
    | _ => none
  | .assign t =>
    match s.phase t with
    | .pending v =>
      if ∃ u, (s.phase u).isNotifying = true then none
      else some { s.setPhase t .outside with val := v }
    | _ => none

/-- The value that a listener was told last, if any. -/
def told (s : ConfigVar T p m) (l : Fin m) : Option T := (s.calls l).getLast?.map Prod.snd

/-- No `SetValue` is in progress. -/
def Quiet (s : ConfigVar T p m) : Prop := ∀ t, s.phase t = .outside

/-- Each call of the listener starts from the value that the one before it has announced. -/
def Chained (s : ConfigVar T p m) (l : Fin m) : Prop :=
  (s.calls l).IsChain fun a b => b.1 = a.2

/-- The listeners know the value, where `init` is the one they started from. -/
def Agrees (init : T) (s : ConfigVar T p m) : Prop := ∀ l, (s.told l).getD init = s.val

/-- A call that is to change the value starts when no other one is in progress. -/
def Alone (eq : T → T → Bool) (s : ConfigVar T p m) : SetOp T p → Prop
  | .enter t v => eq v s.val = false → ∀ u, u ≠ t → s.phase u = .outside
  | _ => True

section Decidable

variable [DecidableEq T] (s : ConfigVar T p m)

instance : Decidable s.Quiet := inferInstanceAs (Decidable (∀ t, s.phase t = .outside))

instance (l : Fin m) : Decidable (s.Chained l) :=
  inferInstanceAs (Decidable ((s.calls l).IsChain fun a b => b.1 = a.2))

instance (init : T) : Decidable (s.Agrees init) :=
  inferInstanceAs (Decidable (∀ l, (s.told l).getD init = s.val))

instance (eq : T → T → Bool) : ∀ op, Decidable (s.Alone eq op)
  | .enter t v =>
    inferInstanceAs (Decidable (eq v s.val = false → ∀ u, u ≠ t → s.phase u = .outside))
  | .notify _ | .leave _ | .assign _ => isTrue trivial

end Decidable

/-- The calls of the one thread that may be in progress. -/
inductive Progress (eq : T → T → Bool) (init : T) (s : ConfigVar T p m) : Prop where
  | quiet : s.Quiet → s.Agrees init → Progress eq init s
  | notifying (t : Fin p) (v : T) (k : ℕ) : s.phase t = .notifying v k →
      (∀ u, u ≠ t → s.phase u = .outside) → eq v s.val = false →
      (∀ l, l.val < k → s.told l = some v) →
      (∀ l, k ≤ l.val → (s.told l).getD init = s.val) → Progress eq init s
  | pending (t : Fin p) (v : T) : s.phase t = .pending v →
      (∀ u, u ≠ t → s.phase u = .outside) → eq v s.val = false →
      (∀ l, s.told l = some v) → Progress eq init s

/-- The invariant of the runs in which calls do not overlap. -/
structure Inv (eq : T → T → Bool) (init : T) (s : ConfigVar T p m) : Prop where
  chained : ∀ l, s.Chained l
  progress : s.Progress eq init

variable {eq : T → T → Bool} {init : T} {s s' : ConfigVar T p m} {t u : Fin p} {v w : T} {k : ℕ}

theorem new_inv : Inv eq init (new init : ConfigVar T p m) :=
  ⟨fun _ => List.IsChain.nil, .quiet (fun _ => rfl) (fun _ => rfl)⟩

theorem setPhase_self (s : ConfigVar T p m) (t : Fin p) (phase : SetPhase T) :
    (s.setPhase t phase).phase t = phase := Function.update_self ..

theorem setPhase_outside {phase : SetPhase T} (h : ∀ u, u ≠ t → s.phase u = .outside) (u : Fin p)
    (hu : u ≠ t) : (s.setPhase t phase).phase u = .outside :=
  (Function.update_of_ne hu ..).trans (h u hu)

/-- Only one thread can be the one in progress. -/
theorem eq_of_ne_outside (h : ∀ u, u ≠ t → s.phase u = .outside) (hu : s.phase u ≠ .outside) :
    u = t := by
  by_contra hne
  exact hu (h u hne)

theorem Progress.of_quiet (h : s.Progress eq init) (hq : s.Quiet) : s.Agrees init := by
  cases h with
  | quiet _ hagrees => exact hagrees
  | notifying t v k ht => cases (hq t).symm.trans ht
  | pending t v ht => cases (hq t).symm.trans ht

theorem Progress.of_notifying (h : s.Progress eq init) (ht : s.phase t = .notifying v k) :
    (∀ u, u ≠ t → s.phase u = .outside) ∧ eq v s.val = false ∧
      (∀ l, l.val < k → s.told l = some v) ∧
      ∀ l, k ≤ l.val → (s.told l).getD init = s.val := by
  cases h with
  | quiet hq => cases (hq t).symm.trans ht
  | notifying u w j hu hothers hw htold hrest =>
    obtain rfl : t = u := eq_of_ne_outside hothers (by simp [ht])
    obtain ⟨rfl, rfl⟩ := SetPhase.notifying.inj (ht.symm.trans hu)
    exact ⟨hothers, hw, htold, hrest⟩
  | pending u w hu hothers =>
    obtain rfl : t = u := eq_of_ne_outside hothers (by simp [ht])
    cases ht.symm.trans hu

theorem Progress.of_pending (h : s.Progress eq init) (ht : s.phase t = .pending v) :
    (∀ u, u ≠ t → s.phase u = .outside) ∧ eq v s.val = false ∧ ∀ l, s.told l = some v := by
  cases h with
  | quiet hq => cases (hq t).symm.trans ht
  | notifying u w j hu hothers =>
    obtain rfl : t = u := eq_of_ne_outside hothers (by simp [ht])
    cases ht.symm.trans hu
  | pending u w hu hothers hw htold =>
    obtain rfl : t = u := eq_of_ne_outside hothers (by simp [ht])
    obtain rfl := SetPhase.pending.inj (ht.symm.trans hu)
    exact ⟨hothers, hw, htold⟩

theorem told_callListener (s : ConfigVar T p m) (k l : Fin m) (v : T) :
    (s.callListener k v).told l = if l = k then some v else s.told l := by
  rw [told, callListener]
  dsimp only
  rw [Function.update_apply]
  split_ifs
  · simp
  · rfl

theorem step_notify (ht : s.phase t = .notifying v k) (hk : k < m) : s.step eq (.notify t) =
    some ((s.setPhase t (.notifying v (k + 1))).callListener ⟨k, hk⟩ v) := by
  simp only [step, ht, dif_pos hk]

/-- A listener that has been told the value is told of a change from it. -/
theorem chained_callListener {k : Fin m} (h : ∀ l, s.Chained l)
    (hk : (s.told k).getD init = s.val) (l : Fin m) : (s.callListener k v).Chained l := by
  rw [Chained, callListener]
  dsimp only
  rw [Function.update_apply]
  split_ifs with hl
  · refine (h k).append (List.IsChain.singleton _) ?_
    intro a ha b hb
    obtain rfl : (s.val, v) = b := by simpa using hb
    rw [told, Option.mem_def.mp ha] at hk
    exact hk.symm
  · exact h l

theorem Inv.enter (h : s.Inv eq init) (ht : s.phase t = .outside) (hv : eq v s.val = false)
    (hothers : ∀ u, u ≠ t → s.phase u = .outside) :
    Inv eq init (s.setPhase t (.notifying v 0)) := by
  have hquiet : s.Quiet := by
    intro u
    by_cases hu : u = t
    · rw [hu, ht]
    · exact hothers u hu
  refine ⟨h.chained, .notifying t v 0 (setPhase_self s t _) (setPhase_outside hothers) hv ?_ ?_⟩
  · exact fun l hl => absurd hl (Nat.not_lt_zero _)
  · exact fun l _ => h.progress.of_quiet hquiet l

theorem Inv.notify (h : s.Inv eq init) (ht : s.phase t = .notifying v k) (hk : k < m) :
    Inv eq init ((s.setPhase t (.notifying v (k + 1))).callListener ⟨k, hk⟩ v) := by
  obtain ⟨hothers, hv, htold, hrest⟩ := h.progress.of_notifying ht
  have hval : ((s.setPhase t (.notifying v (k + 1))).told ⟨k, hk⟩).getD init = s.val :=
    hrest ⟨k, hk⟩ le_rfl
  refine ⟨chained_callListener h.chained hval, ?_⟩
  refine .notifying t v (k + 1) (setPhase_self s t _) (setPhase_outside hothers) hv ?_ ?_
  · intro l hl
    rw [told_callListener]
    split_ifs with he
    · rfl
    · have hne : l.val ≠ k := fun hlk => he (Fin.ext hlk)
      exact htold l (by omega)
  · intro l hl
    have hne : l ≠ ⟨k, hk⟩ := by
      rintro rfl
      exact absurd hl (Nat.not_succ_le_self k)
    rw [told_callListener, if_neg hne]
    exact hrest l (by omega)

theorem Inv.leave (h : s.Inv eq init) (ht : s.phase t = .notifying v k) (hk : ¬ k < m) :
    Inv eq init (s.setPhase t (.pending v)) := by
  obtain ⟨hothers, hv, htold, -⟩ := h.progress.of_notifying ht
  refine ⟨h.chained, .pending t v (setPhase_self s t _) (setPhase_outside hothers) hv ?_⟩
  exact fun l => htold l (by omega)

theorem Inv.assign (h : s.Inv eq init) (ht : s.phase t = .pending v) :
    Inv eq init { s.setPhase t .outside with val := v } := by
  obtain ⟨hothers, -, htold⟩ := h.progress.of_pending ht
  refine ⟨h.chained, .quiet (fun u => ?_) fun l => ?_⟩
  · by_cases hut : u = t
    · rw [hut]
      exact setPhase_self s t _
    · exact setPhase_outside hothers u hut
  · change (s.told l).getD init = v
    rw [htold l]
    rfl

theorem Inv.step {op : SetOp T p} (h : s.Inv eq init) (hg : s.Alone eq op)
    (hs : s.step eq op = some s') : s'.Inv eq init := by
  cases op with
  | enter t v =>
    simp only [ConfigVar.step] at hs
    split at hs
    · rename_i ht
      obtain rfl := Option.some.inj hs
      split_ifs with hv
      · exact h
      · exact h.enter ht (eq_false_of_ne_true hv) (hg (eq_false_of_ne_true hv))
    · cases hs
  | notify t =>
    simp only [ConfigVar.step] at hs
    split at hs
    · rename_i v k ht
      split_ifs at hs with hk
      obtain rfl := Option.some.inj hs
      exact h.notify ht hk
    · cases hs
  | leave t =>
    simp only [ConfigVar.step] at hs
    split at hs
    · rename_i v k ht
      split_ifs at hs with hk
      obtain rfl := Option.some.inj hs
      exact h.leave ht hk
    · cases hs
  | assign t =>
    simp only [ConfigVar.step] at hs
    split at hs
    · rename_i v ht
      split_ifs at hs
      obtain rfl := Option.some.inj hs
      exact h.assign ht
    · cases hs

/-- A listener told of another value is told of a change from the stored one. -/
theorem unchained_of_notify (eq : T → T → Bool) (hm : 0 < m) (ht : s.phase t = .notifying v 0)
    (htold : s.told ⟨0, hm⟩ = some w) (hw : w ≠ s.val) :
    ∃ s', s.step eq (.notify t) = some s' ∧ ¬ s'.Chained ⟨0, hm⟩ := by
  refine ⟨_, step_notify ht hm, ?_⟩
  intro hchain
  rw [Chained, callListener] at hchain
  dsimp only at hchain
  rw [Function.update_self] at hchain
  obtain ⟨a, ha, rfl⟩ := Option.map_eq_some_iff.mp htold
  exact hw ((List.isChain_append.mp hchain).2.2 a ha (s.val, v) rfl).symm

/-- A second call that starts during a first one leads to a broken chain. -/
theorem unchained_of_overlap (hrefl : ∀ x, eq x x = true) (hm : 0 < m) (h : s.Inv eq init)
    (hu : s.phase u ≠ .outside) (hut : u ≠ t) :
    ∃ more s', run (step eq) (s.setPhase t (.notifying v 0)) more = some s' ∧
      ¬ s'.Chained ⟨0, hm⟩ := by
  have hne : ∀ w, eq w s.val = false → w ≠ s.val := by
    rintro w hw rfl
    rw [hrefl] at hw
    cases hw
  have hsame : (s.setPhase t (.notifying v 0)).phase u = s.phase u := Function.update_of_ne hut ..
  cases hp : s.phase u with
  | outside => exact absurd hp hu
  | pending w =>
    obtain ⟨-, hw, htold⟩ := h.progress.of_pending hp
    obtain ⟨s', hs', hnot⟩ := unchained_of_notify eq (w := w) hm
      (setPhase_self s t (.notifying v 0)) (htold ⟨0, hm⟩) (hne w hw)
    exact ⟨[.notify t], s', run_cons_iff.mpr ⟨s', hs', rfl⟩, hnot⟩
  | notifying w k =>
    obtain ⟨-, hw, htold, -⟩ := h.progress.of_notifying hp
    rcases Nat.eq_zero_or_pos k with rfl | hk
    · -- the first call has not reached the listener yet and goes on first
      obtain ⟨s₁, hs₁, ht₁, hval, htold₁⟩ : ∃ s₁,
          (s.setPhase t (.notifying v 0)).step eq (.notify u) = some s₁ ∧
            s₁.phase t = .notifying v 0 ∧ s₁.val = s.val ∧ s₁.told ⟨0, hm⟩ = some w := by
        refine ⟨_, step_notify (hsame.trans hp) hm, ?_, rfl, ?_⟩
        · exact (Function.update_of_ne hut.symm ..).trans (setPhase_self s t _)
        · exact (told_callListener _ ⟨0, hm⟩ ⟨0, hm⟩ w).trans (if_pos rfl)
      obtain ⟨s', hs', hnot⟩ := unchained_of_notify eq hm ht₁ htold₁ (hval ▸ hne w hw)
      exact ⟨[.notify u, .notify t], s',
        run_cons_iff.mpr ⟨s₁, hs₁, run_cons_iff.mpr ⟨s', hs', rfl⟩⟩, hnot⟩
    · obtain ⟨s', hs', hnot⟩ := unchained_of_notify eq (w := w) hm
        (setPhase_self s t (.notifying v 0)) (htold ⟨0, hm⟩ hk) (hne w hw)
      exact ⟨[.notify t], s', run_cons_iff.mpr ⟨s', hs', rfl⟩, hnot⟩

/-- In every run in which no call starts to change the value during another one, the listeners
agree with the value whenever no call is in progress, and their calls are chained. As soon as one
does, the chain of a listener can be broken. -/
theorem listeners_agree_while_alone (eq : T → T → Bool) (init : T) (ops : List (SetOp T p))
    (s : ConfigVar T p m) (hr : run (step eq) (new init) ops = some s)
    (hg : Meets (step eq) (Alone eq) (new init : ConfigVar T p m) ops) :
    (s.Quiet → s.Agrees init) ∧ (∀ l, s.Chained l) ∧
    ((∀ x, eq x x = true) → 0 < m → ∀ op s', s.step eq op = some s' → ¬ s.Alone eq op →
      ∃ more s'' l, run (step eq) s' more = some s'' ∧ ¬ s''.Chained l) := by
  have h : s.Inv eq init := run_invariant (Inv eq init) (fun _ _ _ h => h.step) new_inv hg hr
  refine ⟨h.progress.of_quiet, h.chained, ?_⟩
  intro hrefl hm op s' hs hnot
  cases op with
  | enter t v =>
    simp only [Alone, Classical.not_imp, not_forall] at hnot
    obtain ⟨hv, u, hut, hu⟩ := hnot
    simp only [step, hv] at hs
    split at hs
    · obtain rfl := Option.some.inj hs
      obtain ⟨more, s'', hrun, hbroken⟩ := unchained_of_overlap hrefl hm h hu hut
      exact ⟨more, s'', _, hrun, hbroken⟩
    · cases hs
  | _ => exact absurd trivial hnot

/-- Two threads set a variable one after the other. -/
def oneByOne (i j : Fin 2) : List (SetOp ℕ 2) :=
  [.enter i 1, .notify i, .leave i, .assign i, .enter j 2, .notify j, .leave j, .assign j]

theorem listeners_agree_while_alone_oneByOne : ∃ s : ConfigVar ℕ 2 1,
    run (step fun a b => a == b) (new 0) (oneByOne 0 1) = some s ∧ s.val = 2 ∧ s.Agrees 0 := by
  have hg : Meets (step fun a b => a == b) (Alone fun a b => a == b)
      (new 0 : ConfigVar ℕ 2 1) (oneByOne 0 1) := by decide
  have h := listeners_agree_while_alone (fun a b => a == b) 0 (oneByOne 0 1) _ rfl hg
  exact ⟨_, rfl, rfl, h.1 (by decide)⟩

/-- The second thread notifies after the first one and assigns before it. -/
def overlapping (i j : Fin 2) : List (SetOp ℕ 2) :=
  [.enter i 1, .notify i, .leave i, .enter j 2, .notify j, .leave j, .assign j, .assign i]

theorem listener_disagrees : ∃ s : ConfigVar ℕ 2 1,
    run (step fun a b => a == b) (new 0) (overlapping 0 1) = some s ∧ s.Quiet ∧ s.val = 1 ∧
      ¬ s.Agrees 0 ∧ ¬ ∀ l, s.Chained l := by
  refine ⟨_, rfl, ?_, rfl, ?_, ?_⟩
  · decide
  · decide
  · decide

end ConfigVar

end ServerFramework
