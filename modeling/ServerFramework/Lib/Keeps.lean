import Mathlib.Init

/-! # Programs that keep a property of their state

A program with a state and exceptions keeps a property if the property holds after it whenever it
held before, whether the program returns or throws. Sequencing keeps what its parts keep. A
sequence that returns, or only converts a result, is taken apart into its parts.
-/

namespace Keeps

variable {ε σ α β : Type}

/-- The state in which a program has returned or thrown. -/
def finalState : EStateM.Result ε σ α → σ
  | .ok _ s => s
  | .error _ s => s

end Keeps

/-- The property holds after the program if it held before. -/
def Keeps {ε σ α : Type} (P : σ → Prop) (m : EStateM ε σ α) : Prop :=
  ∀ s, P s → P (Keeps.finalState (m s))

namespace Keeps

theorem run_map {ε σ α β : Type} (m : EStateM ε σ α) (f : α → β) (s : σ) :
    (do return f (← m) : EStateM ε σ β) s =
      match m s with
      | .ok a t => .ok (f a) t
      | .error e t => .error e t := by
  change EStateM.bind m _ s = _
  unfold EStateM.bind
  cases m s <;> rfl

/-- A sequence that returns is made of programs that return. -/
theorem run_bind_ok {ε σ α β : Type} {m : EStateM ε σ α} {f : α → EStateM ε σ β} {s s' : σ} {b : β}
    (h : (m >>= f) s = .ok b s') : ∃ a t, m s = .ok a t ∧ f a t = .ok b s' := by
  change EStateM.bind m f s = _ at h
  unfold EStateM.bind at h
  cases hm : m s with
  | ok a t =>
    rw [hm] at h
    exact ⟨a, t, rfl, h⟩
  | error e t =>
    rw [hm] at h
    cases h

/-- What is done with the result does not change the state. -/
theorem finalState_map {ε σ α β : Type} (m : EStateM ε σ α) (f : α → β) (s : σ) :
    finalState ((do return f (← m) : EStateM ε σ β) s) = finalState (m s) := by
  rw [run_map]
  cases m s <;> rfl

variable {ε σ α β : Type} {P : σ → Prop}

theorem pure (a : α) : Keeps P (Pure.pure a : EStateM ε σ α) := fun _ h => h

theorem throw (e : ε) : Keeps P (MonadExcept.throw e : EStateM ε σ α) := fun _ h => h

theorem get : Keeps P (MonadState.get : EStateM ε σ σ) := fun _ h => h

theorem bind {m : EStateM ε σ α} {f : α → EStateM ε σ β} (hm : Keeps P m)
    (hf : ∀ a, Keeps P (f a)) : Keeps P (m >>= f) := by
  intro s h
  have hs := hm s h
  change P (finalState (EStateM.bind m f s))
  unfold EStateM.bind
  cases hr : m s with
  | ok a t =>
    rw [hr] at hs
    exact hf a t hs
  | error e t =>
    rw [hr] at hs
    exact hs

theorem map {m : EStateM ε σ α} (hm : Keeps P m) (f : α → β) : Keeps P (do return f (← m)) :=
  hm.bind fun _ => pure _

/-- A loop over the indices keeps what each round keeps. -/
theorem foldl_fin {n : Nat} {P : Nat → σ → Prop} {f : σ → Fin n → σ} {s : σ} (hs : P 0 s)
    (hf : ∀ (i : Fin n) s, P i s → P (i + 1) (f s i)) : P n (Fin.foldl n f s) := by
  induction n with
  | zero => exact hs
  | succ n ih =>
    rw [Fin.foldl_succ_last]
    exact hf (Fin.last n) _ (ih fun i s hi => hf i.castSucc s hi)

end Keeps
