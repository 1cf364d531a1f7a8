import Mathlib.Algebra.Group.Nat.Defs
import Mathlib.Data.Int.Notation
import Mathlib.Data.List.Infix
import Mathlib.Logic.Function.Basic
import ServerFramework.Lib.Transition

/-! # The table of descriptor contexts

`AddEvent` tests the size of `fd_contexts_` under the read lock and, if it has to, resizes
the table under the write lock, where the size is not tested again. A context is known by its
number in the order of creation. What is registered is recorded by descriptor and context.
-/

namespace ServerFramework

abbrev ContextId := ℕ

/-- Where a thread is in `AddEvent`, or in one of `DelEvent`, `CancelEvent` and `CancelAll`. -/
inductive TablePhase where
  | outside
  | mustResize (fd : ℕ)
  | adding (fd : ℕ) (ctx : ContextId)
  | removing (fd : ℕ) (ctx : ContextId)
  deriving DecidableEq, Repr

structure ContextTable where
  fdContexts : List ContextId
  created : ℕ
  phase : ℕ → TablePhase
  registered : List (ℕ × ContextId)

/-- The steps of any thread. Descriptors are non-negative values of `int`. Whether the section
under the mutex of the context succeeds is an argument. -/
inductive TableOp where
  | check (thread fd : ℕ)
  | resize (thread : ℕ)
  | lookup (thread fd : ℕ)
  | finish (thread : ℕ) (ok : Bool)
  deriving DecidableEq, Repr

namespace ContextTable

/-- `(int)fd_contexts_.size()`. -/
def intSize (s : ContextTable) : ℤ := Int.bmod s.fdContexts.length (2 ^ 32)

/-- `ContextResize`. -/
def contextResize (s : ContextTable) (size : ℕ) : ContextTable :=
  let added := size - s.fdContexts.length
  { s with
    fdContexts := s.fdContexts.take size ++ List.range' s.created added
    created := s.created + added }

/-- `fd * 1.5` as a size. -/
def newSize (fd : ℕ) : ℕ := fd * 3 / 2

/-- The context that `DelEvent`, `CancelEvent` and `CancelAll` find. -/
def find (s : ContextTable) (fd : ℕ) : Option ContextId :=
  if s.intSize ≤ fd then none else s.fdContexts[fd]?

def setPhase (s : ContextTable) (thread : ℕ) (phase : TablePhase) : ContextTable :=
  { s with phase := Function.update s.phase thread phase }

/-- The table of a new `IOManager`. -/
def new : ContextTable :=
  contextResize ⟨[], 0, fun _ => .outside, []⟩ 32

/-- One step; an access beyond the end of the table has no result. -/
def step (s : ContextTable) : TableOp → Option ContextTable
  | .check t fd =>
    if s.phase t = .outside ∧ fd < 2 ^ 31 then
      if s.intSize > fd then s.fdContexts[fd]?.map fun ctx => s.setPhase t (.adding fd ctx)
      else some (s.setPhase t (.mustResize fd))
    else none
  | .resize t =>
    match s.phase t with
    | .mustResize fd =>
      let s := s.contextResize (newSize fd)
      s.fdContexts[fd]?.map fun ctx => s.setPhase t (.adding fd ctx)
    | _ => none
  | .lookup t fd =>
    if s.phase t = .outside ∧ fd < 2 ^ 31 then
      match s.find fd with
      | some ctx => some (s.setPhase t (.removing fd ctx))
      | none => some s
    else none
  | .finish t ok =>
    match s.phase t with
    | .adding fd ctx =>
      let s := s.setPhase t .outside
      some (if ok then { s with registered := s.registered ++ [(fd, ctx)] } else s)
    | .removing fd ctx =>
      let s := s.setPhase t .outside
      some (if ok then { s with registered := s.registered.erase (fd, ctx) } else s)
    | _ => none

/-- Every registered descriptor is found with the context that holds its registration. -/
def FindsRegistered (s : ContextTable) : Prop :=
  ∀ r ∈ s.registered, s.find r.1 = some r.2

/-- The table is resized to no less than it has, and to less than an `int` can hold. -/
def Growing (s : ContextTable) : TableOp → Prop
  | .resize t => ∀ fd, s.phase t = .mustResize fd →
      s.fdContexts.length ≤ newSize fd ∧ newSize fd < 2 ^ 31
  | _ => True

instance (s : ContextTable) : ∀ op, Decidable (s.Growing op)
  | .resize t =>
    match hp : s.phase t with
    | .mustResize fd => decidable_of_iff
        (s.fdContexts.length ≤ newSize fd ∧ newSize fd < 2 ^ 31) (by simp [Growing, hp])
    | .outside => isTrue (by simp [Growing, hp])
    | .adding _ _ => isTrue (by simp [Growing, hp])
    | .removing _ _ => isTrue (by simp [Growing, hp])
  | .check _ _ => isTrue trivial
  | .lookup _ _ => isTrue trivial
  | .finish _ _ => isTrue trivial

/-- What growing runs preserve. -/
structure Inv (s : ContextTable) : Prop where
  large : 32 ≤ s.fdContexts.length
  small : s.fdContexts.length < 2 ^ 31
  mustResize : ∀ t fd, s.phase t = .mustResize fd → 32 ≤ fd
  adding : ∀ t fd ctx, s.phase t = .adding fd ctx → s.fdContexts[fd]? = some ctx
  registered : ∀ r ∈ s.registered, s.fdContexts[r.1]? = some r.2

variable {s s' : ContextTable}

theorem intSize_eq (h : s.fdContexts.length < 2 ^ 31) : s.intSize = s.fdContexts.length := by
  unfold intSize
  rw [Int.bmod_def]
  omega

theorem find_eq (h : s.fdContexts.length < 2 ^ 31) (fd : ℕ) : s.find fd = s.fdContexts[fd]? := by
  rw [find, intSize_eq h]
  split_ifs with hle
  · rw [List.getElem?_eq_none (by omega)]
  · rfl

theorem Inv.findsRegistered (h : s.Inv) : s.FindsRegistered := by
  intro r hr
  rw [find_eq h.small]
  exact h.registered r hr

theorem new_inv : new.Inv where
  large := by simp [new, contextResize]
  small := by simp [new, contextResize]
  mustResize := by simp [new, contextResize]
  adding := by simp [new, contextResize]
  registered := by simp [new, contextResize]

theorem contextResize_keeps {size : ℕ} (h : s.fdContexts.length ≤ size) :
    s.fdContexts <+: (s.contextResize size).fdContexts := by
  simp only [contextResize, List.take_of_length_le h]
  exact List.prefix_append _ _

theorem length_contextResize (s : ContextTable) (size : ℕ) :
    (s.contextResize size).fdContexts.length = size := by
  simp only [contextResize, List.length_append, List.length_take, List.length_range']
  omega

theorem phase_setPhase (s : ContextTable) (t : ℕ) (phase : TablePhase) (u : ℕ) :
    (s.setPhase t phase).phase u = if u = t then phase else s.phase u := Function.update_apply ..

theorem setPhase_self {t : ℕ} {phase : TablePhase} (h : s.phase t = phase) :
    s.setPhase t phase = s := by
  rw [setPhase, ← h, Function.update_eq_self]

/-- A step resizes the table, or it moves a thread to a phase that the table allows and
registers at most what that thread was adding. -/
theorem step_cases {op : TableOp} (h : s.step op = some s') :
    (∃ t fd ctx, op = .resize t ∧ s.phase t = .mustResize fd ∧
      (s.contextResize (newSize fd)).fdContexts[fd]? = some ctx ∧
      s' = (s.contextResize (newSize fd)).setPhase t (.adding fd ctx)) ∨
    ∃ t phase registered, s' = { s.setPhase t phase with registered := registered } ∧
      (∀ fd, phase = .mustResize fd → s.intSize ≤ fd) ∧
      (∀ fd ctx, phase = .adding fd ctx → s.fdContexts[fd]? = some ctx) ∧
      ∀ r ∈ registered, r ∈ s.registered ∨ s.phase t = .adding r.1 r.2 := by
  cases op with
  | check t fd =>
    simp only [step, Option.ite_none_right_eq_some] at h
    obtain ⟨-, h⟩ := h
    right
    split_ifs at h with hsize
    · obtain ⟨ctx, hctx, rfl⟩ := Option.map_eq_some_iff.mp h
      exact ⟨t, .adding fd ctx, s.registered, rfl, by simp, by simpa using hctx, fun _ => Or.inl⟩
    · obtain rfl := Option.some.inj h
      exact ⟨t, .mustResize fd, s.registered, rfl, by simpa using hsize, by simp, fun _ => Or.inl⟩
  | resize t =>
    cases hp : s.phase t with
    | mustResize fd =>
      simp only [step, hp, Option.map_eq_some_iff] at h
      obtain ⟨ctx, hctx, rfl⟩ := h
      exact Or.inl ⟨t, fd, ctx, rfl, hp, hctx, rfl⟩
    | _ => simp [step, hp] at h
  | lookup t fd =>
    simp only [step, Option.ite_none_right_eq_some] at h
    obtain ⟨⟨hp, -⟩, h⟩ := h
    right
    split at h
    · rename_i ctx hfind
      obtain rfl := Option.some.inj h
      exact ⟨t, .removing fd ctx, s.registered, rfl, by simp, by simp, fun _ => Or.inl⟩
    · obtain rfl := Option.some.inj h
      refine ⟨t, .outside, s.registered, ?_, by simp, by simp, fun _ => Or.inl⟩
      rw [setPhase_self hp]
  | finish t ok =>
    right
    cases hp : s.phase t with
    | adding fd ctx =>
      simp only [step, hp, Option.some.injEq] at h
      subst h
      refine ⟨t, .outside, if ok then s.registered ++ [(fd, ctx)] else s.registered,
        ?_, by simp, by simp, ?_⟩
      · split_ifs <;> rfl
      · intro r hr
        split_ifs at hr
        · rcases List.mem_append.mp hr with hr | hr
          · exact Or.inl hr
          · rw [List.mem_singleton.mp hr]
            exact Or.inr hp
        · exact Or.inl hr
    | removing fd ctx =>
      simp only [step, hp, Option.some.injEq] at h
      subst h
      refine ⟨t, .outside, if ok then s.registered.erase (fd, ctx) else s.registered,
        ?_, by simp, by simp, ?_⟩
      · split_ifs <;> rfl
      · intro r hr
        split_ifs at hr
        · exact Or.inl (List.mem_of_mem_erase hr)
        · exact Or.inl hr
    | _ => simp [step, hp] at h

/-- A growing step extends the table. -/
theorem Growing.keeps {op : TableOp} (hg : s.Growing op) (h : s.step op = some s') :
    s.fdContexts <+: s'.fdContexts := by
  rcases step_cases h with ⟨t, fd, ctx, rfl, hp, -, rfl⟩ | ⟨t, phase, registered, rfl, -⟩
  · exact contextResize_keeps (hg fd hp).1
  · exact List.prefix_rfl

theorem getElem?_of_kept {l l' : List ContextId} (h : l <+: l') {i : ℕ} {ctx : ContextId}
    (hi : l[i]? = some ctx) : l'[i]? = some ctx := by
  obtain ⟨rest, rfl⟩ := h
  rw [List.getElem?_append_left (List.getElem?_eq_some_iff.mp hi).1]
  exact hi

theorem Inv.step {op : TableOp} (hs : s.Inv) (hg : s.Growing op) (h : s.step op = some s') :
    s'.Inv := by
  have hpre := hg.keeps h
  rcases step_cases h with
    ⟨t, fd, ctx, rfl, hp, hctx, rfl⟩ | ⟨t, phase, registered, rfl, hmust, hadd, hreg⟩
  · obtain ⟨-, hsmall⟩ := hg fd hp
    have hfd := hs.mustResize t fd hp
    have hlen := length_contextResize s (newSize fd)
    refine ⟨?_, ?_, ?_, ?_, ?_⟩
    · change 32 ≤ (s.contextResize (newSize fd)).fdContexts.length
      rw [hlen, newSize]
      omega
    · change (s.contextResize (newSize fd)).fdContexts.length < 2 ^ 31
      rwa [hlen]
    · intro u fd' hu
      rw [phase_setPhase] at hu
      split_ifs at hu
      exact hs.mustResize u fd' hu
    · intro u fd' ctx' hu
      rw [phase_setPhase] at hu
      split_ifs at hu
      · cases hu
        exact hctx
      · exact getElem?_of_kept hpre (hs.adding u fd' ctx' hu)
    · intro r hr
      exact getElem?_of_kept hpre (hs.registered r hr)
  · refine ⟨hs.large, hs.small, ?_, ?_, ?_⟩
    · intro u fd hu
      change (s.setPhase t phase).phase u = _ at hu
      rw [phase_setPhase] at hu
      split_ifs at hu
      · have hle := hmust fd hu
        rw [intSize_eq hs.small] at hle
        have := hs.large
        omega
      · exact hs.mustResize u fd hu
    · intro u fd ctx hu
      change (s.setPhase t phase).phase u = _ at hu
      rw [phase_setPhase] at hu
      split_ifs at hu
      · exact hadd fd ctx hu
      · exact hs.adding u fd ctx hu
    · intro r hr
      rcases hreg r hr with hold | hnew
      · exact hs.registered r hold
      · exact hs.adding t r.1 r.2 hnew

/-- In every run whose resizes grow the table, a later table extends an earlier one, and every
registered descriptor is found with the context that holds its registration. -/
theorem growing_run (ops₁ ops₂ : List TableOp) (s₁ s₂ : ContextTable)
    (hr₁ : Transition.run step new ops₁ = some s₁)
    (hr₂ : Transition.run step s₁ ops₂ = some s₂)
    (hg : Transition.Meets step Growing new (ops₁ ++ ops₂)) :
    s₁.fdContexts <+: s₂.fdContexts ∧ s₂.FindsRegistered := by
  obtain ⟨hg₁, hg₂⟩ := (Transition.meets_append_iff hr₁).mp hg
  have hinv : ∀ s op s', Inv s → Growing s op → s.step op = some s' → Inv s' :=
    fun _ _ _ hs hg h => hs.step hg h
  have hs₁ : s₁.Inv := Transition.run_invariant Inv hinv new_inv hg₁ hr₁
  have hs₂ : s₂.Inv := Transition.run_invariant Inv hinv hs₁ hg₂ hr₂
  refine ⟨?_, hs₂.findsRegistered⟩
  refine Transition.run_invariant (fun s => s₁.fdContexts <+: s.fdContexts) ?_ List.prefix_rfl
    hg₂ hr₂
  intro s op s' hs hg h
  exact hs.trans (hg.keeps h)

/-- Two threads find the table too small, for descriptor 48 and for descriptor 32, and the first
registers its event. -/
def twoResizes : List TableOp :=
  [.check 0 48, .check 1 32, .resize 0, .finish 0 true]

/-- The second thread then shrinks the table, and the registration is not found. -/
theorem shrinks_table : ∃ s₁ s₂, Transition.run step new twoResizes = some s₁ ∧
    Transition.run step s₁ [.resize 1] = some s₂ ∧
    s₂.fdContexts.length < s₁.fdContexts.length ∧ ¬ s₂.FindsRegistered := by
  have hrun₁ : (Transition.run step new twoResizes).map (fun s => s.fdContexts.length) =
      some 72 := by decide +kernel
  have hrun₂ : (Transition.run step new (twoResizes ++ [.resize 1])).map
      (fun s => (s.fdContexts.length, s.registered, s.find 48)) =
      some (48, [(48, 48)], none) := by decide +kernel
  obtain ⟨s₂, hs₂, hh⟩ := Option.map_eq_some_iff.mp hrun₂
  simp only [Prod.mk.injEq] at hh
  obtain ⟨hlen₂, hreg, hfind⟩ := hh
  obtain ⟨s₁, hs₁, hs₂⟩ := Transition.run_append_iff.mp hs₂
  have hlen₁ : s₁.fdContexts.length = 72 := by simpa [hs₁] using hrun₁
  refine ⟨s₁, s₂, hs₁, hs₂, by omega, ?_⟩
  intro h
  have hsome := h (48, 48) (by simp [hreg])
  rw [hfind] at hsome
  cases hsome

/-- Where the larger table is made second, nothing is lost. -/
theorem growing_run_larger_second : ∃ s₁ s₂,
    Transition.run step new [.check 0 48, .check 1 32, .resize 1, .finish 1 true] = some s₁ ∧
      Transition.run step s₁ [.resize 0, .finish 0 true, .lookup 2 32] = some s₂ ∧
      s₂.registered = [(32, 32), (48, 48)] ∧ s₁.fdContexts <+: s₂.fdContexts ∧
      s₂.FindsRegistered := by
  have hrun : (Transition.run step new ([.check 0 48, .check 1 32, .resize 1, .finish 1 true] ++
      [.resize 0, .finish 0 true, .lookup 2 32])).map ContextTable.registered =
      some [(32, 32), (48, 48)] := by decide +kernel
  obtain ⟨s₂, hs₂, hreg⟩ := Option.map_eq_some_iff.mp hrun
  obtain ⟨s₁, hs₁, hs₂⟩ := Transition.run_append_iff.mp hs₂
  exact ⟨s₁, s₂, hs₁, hs₂, hreg, growing_run _ _ s₁ s₂ hs₁ hs₂ (by decide +kernel)⟩

end ContextTable

end ServerFramework
