import Mathlib.Tactic.SplitIfs
import ServerFramework.Fiber.Scheduler
import ServerFramework.Lib.Transition

/-! # The contexts of fibers

`Resume` saves what its thread executes in the context of the scheduling fiber of the thread or of
its main fiber, and `Yield` saves it in the context of the fiber that it is called on; neither looks
at who the caller is. Each of them is one step here; what can happen in the middle of them is the
subject of `HandOver`.
-/

namespace ServerFramework

/-- A fiber, named by its stack. -/
inductive Stack where
  /-- The main fiber of a thread, on the thread's own stack. -/
  | main (t : ThreadId)
  /-- `root_fiber_` of a scheduler that was made on the thread with `use_caller`. -/
  | root (t : ThreadId)
  | task (id : ℕ)
  deriving DecidableEq, Repr

/-- What a thread is to schedulers. -/
inductive ThreadKind where
  | plain
  /-- Started by a scheduler; it executes `Run` on its own stack. -/
  | pool
  /-- A scheduler was made on it with `use_caller`. -/
  | caller
  deriving DecidableEq, Repr

/-- `ctx_`. A context from which it has been continued holds nothing, since to continue from it
again is undefined. -/
inductive Context where
  | empty
  /-- `makecontext`, with `MainFunc`. -/
  | entry
  /-- `swapcontext` has left the stack here. -/
  | saved (stack : Stack)
  deriving DecidableEq, Repr

/-- The fibers and the threads, each of which has called `GetThis`. -/
structure Contexts where
  state : Stack → FiberState
  runInScheduler : Stack → Bool
  ctx : Stack → Context
  /-- `t_fiber`. -/
  fiber : ThreadId → Stack
  /-- The stack that a thread executes. -/
  code : ThreadId → Stack
  /-- The stack has been entered and its function has not returned. -/
  live : Stack → Bool
  created : ℕ

/-- What the code on a thread does, and the creation of fibers. -/
inductive ContextOp where
  | create (runInScheduler : Bool)
  | reset (id : ℕ)
  | resume (t : ThreadId) (f : Stack)
  | yield (t : ThreadId) (f : Stack)
  /-- The function of the fiber returns. -/
  | finish (t : ThreadId)
  deriving DecidableEq, Repr

namespace Contexts

/-- The private constructor of main fibers leaves `run_in_scheduler_` as it is. -/
def new (garbage : ThreadId → Bool) : Contexts where
  state := fun
    | .main _ => .running
    | _ => .ready
  runInScheduler := fun
    | .main t => garbage t
    | .root _ => false
    | .task _ => true
  ctx := fun
    | .root _ => .entry
    | _ => .empty
  fiber := .main
  code := .main
  live := fun
    | .main _ => true
    | _ => false
  created := 0

/-- `t_scheduler_fiber`. -/
def schedulerFiber (kind : ThreadId → ThreadKind) (t : ThreadId) : Option Stack :=
  match kind t with
  | .plain => none
  | .pool => some (.main t)
  | .caller => some (.root t)

/-- The fiber whose context `Resume` and `Yield` swap with. -/
def owner (kind : ThreadId → ThreadKind) (s : Contexts) (t : ThreadId) (f : Stack) :
    Option Stack :=
  if s.runInScheduler f then schedulerFiber kind t else some (.main t)

def isFiber (kind : ThreadId → ThreadKind) (s : Contexts) : Stack → Bool
  | .main _ => true
  | .root t => kind t = .caller
  | .task id => id < s.created

/-- The root fiber of a thread is resumed by `Stop` alone, which is taken to be called there. What
it asserts is less: that the thread belongs to the scheduler. -/
def isElsewhere (t : ThreadId) : Stack → Bool
  | .root u => u ≠ t
  | _ => false

def setState (s : Contexts) (f : Stack) (state : FiberState) : Contexts :=
  { s with state := Function.update s.state f state }

def setFiber (s : Contexts) (t : ThreadId) (f : Stack) : Contexts :=
  { s with fiber := Function.update s.fiber t f }

/-- `swapcontext` on a thread. A stack that is entered runs the function of the current fiber, which
is empty for a main fiber. -/
def swapcontext (s : Contexts) (t : ThreadId) (save load : Stack) : Option Contexts :=
  let ctx := Function.update s.ctx save (.saved (s.code t))
  match ctx load with
  | .empty => none
  | .entry =>
    if s.fiber t = load then
      some { s with
        ctx := Function.update ctx load .empty
        code := Function.update s.code t load
        live := Function.update s.live load true }
    else none
  | .saved stack =>
    some { s with
      ctx := Function.update ctx load .empty
      code := Function.update s.code t stack }

/-- The end of `Yield`, and of `MainFunc`. -/
def leave (kind : ThreadId → ThreadKind) (s : Contexts) (t : ThreadId) (f : Stack) :
    Option Contexts :=
  (s.owner kind t f).bind fun o => (s.setFiber t (.main t)).swapcontext t f o

/-- One step; a failed assertion and a null pointer have no result. -/
def step (kind : ThreadId → ThreadKind) (s : Contexts) : ContextOp → Option Contexts
  | .create runInScheduler =>
    let f := Stack.task s.created
    some { s.setState f .ready with
      runInScheduler := Function.update s.runInScheduler f runInScheduler
      ctx := Function.update s.ctx f .entry
      created := s.created + 1 }
  | .reset id =>
    if id < s.created ∧ s.state (.task id) = .term then
      some { s.setState (.task id) .ready with ctx := Function.update s.ctx (.task id) .entry }
    else none
  | .resume t f =>
    if s.isFiber kind f ∧ s.state f = .ready ∧ isElsewhere t f = false then
      (s.owner kind t f).bind fun o => ((s.setState f .running).setFiber t f).swapcontext t o f
    else none
  | .yield t f =>
    if s.isFiber kind f then
      match s.state f with
      | .ready => none
      | .running => (s.setState f .ready).leave kind t f
      | .term => s.leave kind t f
    else none
  | .finish t =>
    if s.code t = .main t then none
    else
      let f := s.code t
      ({ s.setState f .term with live := Function.update s.live f false } : Contexts).leave kind t f

/-- Where the stacks are that have been entered and not left for good: each is executed by one
thread, or kept in the context of its own fiber and of no other. Main fibers are always `RUNNING`,
as their destructor asserts. -/
structure Kept (s : Contexts) : Prop where
  held : ∀ f, s.live f = true → (∃ t, s.code t = f) ∨ s.ctx f = .saved f
  own : ∀ f g, s.ctx f = .saved g → g = f
  exclusive : ∀ t u, s.code t = s.code u → t = u
  mainRunning : ∀ t, s.state (.main t) = .running
  /-- Only a root fiber that a task has returned to is not the current fiber of its thread. -/
  current : ∀ t, s.code t = s.fiber t ∨ s.code t = .root t ∧ s.fiber t = .main t

/-- `Resume` is called by the fiber whose context it saves to, and `Yield` by the fiber that it is
called on, which is not a main fiber. -/
def Disciplined (kind : ThreadId → ThreadKind) (s : Contexts) : ContextOp → Prop
  | .resume t f => s.owner kind t f = some (s.code t)
  | .yield t f => f = s.code t ∧ f ≠ .main t
  | _ => True

instance (kind : ThreadId → ThreadKind) (s : Contexts) : ∀ op, Decidable (s.Disciplined kind op)
  | .resume t f => inferInstanceAs (Decidable (s.owner kind t f = some (s.code t)))
  | .yield t f => inferInstanceAs (Decidable (f = s.code t ∧ f ≠ .main t))
  | .create _ => isTrue trivial
  | .reset _ => isTrue trivial
  | .finish _ => isTrue trivial

/-- The main fiber and the root fiber of a thread. -/
def BelongsTo (t : ThreadId) (f : Stack) : Prop := f = .main t ∨ f = .root t

/-- What disciplined runs preserve. -/
structure Orderly (kind : ThreadId → ThreadKind) (s : Contexts) : Prop extends Kept s where
  emptied : ∀ t, s.ctx (s.code t) = .empty
  codeLive : ∀ t, s.live (s.code t) = true
  codeRunning : ∀ t, s.state (s.code t) = .running
  belongs : ∀ t u, BelongsTo u (s.code t) → u = t
  mainLive : ∀ t, s.live (.main t) = true
  isFiber : ∀ f, s.live f = true → s.isFiber kind f = true
  notEnded : ∀ f, s.live f = true → s.state f ≠ .term
  dormant : ∀ f, s.isFiber kind f = true → s.live f = false → s.state f ≠ .term → s.ctx f = .entry
  entry : ∀ f, s.ctx f = .entry → s.live f = false
  /-- A fiber that is executed has another to return to. -/
  returns : ∀ t, s.code t ≠ .main t →
    ∃ o, s.owner kind t (s.code t) = some o ∧ s.live o = true ∧ s.state o = .running
  rootPlain : ∀ t, s.runInScheduler (.root t) = false

variable {kind : ThreadId → ThreadKind} {s s' : Contexts} {t : ThreadId} {f o : Stack}

theorem owner_belongsTo (h : s.owner kind t f = some o) : BelongsTo t o := by
  rw [owner, schedulerFiber] at h
  split_ifs at h
  · split at h
    · cases h
    · exact .inl (Option.some.inj h).symm
    · exact .inr (Option.some.inj h).symm
  · exact .inl (Option.some.inj h).symm

theorem BelongsTo.eq {u : ThreadId} (h : BelongsTo t f) (h' : BelongsTo u f) : t = u := by
  rcases h with rfl | rfl <;> rcases h' with h' | h' <;> cases h' <;> rfl

/-- What `swapcontext` does where the context loaded is another one than the one saved. -/
structure Switched (s s' : Contexts) (t : ThreadId) (save load : Stack) : Prop where
  ctx : s'.ctx = Function.update (Function.update s.ctx save (.saved (s.code t))) load .empty
  code : s'.code = Function.update s.code t load
  live : ∀ f ≠ load, s'.live f = s.live f
  liveLoad : s.live load = true ∨ s.ctx load = .entry → s'.live load = true
  state : s'.state = s.state
  fiber : s'.fiber = s.fiber
  runInScheduler : s'.runInScheduler = s.runInScheduler
  created : s'.created = s.created

theorem switched_of_swapcontext {save load : Stack} (h : s.swapcontext t save load = some s')
    (hne : load ≠ save) (hown : ∀ g, s.ctx load = .saved g → g = load) :
    Switched s s' t save load := by
  rw [swapcontext] at h
  simp only [Function.update_of_ne hne] at h
  split at h
  · cases h
  · split_ifs at h
    obtain rfl := Option.some.inj h
    exact ⟨rfl, rfl, fun g hg => Function.update_of_ne hg .., fun _ => Function.update_self ..,
      rfl, rfl, rfl, rfl⟩
  · rename_i g hg
    obtain rfl := Option.some.inj h
    obtain rfl := hown g hg
    refine ⟨rfl, rfl, fun _ _ => rfl, ?_, rfl, rfl, rfl, rfl⟩
    rintro (hl | he)
    · exact hl
    · cases hg.symm.trans he

/-- A thread goes on with another fiber than it has executed, which nobody executes and which has
another to return to. The fiber that it leaves can go on later, or has ended. -/
structure Handover (kind : ThreadId → ThreadKind) (s s' : Contexts) (t : ThreadId)
    (f : Stack) : Prop where
  free : ∀ u, s.code u ≠ f
  ctx : s'.ctx = Function.update (Function.update s.ctx (s.code t) (.saved (s.code t))) f .empty
  code : s'.code = Function.update s.code t f
  runInScheduler : s'.runInScheduler = s.runInScheduler
  created : s'.created = s.created
  live : ∀ g, g ≠ s.code t → g ≠ f → s'.live g = s.live g
  state : ∀ g, g ≠ s.code t → g ≠ f → s'.state g = s.state g
  left : s'.live (s.code t) = true ∧ s'.state (s.code t) ≠ .term ∨
    s'.live (s.code t) = false ∧ s'.state (s.code t) = .term
  leftMain : ∀ u, s.code t = .main u → s'.live (.main u) = true ∧ s'.state (.main u) = .running
  entered : s'.live f = true ∧ s'.state f = .running
  isFiber : s.isFiber kind f = true
  belongs : ∀ u, BelongsTo u f → u = t
  returns : f ≠ .main t → ∃ o, s.owner kind t f = some o ∧ o ≠ f ∧ s'.live o = true ∧
    s'.state o = .running
  current : f = s'.fiber t ∨ f = .root t ∧ s'.fiber t = .main t
  others : ∀ u ≠ t, s'.fiber u = s.fiber u

section Handover

variable (w : Handover kind s s' t f)

include w

theorem Handover.code_self : s'.code t = f := by rw [w.code, Function.update_self]

theorem Handover.code_other {u : ThreadId} (hu : u ≠ t) : s'.code u = s.code u := by
  rw [w.code, Function.update_of_ne hu]

theorem Handover.owner_eq (u : ThreadId) (g : Stack) : s'.owner kind u g = s.owner kind u g := by
  rw [owner, owner, w.runInScheduler]

theorem Handover.isFiber_eq (g : Stack) : s'.isFiber kind g = s.isFiber kind g := by
  cases g <;> simp only [Contexts.isFiber, w.created]

/-- A stack is the one entered, the one left, or as it was. -/
theorem Handover.stack_cases (g : Stack) :
    (g = f ∧ s'.ctx g = .empty) ∨ (g = s.code t ∧ s'.ctx g = .saved g) ∨
      ((g ≠ f ∧ g ≠ s.code t) ∧ s'.ctx g = s.ctx g ∧ s'.live g = s.live g ∧
        s'.state g = s.state g) := by
  rw [w.ctx]
  by_cases hgf : g = f
  · exact .inl ⟨hgf, by rw [hgf, Function.update_self]⟩
  · rw [Function.update_of_ne hgf]
    by_cases hgt : g = s.code t
    · exact .inr (.inl ⟨hgt, by rw [hgt, Function.update_self]⟩)
    · exact .inr (.inr ⟨⟨hgf, hgt⟩, Function.update_of_ne hgt .., w.live g hgt hgf,
        w.state g hgt hgf⟩)

/-- What another thread executes is as it was. -/
theorem Handover.other (h : s.Orderly kind) {u : ThreadId} (hu : u ≠ t) :
    s'.ctx (s.code u) = s.ctx (s.code u) ∧ s'.live (s.code u) = s.live (s.code u) ∧
      s'.state (s.code u) = s.state (s.code u) := by
  rcases w.stack_cases (s.code u) with ⟨he, -⟩ | ⟨he, -⟩ | ⟨-, hsame⟩
  · exact absurd he (w.free u)
  · exact absurd (h.exclusive u t he) hu
  · exact hsame

/-- A main fiber that is not the one left or entered is as it was. -/
theorem Handover.main (h : s.Orderly kind) (u : ThreadId) :
    s'.live (.main u) = true ∧ s'.state (.main u) = .running := by
  rcases w.stack_cases (.main u) with ⟨he, -⟩ | ⟨he, -⟩ | ⟨-, -, hlive, hstate⟩
  · rw [he]
    exact w.entered
  · exact w.leftMain u he.symm
  · rw [hlive, hstate]
    exact ⟨h.mainLive u, h.mainRunning u⟩

theorem Handover.held (h : s.Orderly kind) (g : Stack) (hg : s'.live g = true) :
    (∃ u, s'.code u = g) ∨ s'.ctx g = .saved g := by
  rcases w.stack_cases g with ⟨rfl, -⟩ | ⟨-, hsaved⟩ | ⟨⟨-, hgt⟩, hctx, hlive, -⟩
  · exact .inl ⟨t, w.code_self⟩
  · exact .inr hsaved
  · rw [hlive] at hg
    rw [hctx]
    refine (h.held g hg).imp_left ?_
    rintro ⟨u, rfl⟩
    have hut : u ≠ t := fun he => hgt (by rw [he])
    exact ⟨u, w.code_other hut⟩

theorem Handover.own (h : s.Orderly kind) (g g' : Stack) (hg : s'.ctx g = .saved g') : g' = g := by
  rcases w.stack_cases g with ⟨-, hempty⟩ | ⟨-, hsaved⟩ | ⟨-, hctx, -⟩
  · cases hempty.symm.trans hg
  · exact (Context.saved.inj (hsaved.symm.trans hg)).symm
  · exact h.own g g' (hctx.symm.trans hg)

theorem Handover.exclusive (h : s.Orderly kind) (u v : ThreadId) (huv : s'.code u = s'.code v) :
    u = v := by
  by_cases hu : u = t <;> by_cases hv : v = t
  · rw [hu, hv]
  · rw [hu, w.code_self, w.code_other hv] at huv
    exact absurd huv.symm (w.free v)
  · rw [hv, w.code_self, w.code_other hu] at huv
    exact absurd huv (w.free u)
  · rw [w.code_other hu, w.code_other hv] at huv
    exact h.exclusive u v huv

theorem Handover.kept (h : s.Orderly kind) : s'.Kept where
  held := w.held h
  own := w.own h
  exclusive := w.exclusive h
  mainRunning := fun u => (w.main h u).2
  current := by
    intro u
    by_cases hu : u = t
    · rw [hu, w.code_self]
      exact w.current
    · rw [w.code_other hu, w.others u hu]
      exact h.current u

/-- What is executed is live and running, and nothing of it is saved. -/
theorem Handover.executed (h : s.Orderly kind) (u : ThreadId) :
    s'.ctx (s'.code u) = .empty ∧ s'.live (s'.code u) = true ∧ s'.state (s'.code u) = .running := by
  by_cases hu : u = t
  · rw [hu, w.code_self, w.ctx, Function.update_self]
    exact ⟨rfl, w.entered⟩
  · obtain ⟨hctx, hlive, hstate⟩ := w.other h hu
    rw [w.code_other hu, hctx, hlive, hstate]
    exact ⟨h.emptied u, h.codeLive u, h.codeRunning u⟩

theorem Handover.belongs_code (h : s.Orderly kind) (u v : ThreadId) (hv : BelongsTo v (s'.code u)) :
    v = u := by
  by_cases hu : u = t
  · rw [hu, w.code_self] at hv
    rw [hu]
    exact w.belongs v hv
  · rw [w.code_other hu] at hv
    exact h.belongs u v hv

theorem Handover.entry (h : s.Orderly kind) (g : Stack) (hg : s'.ctx g = .entry) :
    s'.live g = false := by
  rcases w.stack_cases g with ⟨-, hempty⟩ | ⟨-, hsaved⟩ | ⟨-, hctx, hlive, -⟩
  · cases hempty.symm.trans hg
  · cases hsaved.symm.trans hg
  · rw [hlive]
    exact h.entry g (hctx.symm.trans hg)

theorem Handover.isFiber_of_live (h : s.Orderly kind) (g : Stack) (hg : s'.live g = true) :
    s'.isFiber kind g = true := by
  rw [w.isFiber_eq]
  rcases w.stack_cases g with ⟨rfl, -⟩ | ⟨rfl, -⟩ | ⟨-, -, hlive, -⟩
  · exact w.isFiber
  · exact h.isFiber _ (h.codeLive t)
  · exact h.isFiber g (hlive.symm.trans hg)

theorem Handover.notEnded (h : s.Orderly kind) (g : Stack) (hg : s'.live g = true) :
    s'.state g ≠ .term := by
  rcases w.stack_cases g with ⟨rfl, -⟩ | ⟨rfl, -⟩ | ⟨-, -, hlive, hstate⟩
  · rw [w.entered.2]
    exact FiberState.noConfusion
  · rcases w.left with hleft | hleft
    · exact hleft.2
    · exact absurd (hg.symm.trans hleft.1) (by decide)
  · rw [hstate]
    exact h.notEnded g (hlive.symm.trans hg)

theorem Handover.dormant (h : s.Orderly kind) (g : Stack) (hfib : s'.isFiber kind g = true)
    (hg : s'.live g = false) (hterm : s'.state g ≠ .term) : s'.ctx g = .entry := by
  rw [w.isFiber_eq] at hfib
  rcases w.stack_cases g with ⟨rfl, -⟩ | ⟨rfl, -⟩ | ⟨-, hctx, hlive, hstate⟩
  · cases hg.symm.trans w.entered.1
  · rcases w.left with hleft | hleft
    · cases hg.symm.trans hleft.1
    · exact absurd hleft.2 hterm
  · rw [hstate] at hterm
    rw [hctx]
    exact h.dormant g hfib (hlive.symm.trans hg) hterm

theorem Handover.returns_code (h : s.Orderly kind) (u : ThreadId) (hu : s'.code u ≠ .main u) :
    ∃ o, s'.owner kind u (s'.code u) = some o ∧ s'.live o = true ∧ s'.state o = .running := by
  rw [w.owner_eq]
  by_cases hut : u = t
  · rw [hut, w.code_self] at hu ⊢
    obtain ⟨o, ho, -, hlive, hrun⟩ := w.returns hu
    exact ⟨o, ho, hlive, hrun⟩
  · rw [w.code_other hut] at hu ⊢
    obtain ⟨o, ho, hlive, hrun⟩ := h.returns u hu
    refine ⟨o, ho, ?_⟩
    have hbelongs := owner_belongsTo ho
    rcases w.stack_cases o with ⟨rfl, -⟩ | ⟨rfl, -⟩ | ⟨-, -, hlive', hstate'⟩
    · exact absurd (w.belongs u hbelongs) hut
    · exact absurd (h.belongs t u hbelongs) hut
    · rw [hlive', hstate']
      exact ⟨hlive, hrun⟩

theorem Handover.orderly (h : s.Orderly kind) : s'.Orderly kind where
  toKept := w.kept h
  emptied := fun u => (w.executed h u).1
  codeLive := fun u => (w.executed h u).2.1
  codeRunning := fun u => (w.executed h u).2.2
  belongs := w.belongs_code h
  mainLive := fun u => (w.main h u).1
  isFiber := w.isFiber_of_live h
  notEnded := w.notEnded h
  dormant := w.dormant h
  entry := w.entry h
  returns := w.returns_code h
  rootPlain := by
    rw [w.runInScheduler]
    exact h.rootPlain

end Handover

/-- A fiber that is new or has ended may be made ready to be entered. -/
theorem Orderly.prepare (h : s.Orderly kind) {id : ℕ} (hid : s.live (.task id) = false)
    (hctx : s'.ctx = Function.update s.ctx (.task id) .entry) (hcode : s'.code = s.code)
    (hlive : s'.live = s.live) (hfiber : s'.fiber = s.fiber)
    (hstate : s'.state = Function.update s.state (.task id) .ready)
    (hrun : ∀ g ≠ .task id, s'.runInScheduler g = s.runInScheduler g)
    (hisFiber : ∀ g ≠ .task id, s'.isFiber kind g = s.isFiber kind g) : s'.Orderly kind := by
  have hcodeNe : ∀ u, s.code u ≠ .task id := by
    intro u hu
    have hl := h.codeLive u
    rw [hu, hid] at hl
    cases hl
  have hliveNe : ∀ g, s.live g = true → g ≠ .task id := by
    rintro g hg rfl
    rw [hid] at hg
    cases hg
  have hctxNe : ∀ g ≠ .task id, s'.ctx g = s.ctx g := by
    intro g hg
    rw [hctx, Function.update_of_ne hg]
  have hstateNe : ∀ g ≠ .task id, s'.state g = s.state g := by
    intro g hg
    rw [hstate, Function.update_of_ne hg]
  refine
    { held := ?_, own := ?_, exclusive := ?_, mainRunning := ?_, current := ?_, emptied := ?_,
      codeLive := ?_, codeRunning := ?_, belongs := ?_, mainLive := ?_, isFiber := ?_,
      notEnded := ?_, dormant := ?_, entry := ?_, returns := ?_, rootPlain := ?_ }
  · intro g hg
    rw [hlive] at hg
    rw [hcode, hctxNe g (hliveNe g hg)]
    exact h.held g hg
  · intro g g' hg
    by_cases hgt : g = .task id
    · rw [hgt, hctx, Function.update_self] at hg
      cases hg
    · rw [hctxNe g hgt] at hg
      exact h.own g g' hg
  · rw [hcode]
    exact h.exclusive
  · intro u
    rw [hstateNe _ Stack.noConfusion]
    exact h.mainRunning u
  · rw [hcode, hfiber]
    exact h.current
  · intro u
    rw [hcode, hctxNe _ (hcodeNe u)]
    exact h.emptied u
  · rw [hcode, hlive]
    exact h.codeLive
  · intro u
    rw [hcode, hstateNe _ (hcodeNe u)]
    exact h.codeRunning u
  · rw [hcode]
    exact h.belongs
  · rw [hlive]
    exact h.mainLive
  · intro g hg
    rw [hlive] at hg
    rw [hisFiber g (hliveNe g hg)]
    exact h.isFiber g hg
  · intro g hg
    rw [hlive] at hg
    rw [hstateNe g (hliveNe g hg)]
    exact h.notEnded g hg
  · intro g hfib hg hterm
    by_cases hgt : g = .task id
    · rw [hgt, hctx, Function.update_self]
    · rw [hisFiber g hgt] at hfib
      rw [hlive] at hg
      rw [hstateNe g hgt] at hterm
      rw [hctxNe g hgt]
      exact h.dormant g hfib hg hterm
  · intro g hg
    rw [hlive]
    by_cases hgt : g = .task id
    · rw [hgt]
      exact hid
    · rw [hctxNe g hgt] at hg
      exact h.entry g hg
  · intro u hu
    rw [hcode] at hu ⊢
    obtain ⟨o, ho, hl, hr⟩ := h.returns u hu
    refine ⟨o, ?_, by rw [hlive, hl], by rw [hstateNe o (hliveNe o hl), hr]⟩
    rw [← ho, owner, owner, hrun _ (hcodeNe u)]
  · intro u
    rw [hrun _ Stack.noConfusion]
    exact h.rootPlain u

theorem Orderly.create (h : s.Orderly kind) {b : Bool}
    (hs : s.step kind (.create b) = some s') : s'.Orderly kind := by
  obtain rfl := Option.some.inj hs
  have hid : s.live (.task s.created) = false := by
    by_contra hl
    have hfib := h.isFiber _ (eq_true_of_ne_false hl)
    simp [Contexts.isFiber] at hfib
  refine h.prepare hid rfl rfl rfl rfl rfl (fun g hg => Function.update_of_ne hg ..) ?_
  intro g hg
  cases g with
  | main t => rfl
  | root t => rfl
  | task id =>
    have hne : id ≠ s.created := fun he => hg (by rw [he])
    simp only [Contexts.isFiber, decide_eq_decide]
    omega

theorem Orderly.reset (h : s.Orderly kind) {id : ℕ}
    (hs : s.step kind (.reset id) = some s') : s'.Orderly kind := by
  obtain ⟨⟨-, hterm⟩, rfl⟩ := Option.ite_some_none_eq_some.mp hs
  have hid : s.live (.task id) = false := by
    by_contra hl
    exact h.notEnded _ (eq_true_of_ne_false hl) hterm
  exact h.prepare hid rfl rfl rfl rfl rfl (fun _ _ => rfl) fun g _ => by cases g <;> rfl

/-- A fiber that is `READY` is not executed. -/
theorem Orderly.ready_free (h : s.Orderly kind) (hready : s.state f = .ready) (u : ThreadId) :
    s.code u ≠ f := by
  rintro rfl
  cases hready.symm.trans (h.codeRunning u)

theorem belongsTo_of_elsewhere (hready : s.state f = .ready)
    (hm : ∀ u, s.state (.main u) = .running)
    (he : isElsewhere t f = false) (u : ThreadId) (hu : BelongsTo u f) : u = t := by
  rcases hu with rfl | rfl
  · cases hready.symm.trans (hm u)
  · simpa [isElsewhere] using he

/-- `Resume`, from its assertion on. -/
theorem resume_cases (hs : s.step kind (.resume t f) = some s') :
    s.isFiber kind f = true ∧ s.state f = .ready ∧ isElsewhere t f = false ∧
      ∃ o, s.owner kind t f = some o ∧
        ((s.setState f .running).setFiber t f).swapcontext t o f = some s' := by
  simp only [step] at hs
  split_ifs at hs with hc
  obtain ⟨o, ho, hswap⟩ := Option.bind_eq_some_iff.mp hs
  exact ⟨hc.1, hc.2.1, hc.2.2, o, ho, hswap⟩

/-- The fiber resumed is another one than that in whose context `Resume` saves. -/
theorem owner_ne_of_ready (h : s.Orderly kind) (hready : s.state f = .ready)
    (ho : s.owner kind t f = some o) : f ≠ o := by
  rintro rfl
  rcases owner_belongsTo ho with rfl | rfl
  · cases hready.symm.trans (h.mainRunning t)
  · rw [owner, h.rootPlain t] at ho
    cases ho

/-- A fiber that may be resumed is entered, or continued where it was left. -/
theorem Orderly.resumed (h : s.Orderly kind) (hs : s.step kind (.resume t f) = some s') :
    ∃ o, s.owner kind t f = some o ∧ s.state f = .ready ∧ f ≠ o ∧
      Switched ((s.setState f .running).setFiber t f) s' t o f := by
  obtain ⟨-, hready, -, o, ho, hswap⟩ := resume_cases hs
  have hne := owner_ne_of_ready h hready ho
  exact ⟨o, ho, hready, hne, switched_of_swapcontext hswap hne fun g hg => h.own f g hg⟩

theorem Orderly.resume (h : s.Orderly kind) (hs : s.step kind (.resume t f) = some s')
    (hg : s.owner kind t f = some (s.code t)) : s'.Orderly kind := by
  obtain ⟨hfib, hready, hels, -⟩ := resume_cases hs
  obtain ⟨o, ho, -, hne, hsw⟩ := h.resumed hs
  obtain rfl := Option.some.inj (hg.symm.trans ho)
  have hfree := h.ready_free hready
  have hstate : ∀ g ≠ f, s'.state g = s.state g := by
    intro g hgf
    rw [hsw.state]
    exact Function.update_of_ne hgf ..
  have hcurrent : s'.fiber = Function.update s.fiber t f := hsw.fiber
  have hlive : s'.live f = true := by
    refine hsw.liveLoad ?_
    by_cases hl : s.live f = true
    · exact .inl hl
    · refine .inr (h.dormant f hfib (eq_false_of_ne_true hl) ?_)
      rw [hready]
      exact FiberState.noConfusion
  have hself := hsw.live _ hne.symm
  have hleft : s'.live (s.code t) = true ∧ s'.state (s.code t) = .running := by
    rw [hself, hstate _ hne.symm]
    exact ⟨h.codeLive t, h.codeRunning t⟩
  have hrun : s'.state f = .running := by
    rw [hsw.state]
    exact Function.update_self ..
  have hand : Handover kind s s' t f := {
    free := hfree
    ctx := hsw.ctx
    code := hsw.code
    runInScheduler := hsw.runInScheduler
    created := hsw.created
    live := fun g _ hgf => hsw.live g hgf
    state := fun g _ hgf => hstate g hgf
    left := .inl ⟨hleft.1, by rw [hleft.2]; exact FiberState.noConfusion⟩
    leftMain := fun u hu => hu ▸ hleft
    entered := ⟨hlive, hrun⟩
    isFiber := hfib
    belongs := belongsTo_of_elsewhere hready h.mainRunning hels
    returns := fun _ => ⟨_, ho, hne.symm, hleft⟩
    current := .inl (by rw [hcurrent, Function.update_self])
    others := fun u hu => by rw [hcurrent, Function.update_of_ne hu] }
  exact hand.orderly h

theorem Orderly.owner_ne (h : s.Orderly kind) (hmain : s.code t ≠ .main t)
    (ho : s.owner kind t (s.code t) = some o) : o ≠ s.code t := by
  rintro rfl
  rcases owner_belongsTo ho with he | he
  · exact hmain he
  · rw [he, owner, h.rootPlain t] at ho
    cases ho

/-- A fiber leaves its thread to the one that has resumed it. -/
theorem Orderly.leave (h : s.Orderly kind) (hmain : s.code t ≠ .main t) {state : FiberState}
    {live : Bool} (hleft : live = true ∧ state ≠ .term ∨ live = false ∧ state = .term)
    (hs : ({ s.setState (s.code t) state with
      live := Function.update s.live (s.code t) live } : Contexts).leave kind t (s.code t) =
        some s') : s'.Orderly kind := by
  obtain ⟨o, ho, hswap⟩ := Option.bind_eq_some_iff.mp hs
  replace ho : s.owner kind t (s.code t) = some o := ho
  have hne := h.owner_ne hmain ho
  have hsw := switched_of_swapcontext hswap hne fun g hg => h.own o g hg
  obtain ⟨o', ho', holive, horun⟩ := h.returns t hmain
  obtain rfl := Option.some.inj (ho.symm.trans ho')
  have hb := owner_belongsTo ho
  have hfree : ∀ u, s.code u ≠ o := by
    rintro u rfl
    rw [h.belongs u t hb] at hne
    exact hne rfl
  have hstate : ∀ g ≠ s.code t, s'.state g = s.state g := by
    intro g hg
    rw [hsw.state]
    exact Function.update_of_ne hg ..
  have hlive : ∀ g, g ≠ s.code t → g ≠ o → s'.live g = s.live g := by
    intro g hg hgo
    rw [hsw.live g hgo]
    exact Function.update_of_ne hg ..
  have hfiber : s'.fiber = Function.update s.fiber t (.main t) := hsw.fiber
  have hload : s'.live o = true := by
    refine hsw.liveLoad (.inl ?_)
    exact (Function.update_of_ne hne ..).trans holive
  have hmainLeft : ∀ u, s.code t ≠ .main u := by
    intro u hu
    have hut : u = t := h.belongs t u (.inl hu)
    exact hmain (hut ▸ hu)
  have hreturns : o ≠ .main t → ∃ o', s.owner kind t o = some o' ∧ o' ≠ o ∧ s'.live o' = true ∧
      s'.state o' = .running := by
    intro homain
    rcases hb with rfl | rfl
    · exact absurd rfl homain
    · refine ⟨.main t, ?_, Stack.noConfusion, ?_, ?_⟩
      · rw [owner, h.rootPlain t]
        rfl
      · rw [hlive _ hmain.symm Stack.noConfusion]
        exact h.mainLive t
      · rw [hstate _ hmain.symm]
        exact h.mainRunning t
  have hcurrent : s'.fiber t = .main t := by
    rw [hfiber, Function.update_self]
  have hand : Handover kind s s' t o := {
    free := hfree
    ctx := hsw.ctx
    code := hsw.code
    runInScheduler := hsw.runInScheduler
    created := hsw.created
    live := hlive
    state := fun g hg _ => hstate g hg
    left := by
      rw [hsw.live _ hne.symm, hsw.state]
      simpa [setState, setFiber] using hleft
    leftMain := fun u hu => absurd hu (hmainLeft u)
    entered := ⟨hload, (hstate o hne).trans horun⟩
    isFiber := h.isFiber o holive
    belongs := fun u hu => hu.eq hb
    returns := hreturns
    current := hb.imp (fun he => he.trans hcurrent.symm) fun he => ⟨he, hcurrent⟩
    others := fun u hu => by rw [hfiber, Function.update_of_ne hu] }
  exact hand.orderly h

/-- Every disciplined step keeps the fibers in order. -/
theorem Orderly.step {op : ContextOp} (h : s.Orderly kind) (hg : s.Disciplined kind op)
    (hs : s.step kind op = some s') : s'.Orderly kind := by
  cases op with
  | create b => exact h.create hs
  | reset id => exact h.reset hs
  | resume t f => exact h.resume hs hg
  | yield t f =>
    obtain ⟨rfl, hmain⟩ := hg
    simp only [Contexts.step, h.codeRunning t] at hs
    split_ifs at hs
    have hready :
        true = true ∧ FiberState.ready ≠ .term ∨ true = false ∧ FiberState.ready = .term :=
      .inl ⟨rfl, by decide⟩
    refine h.leave hmain hready ?_
    rw [← hs, ← h.codeLive t, Function.update_eq_self]
    rfl
  | finish t =>
    simp only [Contexts.step] at hs
    split_ifs at hs with hmain
    exact h.leave hmain (.inr ⟨rfl, rfl⟩) hs

end Contexts

end ServerFramework
