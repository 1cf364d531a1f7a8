import Mathlib.Algebra.Group.Nat.Defs
import Mathlib.Data.Fintype.Basic
import Mathlib.Data.List.Nodup
import ServerFramework.Lib.Transition

/-! # The ids of listeners

`ConfigVar<T>::AddListener` counts the ids of listeners in a variable that all `ConfigVar<T>` share,
and reads it three times under the lock of its own variable. Calls for one variable wait for each
other; those for two variables of one type do not.
-/

namespace ServerFramework

/-- Where a thread is in `AddListener(cb)` of a variable. -/
inductive AddPhase where
  | outside
  /-- Before the write lock. -/
  | locking (v cb : ℕ)
  /-- Before `s_fun_id` is read by `++`. -/
  | loading (v cb : ℕ)
  /-- Before `++` writes. -/
  | storing (v cb n : ℕ)
  /-- Before `cbs_[s_fun_id] = cb`. -/
  | inserting (v cb : ℕ)
  /-- Before `return s_fun_id`. -/
  | answering (v cb : ℕ)
  deriving DecidableEq, Repr

namespace AddPhase

/-- The variable whose lock the thread holds. -/
def locks : AddPhase → Option ℕ
  | outside | locking .. => none
  | loading v _ | storing v _ _ | inserting v _ | answering v _ => some v

/-- The thread has read `s_fun_id` and goes on with it. -/
def counts : AddPhase → Bool
  | outside | locking .. | loading .. => false
  | storing .. | inserting .. | answering .. => true

end AddPhase

/-- The listeners of the variables of one type. -/
structure Listeners (m : ℕ) where
  /-- `s_fun_id`. -/
  funId : ℕ
  /-- `cbs_` of each variable. -/
  cbs : ℕ → ℕ → Option ℕ
  phase : Fin m → AddPhase
  /-- The ids that calls have returned for each variable, with their callbacks, until somebody
  removes them. -/
  listed : ℕ → List (ℕ × ℕ)
  /-- All ids that calls have returned. -/
  used : List ℕ

/-- The steps of `AddListener`; `DelListener` and `ClearListener`, which wait for the lock too. -/
inductive ListenerOp (m : ℕ) where
  | add (t : Fin m) (v cb : ℕ)
  | lock (t : Fin m)
  | load (t : Fin m)
  | store (t : Fin m)
  | insert (t : Fin m)
  | answer (t : Fin m)
  | del (v key : ℕ)
  | clear (v : ℕ)
  deriving DecidableEq, Repr

namespace Listeners

variable {m : ℕ}

def new (m : ℕ) : Listeners m where
  funId := 0
  cbs _ _ := none
  phase _ := .outside
  listed _ := []
  used := []

/-- Nobody holds the lock of the variable. -/
def Free (s : Listeners m) (v : ℕ) : Prop := ∀ t, (s.phase t).locks ≠ some v

instance (s : Listeners m) (v : ℕ) : Decidable (s.Free v) :=
  inferInstanceAs (Decidable (∀ _, _))

def step (s : Listeners m) : ListenerOp m → Option (Listeners m)
  | .add t v cb =>
    match s.phase t with
    | .outside => some { s with phase := Function.update s.phase t (.locking v cb) }
    | _ => none
  | .lock t =>
    match s.phase t with
    | .locking v cb =>
      if s.Free v then some { s with phase := Function.update s.phase t (.loading v cb) } else none
    | _ => none
  | .load t =>
    match s.phase t with
    | .loading v cb =>
      some { s with phase := Function.update s.phase t (.storing v cb s.funId) }
    | _ => none
  | .store t =>
    match s.phase t with
    | .storing v cb n =>
      some { s with
        funId := (n + 1) % 2 ^ 64
        phase := Function.update s.phase t (.inserting v cb) }
    | _ => none
  | .insert t =>
    match s.phase t with
    | .inserting v cb =>
      some { s with
        cbs := fun v' id => if v' = v ∧ id = s.funId then some cb else s.cbs v' id
        phase := Function.update s.phase t (.answering v cb) }
    | _ => none
  | .answer t =>
    match s.phase t with
    | .answering v cb =>
      some { s with
        phase := Function.update s.phase t .outside
        listed := Function.update s.listed v (s.listed v ++ [(s.funId, cb)])
        used := s.used ++ [s.funId] }
    | _ => none
  | .del v key =>
    if s.Free v then
      some { s with
        cbs := fun v' id => if v' = v ∧ id = key then none else s.cbs v' id
        listed := Function.update s.listed v ((s.listed v).filter fun x => x.1 ≠ key) }
    else none
  | .clear v =>
    if s.Free v then
      some { s with
        cbs := fun v' id => if v' = v then none else s.cbs v' id
        listed := Function.update s.listed v [] }
    else none

/-- No two calls count at once, and the ids do not run out. -/
def Alone (s : Listeners m) : ListenerOp m → Prop
  | .load t => (∀ u ≠ t, (s.phase u).counts = false) ∧ s.funId + 1 < 2 ^ 64
  | _ => True

instance (s : Listeners m) : ∀ op, Decidable (s.Alone op)
  | .load _ => inferInstanceAs (Decidable (_ ∧ _))
  | .add .. | .lock _ | .store _ | .insert _ | .answer _ | .del .. | .clear _ => isTrue trivial

/-- Every listener is found under the id its caller got, until it is removed, and no other. -/
structure Registered (s : Listeners m) : Prop where
  found : ∀ v id cb, (id, cb) ∈ s.listed v → s.cbs v id = some cb
  nodup : ∀ v, ((s.listed v).map Prod.fst).Nodup
  /-- What is there has been added and not been removed. -/
  all : ∀ v id cb, s.cbs v id = some cb →
    (id, cb) ∈ s.listed v ∨ id = s.funId ∧ ∃ t, s.phase t = .answering v cb
  /-- No id is given twice, for whatever variable. -/
  used : s.used.Nodup

/-- One call counts at a time, with ids that nobody has got. -/
structure Inv (s : Listeners m) : Prop where
  locks : ∀ t u v, (s.phase t).locks = some v → (s.phase u).locks = some v → t = u
  counts : ∀ t u, (s.phase t).counts = true → (s.phase u).counts = true → t = u
  storing : ∀ t v cb n, s.phase t = .storing v cb n → n = s.funId ∧ n + 1 < 2 ^ 64
  keys : ∀ v id cb, s.cbs v id = some cb → id ≤ s.funId
  inserting : ∀ t v cb, s.phase t = .inserting v cb → ∀ v' id cb', s.cbs v' id = some cb' →
    id < s.funId
  answering : ∀ t v cb, s.phase t = .answering v cb → s.cbs v s.funId = some cb
  used_le : ∀ id ∈ s.used, id ≤ s.funId
  used_lt : ∀ t v cb, s.phase t = .inserting v cb ∨ s.phase t = .answering v cb →
    ∀ id ∈ s.used, id < s.funId
  listed : ∀ v id cb, (id, cb) ∈ s.listed v → id ∈ s.used
  registered : s.Registered

section Steps

variable {s s' : Listeners m} {t : Fin m}

theorem new_inv (m : ℕ) : (new m).Inv := by
  constructor <;> simp [new, AddPhase.locks, AddPhase.counts]
  constructor <;> simp

/-- A thread moves that has nothing to answer yet. -/
theorem Registered.move (h : s.Registered) (ht : ∀ v cb, s.phase t ≠ .answering v cb)
    (phase : AddPhase) (funId : ℕ)
    (hfun : funId = s.funId ∨ ∀ u v cb, s.phase u ≠ .answering v cb) :
    Registered { s with funId := funId, phase := Function.update s.phase t phase } := by
  refine ⟨h.found, h.nodup, ?_, h.used⟩
  intro v id cb hcb
  refine (h.all v id cb hcb).imp_right ?_
  rintro ⟨hid, u, hu⟩
  have hne : u ≠ t := by
    rintro rfl
    exact ht v cb hu
  have hsame : funId = s.funId := hfun.resolve_right fun hno => hno u v cb hu
  exact ⟨hid.trans hsame.symm, u, by simpa [hne] using hu⟩

/-- Only one thread has something to answer. -/
theorem Inv.not_answering (h : s.Inv) (ht : (s.phase t).counts = true)
    (hne : ∀ v cb, s.phase t ≠ .answering v cb) (u : Fin m) (v cb : ℕ) :
    s.phase u ≠ .answering v cb := by
  intro hu
  obtain rfl := h.counts t u ht (by simp [hu, AddPhase.counts])
  exact hne v cb hu

theorem Inv.registered_insert (h : s.Inv) {v cb : ℕ} (ht : s.phase t = .inserting v cb) :
    Registered { s with
      cbs := fun v' id => if v' = v ∧ id = s.funId then some cb else s.cbs v' id
      phase := Function.update s.phase t (.answering v cb) } := by
  obtain ⟨hfound, hnodup, hall, hused⟩ :=
    h.registered.move (t := t) (by simp [ht]) (.answering v cb) s.funId (.inl rfl)
  refine ⟨?_, hnodup, ?_, hused⟩
  · intro v' id cb' hmem
    have hlt := h.used_lt t v cb (.inl ht) id (h.listed v' id cb' hmem)
    have hne : ¬ (v' = v ∧ id = s.funId) := by omega
    simpa only [if_neg hne] using hfound v' id cb' hmem
  · intro v' id cb' hcb
    by_cases hnew : v' = v ∧ id = s.funId
    · obtain ⟨rfl, rfl⟩ := hnew
      obtain rfl : cb = cb' := by simpa using hcb
      exact .inr ⟨rfl, t, by simp⟩
    · simp only [if_neg hnew] at hcb
      exact hall v' id cb' hcb

theorem Inv.registered_answer (h : s.Inv) {v cb : ℕ} (ht : s.phase t = .answering v cb) :
    Registered { s with
      phase := Function.update s.phase t .outside
      listed := Function.update s.listed v (s.listed v ++ [(s.funId, cb)])
      used := s.used ++ [s.funId] } := by
  have hfresh : s.funId ∉ s.used := fun hmem => lt_irrefl _ (h.used_lt t v cb (.inr ht) _ hmem)
  obtain ⟨hfound, hnodup, hall, hused⟩ := h.registered
  refine ⟨?_, ?_, ?_, ?_⟩
  · intro v' id cb' hmem
    by_cases hv : v' = v
    · subst hv
      simp only [Function.update_self, List.mem_append, List.mem_singleton] at hmem
      rcases hmem with hmem | hmem
      · exact hfound v' id cb' hmem
      · cases hmem
        exact h.answering t v' cb ht
    · simp only [Function.update_of_ne hv] at hmem
      exact hfound v' id cb' hmem
  · intro v'
    by_cases hv : v' = v
    · subst hv
      simp only [Function.update_self, List.map_append, List.map_singleton]
      refine List.nodup_append'.mpr ⟨hnodup v', List.nodup_singleton _, ?_⟩
      rw [List.disjoint_singleton]
      intro hmem
      obtain ⟨⟨id, cb'⟩, hmem, rfl⟩ := List.mem_map.mp hmem
      exact hfresh (h.listed v' _ cb' hmem)
    · simpa only [Function.update_of_ne hv] using hnodup v'
  · intro v' id cb' hcb
    left
    rcases hall v' id cb' hcb with hmem | ⟨hid, u, hu⟩
    · by_cases hv : v' = v
      · subst hv
        simp [hmem]
      · simpa [hv] using hmem
    · obtain rfl := h.counts t u (by simp [ht, AddPhase.counts]) (by simp [hu, AddPhase.counts])
      rw [ht] at hu
      cases hu
      simp [hid]
  · exact List.nodup_append'.mpr ⟨hused, List.nodup_singleton _, by simpa using hfresh⟩

/-- Listeners of one variable are removed. -/
theorem Registered.remove (h : s.Registered) {v : ℕ} (keep : ℕ → Prop) [DecidablePred keep] :
    Registered { s with
      cbs := fun v' id => if v' = v ∧ ¬ keep id then none else s.cbs v' id
      listed := Function.update s.listed v ((s.listed v).filter fun x => keep x.1) } := by
  obtain ⟨hfound, hnodup, hall, hused⟩ := h
  refine ⟨?_, ?_, ?_, hused⟩
  · intro v' id cb hmem
    by_cases hv : v' = v
    · subst hv
      simp only [Function.update_self, List.mem_filter, decide_eq_true_eq] at hmem
      simpa [hmem.2] using hfound v' id cb hmem.1
    · simp only [Function.update_of_ne hv] at hmem
      simpa [hv] using hfound v' id cb hmem
  · intro v'
    by_cases hv : v' = v
    · subst hv
      simp only [Function.update_self]
      exact (hnodup v').sublist (List.filter_sublist.map _)
    · simpa only [Function.update_of_ne hv] using hnodup v'
  · intro v' id cb hcb
    dsimp only at hcb
    split_ifs at hcb with hgone
    refine (hall v' id cb hcb).imp_left ?_
    intro hmem
    by_cases hv : v' = v
    · subst hv
      have hkeep : keep id := by
        by_contra hkeep
        exact hgone ⟨rfl, hkeep⟩
      simp [hmem, hkeep]
    · simpa [hv] using hmem

theorem Inv.locks_update (h : s.Inv) {phase : AddPhase}
    (hlocks : ∀ v, phase.locks = some v → (s.phase t).locks = some v ∨ s.Free v) (a b : Fin m)
    (v : ℕ) (ha : (Function.update s.phase t phase a).locks = some v)
    (hb : (Function.update s.phase t phase b).locks = some v) : a = b := by
  -- whoever holds the lock beside `t` held it before, and `t` did or found it free
  have hother : ∀ u ≠ t, (s.phase u).locks = some v → phase.locks ≠ some v := by
    intro u hu hv hp
    rcases hlocks v hp with ht | hfree
    · exact hu (h.locks u t v hv ht)
    · exact hfree u hv
  by_cases hat : a = t <;> by_cases hbt : b = t
  · rw [hat, hbt]
  · rw [hat, Function.update_self] at ha
    rw [Function.update_of_ne hbt] at hb
    exact absurd ha (hother b hbt hb)
  · rw [hbt, Function.update_self] at hb
    rw [Function.update_of_ne hat] at ha
    exact absurd hb (hother a hat ha)
  · rw [Function.update_of_ne hat] at ha
    rw [Function.update_of_ne hbt] at hb
    exact h.locks a b v ha hb

/-- A thread that nobody counts beside. -/
theorem only_update (hothers : ∀ u ≠ t, (s.phase u).counts = false) {phase p : AddPhase}
    {u : Fin m} (hu : Function.update s.phase t phase u = p) (hp : p.counts = true) :
    u = t ∧ phase = p := by
  by_cases he : u = t
  · rw [he, Function.update_self] at hu
    exact ⟨he, hu⟩
  · rw [Function.update_of_ne he] at hu
    rw [← hu, hothers u he] at hp
    cases hp

theorem Inv.others (h : s.Inv) (ht : (s.phase t).counts = true) (u : Fin m) (hu : u ≠ t) :
    (s.phase u).counts = false := by
  by_contra hc
  exact hu (h.counts u t (by simpa using hc) ht)

/-- A thread moves outside of the part that counts, or into it when nobody else is there. -/
theorem Inv.move (h : s.Inv) {phase : AddPhase} (ht : (s.phase t).counts = false)
    (hlocks : ∀ v, phase.locks = some v → (s.phase t).locks = some v ∨ s.Free v)
    (hphase : phase.counts = true → (∀ u ≠ t, (s.phase u).counts = false) ∧
      s.funId + 1 < 2 ^ 64 ∧ ∃ v cb, phase = .storing v cb s.funId) :
    Inv { s with phase := Function.update s.phase t phase } := by
  have hold : ∀ u p, Function.update s.phase t phase u = p → p.counts = true →
      (∀ v cb, p ≠ .storing v cb s.funId) → s.phase u = p := by
    intro u p hu hp hne
    by_cases he : u = t
    · rw [he, Function.update_self] at hu
      obtain ⟨-, -, v, cb, hstoring⟩ := hphase (hu ▸ hp)
      exact absurd (hu.symm.trans hstoring) (hne v cb)
    · rwa [Function.update_of_ne he] at hu
  have hnot : ∀ v cb, s.phase t ≠ .answering v cb := by
    intro v cb hp
    simp [hp, AddPhase.counts] at ht
  refine
    { locks := h.locks_update hlocks, counts := ?_, storing := ?_, keys := h.keys,
      inserting := ?_, answering := ?_, used_le := h.used_le, used_lt := ?_, listed := h.listed,
      registered := h.registered.move hnot phase s.funId (.inl rfl) }
  · intro a b ha hb
    by_cases hp : phase.counts = true
    · obtain ⟨hothers, -⟩ := hphase hp
      exact (only_update hothers rfl ha).1.trans (only_update hothers rfl hb).1.symm
    · have hbefore : ∀ u, (Function.update s.phase t phase u).counts = true →
          (s.phase u).counts = true := by
        intro u hu
        by_cases he : u = t
        · rw [he, Function.update_self] at hu
          exact absurd hu hp
        · rwa [Function.update_of_ne he] at hu
      exact h.counts a b (hbefore a ha) (hbefore b hb)
  · intro u v cb n hu
    by_cases he : n = s.funId
    · refine ⟨he, ?_⟩
      by_cases hut : u = t
      · replace hu : Function.update s.phase t phase u = .storing v cb n := hu
        rw [hut, Function.update_self] at hu
        rw [he]
        exact (hphase (by rw [hu]; rfl)).2.1
      · replace hu : Function.update s.phase t phase u = .storing v cb n := hu
        rw [Function.update_of_ne hut] at hu
        exact (h.storing u v cb n hu).2
    · exact h.storing u v cb n (hold u _ hu rfl fun v' cb' heq => he (by simp_all))
  · exact fun u v cb hu => h.inserting u v cb (hold u _ hu rfl (by simp))
  · exact fun u v cb hu => h.answering u v cb (hold u _ hu rfl (by simp))
  · intro u v cb hu
    refine h.used_lt u v cb ?_
    exact hu.imp (fun hu => hold u _ hu rfl (by simp)) fun hu => hold u _ hu rfl (by simp)

theorem Inv.enter (h : s.Inv) (v cb : ℕ) (ht : s.phase t = .outside) :
    Inv { s with phase := Function.update s.phase t (.locking v cb) } :=
  h.move (by simp [ht, AddPhase.counts]) (by simp [AddPhase.locks]) (by simp [AddPhase.counts])

theorem Inv.lock (h : s.Inv) {v cb : ℕ} (ht : s.phase t = .locking v cb) (hfree : s.Free v) :
    Inv { s with phase := Function.update s.phase t (.loading v cb) } := by
  refine h.move (by simp [ht, AddPhase.counts]) ?_ (by simp [AddPhase.counts])
  intro v' hv
  obtain rfl : v = v' := Option.some.inj hv
  exact .inr hfree

theorem Inv.load (h : s.Inv) {v cb : ℕ} (ht : s.phase t = .loading v cb)
    (hothers : ∀ u ≠ t, (s.phase u).counts = false) (hroom : s.funId + 1 < 2 ^ 64) :
    Inv { s with phase := Function.update s.phase t (.storing v cb s.funId) } := by
  refine h.move (by simp [ht, AddPhase.counts]) ?_ fun _ => ⟨hothers, hroom, v, cb, rfl⟩
  intro v' hv
  rw [ht]
  exact .inl hv

theorem Inv.store (h : s.Inv) {v cb n : ℕ} (ht : s.phase t = .storing v cb n) :
    Inv { s with funId := n + 1, phase := Function.update s.phase t (.inserting v cb) } := by
  have hcounts : (s.phase t).counts = true := by rw [ht]; rfl
  have hlocked : ∀ v', AddPhase.locks (.inserting v cb) = some v' →
      (s.phase t).locks = some v' := by
    rw [ht]
    exact fun _ hv => hv
  have hn := (h.storing t v cb n ht).1
  have hno := h.not_answering hcounts (by simp [ht])
  have hkeys : ∀ v' id cb', s.cbs v' id = some cb' → id < n + 1 := fun v' id cb' hc =>
    Nat.lt_succ_of_le (hn ▸ h.keys v' id cb' hc)
  have hused : ∀ id ∈ s.used, id < n + 1 := fun id hid => Nat.lt_succ_of_le (hn ▸ h.used_le id hid)
  have honly : ∀ u p, Function.update s.phase t (.inserting v cb) u = p → p.counts = true →
      u = t ∧ .inserting v cb = p := fun _ _ => only_update (h.others hcounts)
  exact {
    locks := h.locks_update fun v' hv => .inl (hlocked v' hv)
    counts := fun a b ha hb => (honly a _ rfl ha).1.trans (honly b _ rfl hb).1.symm
    storing := by
      intro u v' cb' n' hu
      cases (honly u _ hu rfl).2
    keys := fun v' id cb' hc => Nat.le_of_lt (hkeys v' id cb' hc)
    inserting := fun _ _ _ _ => hkeys
    answering := by
      intro u v' cb' hu
      cases (honly u _ hu rfl).2
    used_le := fun id hid => Nat.le_of_lt (hused id hid)
    used_lt := fun _ _ _ _ => hused
    listed := h.listed
    registered := h.registered.move (by simp [ht]) (.inserting v cb) (n + 1) (.inr hno) }

theorem Inv.insert (h : s.Inv) {v cb : ℕ} (ht : s.phase t = .inserting v cb) :
    Inv { s with
      cbs := fun v' id => if v' = v ∧ id = s.funId then some cb else s.cbs v' id
      phase := Function.update s.phase t (.answering v cb) } := by
  have hcounts : (s.phase t).counts = true := by rw [ht]; rfl
  have hlocked : ∀ v', AddPhase.locks (.answering v cb) = some v' →
      (s.phase t).locks = some v' := by
    rw [ht]
    exact fun _ hv => hv
  have honly : ∀ u p, Function.update s.phase t (.answering v cb) u = p → p.counts = true →
      u = t ∧ .answering v cb = p := fun _ _ => only_update (h.others hcounts)
  exact {
    locks := h.locks_update fun v' hv => .inl (hlocked v' hv)
    counts := fun a b ha hb => (honly a _ rfl ha).1.trans (honly b _ rfl hb).1.symm
    storing := by
      intro u v' cb' n' hu
      cases (honly u _ hu rfl).2
    keys := by
      intro v' id cb' hc
      dsimp only at hc
      split_ifs at hc with hnew
      · exact hnew.2.le
      · exact h.keys v' id cb' hc
    inserting := by
      intro u v' cb' hu
      cases (honly u _ hu rfl).2
    answering := by
      intro u v' cb' hu
      obtain ⟨rfl, rfl⟩ := AddPhase.answering.inj (honly u _ hu rfl).2
      exact if_pos ⟨rfl, rfl⟩
    used_le := h.used_le
    used_lt := fun _ _ _ _ => h.used_lt t v cb (.inl ht)
    listed := h.listed
    registered := h.registered_insert ht }

theorem Inv.answer (h : s.Inv) {v cb : ℕ} (ht : s.phase t = .answering v cb) :
    Inv { s with
      phase := Function.update s.phase t .outside
      listed := Function.update s.listed v (s.listed v ++ [(s.funId, cb)])
      used := s.used ++ [s.funId] } := by
  have hcounts : (s.phase t).counts = true := by rw [ht]; rfl
  have hnobody : ∀ u, (Function.update s.phase t .outside u).counts = false := by
    intro u
    by_contra hc
    have houtside := (only_update (h.others hcounts) rfl (by simpa using hc)).2
    rw [← houtside] at hc
    exact hc rfl
  have hnot : ∀ u p, Function.update s.phase t .outside u = p → p.counts ≠ true := by
    rintro u p rfl
    simp [hnobody u]
  exact {
    locks := h.locks_update (by simp [AddPhase.locks])
    counts := fun a _ ha _ => absurd ha (by simp [hnobody a])
    storing := fun u _ _ _ hu => absurd rfl (hnot u _ hu)
    keys := h.keys
    inserting := fun u _ _ hu => absurd rfl (hnot u _ hu)
    answering := fun u _ _ hu => absurd rfl (hnot u _ hu)
    used_le := by
      intro id hid
      rcases List.mem_append.mp hid with hid | hid
      · exact h.used_le id hid
      · exact (List.mem_singleton.mp hid).le
    used_lt := fun u _ _ hu => hu.elim (fun hu => absurd rfl (hnot u _ hu)) fun hu =>
      absurd rfl (hnot u _ hu)
    listed := by
      intro v' id cb' hmem
      by_cases hv : v' = v
      · subst hv
        simp only [Function.update_self, List.mem_append, List.mem_singleton] at hmem
        rcases hmem with hmem | hmem
        · exact List.mem_append_left _ (h.listed v' id cb' hmem)
        · cases hmem
          exact List.mem_append_right _ (List.mem_singleton_self _)
      · simp only [Function.update_of_ne hv] at hmem
        exact List.mem_append_left _ (h.listed v' id cb' hmem)
    registered := h.registered_answer ht }

theorem Inv.remove (h : s.Inv) {v : ℕ} (hfree : s.Free v) (keep : ℕ → Prop)
    [DecidablePred keep] :
    Inv { s with
      cbs := fun v' id => if v' = v ∧ ¬ keep id then none else s.cbs v' id
      listed := Function.update s.listed v ((s.listed v).filter fun x => keep x.1) } := by
  have hcbs : ∀ v' id cb, (if v' = v ∧ ¬ keep id then none else s.cbs v' id) = some cb →
      s.cbs v' id = some cb := by
    intro v' id cb hc
    split_ifs at hc
    exact hc
  exact {
    locks := h.locks
    counts := h.counts
    storing := h.storing
    keys := fun v' id cb hc => h.keys v' id cb (hcbs v' id cb hc)
    inserting := fun u w cb hu v' id cb' hc => h.inserting u w cb hu v' id cb' (hcbs v' id cb' hc)
    answering := by
      -- the thread that answers holds the lock of its variable
      intro u w cb hu
      have hne : w ≠ v := by
        rintro rfl
        exact hfree u (by rw [hu]; rfl)
      simpa [hne] using h.answering u w cb hu
    used_le := h.used_le
    used_lt := h.used_lt
    listed := by
      intro v' id cb hmem
      by_cases hv : v' = v
      · subst hv
        simp only [Function.update_self, List.mem_filter] at hmem
        exact h.listed v' id cb hmem.1
      · simp only [Function.update_of_ne hv] at hmem
        exact h.listed v' id cb hmem
    registered := h.registered.remove keep }

theorem Inv.step (h : s.Inv) {op : ListenerOp m} (hg : s.Alone op) (hs : s.step op = some s') :
    s'.Inv := by
  cases op with
  | add t v cb =>
    simp only [Listeners.step] at hs
    split at hs <;> cases hs
    rename_i ht
    exact h.enter v cb ht
  | lock t =>
    simp only [Listeners.step] at hs
    split at hs
    · rename_i v cb ht
      split_ifs at hs with hfree
      cases hs
      exact h.lock ht hfree
    · cases hs
  | load t =>
    obtain ⟨hothers, hroom⟩ := hg
    simp only [Listeners.step] at hs
    split at hs <;> cases hs
    rename_i v cb ht
    exact h.load ht hothers hroom
  | store t =>
    simp only [Listeners.step] at hs
    split at hs
    · rename_i v cb n ht
      rw [Nat.mod_eq_of_lt (h.storing t v cb n ht).2] at hs
      cases hs
      exact h.store ht
    · cases hs
  | insert t =>
    simp only [Listeners.step] at hs
    split at hs <;> cases hs
    rename_i v cb ht
    exact h.insert ht
  | answer t =>
    simp only [Listeners.step] at hs
    split at hs <;> cases hs
    rename_i v cb ht
    exact h.answer ht
  | del v key =>
    simp only [Listeners.step] at hs
    split_ifs at hs with hfree
    cases hs
    simpa using h.remove hfree (· ≠ key)
  | clear v =>
    simp only [Listeners.step] at hs
    split_ifs at hs with hfree
    cases hs
    simpa using h.remove hfree fun _ => False

end Steps

/-- As long as no two calls count at once, every listener is found under the id that its call
returned until it is removed, nothing else is there, and no id is given twice. -/
theorem registered_of_alone {m : ℕ} {ops : List (ListenerOp m)} {s : Listeners m}
    (hg : Transition.Meets step Alone (new m) ops) (hr : Transition.run step (new m) ops = some s) :
    s.Registered := by
  have hinv : s.Inv :=
    Transition.run_invariant Inv (fun _ _ _ h hg hs => h.step hg hs) (new_inv m) hg hr
  exact hinv.registered

/-- Listeners of two variables, one after the other, and one of them removed. -/
def twoVariables (t u : Fin 2) : List (ListenerOp 2) :=
  [.add t 0 5, .add u 1 6, .lock t, .lock u, .load t, .store t, .insert t, .answer t, .load u,
    .store u, .insert u, .answer u, .del 0 1, .add t 1 7, .lock t, .load t, .store t]

theorem registered_of_alone_twoVariables :
    ∃ s, Transition.run step (new 2) (twoVariables 0 1) = some s ∧ s.Registered := by
  have hs : (Transition.run step (new 2) (twoVariables 0 1)).isSome := by decide
  obtain ⟨s, hr⟩ := Option.isSome_iff_exists.mp hs
  exact ⟨s, hr, registered_of_alone (by decide) hr⟩

/-- The call for variable 0 is told the id that the call for variable 1 has counted. -/
def atOnce (t u : Fin 2) : List (ListenerOp 2) :=
  [.add t 0 5, .lock t, .load t, .store t, .insert t, .add u 1 6, .lock u, .load u, .store u,
    .answer t]

theorem not_registered_atOnce :
    ∃ s, Transition.run step (new 2) (atOnce 0 1) = some s ∧ ¬ s.Registered := by
  have hs : (Transition.run step (new 2) (atOnce 0 1)).map (fun s => (s.listed 0, s.cbs 0 2)) =
      some ([(2, 5)], none) := by decide
  obtain ⟨s, hr, heq⟩ := Option.map_eq_some_iff.mp hs
  obtain ⟨hlisted, hcbs⟩ := Prod.mk.inj heq
  refine ⟨s, hr, ?_⟩
  intro h
  have hfound := h.found 0 2 5 (by simp [hlisted])
  rw [hcbs] at hfound
  cases hfound

end Listeners

end ServerFramework
