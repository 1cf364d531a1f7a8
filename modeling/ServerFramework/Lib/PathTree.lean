import Mathlib.Data.List.Induction
import Mathlib.Data.List.Infix
import Mathlib.Data.List.Nodup
import Mathlib.Tactic.SplitIfs

/-! # Trees of labelled paths

A finite tree is the list of its nodes, each given by the path to it and a label. Only nodes
with an inner label have nodes below them. Leaves can be erased, and the nodes at and below a path
are the node there and those at and below its entries.
-/

/-- Finite trees with named edges. -/
structure PathTree (ν κ : Type*) (inner : κ → Bool) where
  nodes : List (List ν × κ)
  nodup : (nodes.map Prod.fst).Nodup
  /-- What is above a node is an inner node. -/
  closed : ∀ p x k, (p ++ [x], k) ∈ nodes → ∃ k', (p, k') ∈ nodes ∧ inner k' = true

namespace PathTree

variable {ν κ : Type*} [DecidableEq ν] {inner : κ → Bool}

/-- The label of the node at a path. -/
def label (t : PathTree ν κ inner) (p : List ν) : Option κ := t.nodes.lookup p

/-- The names of the nodes directly below a path. -/
def entries (t : PathTree ν κ inner) (p : List ν) : List ν :=
  t.nodes.filterMap fun n => if n.1.dropLast = p then n.1.getLast? else none

variable {t : PathTree ν κ inner} {p q : List ν} {x : ν} {k : κ}

theorem mem_entries_iff : x ∈ t.entries p ↔ ∃ k, (p ++ [x], k) ∈ t.nodes := by
  rw [entries, List.mem_filterMap]
  constructor
  · rintro ⟨⟨q, k⟩, hn, hx⟩
    split_ifs at hx with hq
    refine ⟨k, ?_⟩
    rwa [← hq, List.dropLast_append_getLast? x hx]
  · rintro ⟨k, hn⟩
    exact ⟨_, hn, by simp⟩

theorem label_eq_some_iff : t.label p = some k ↔ (p, k) ∈ t.nodes := by
  rw [label, List.lookup_eq_some_iff]
  constructor
  · rintro ⟨l, r, hnodes, -⟩
    rw [hnodes]
    exact List.mem_append_right _ List.mem_cons_self
  · intro h
    obtain ⟨l, r, hnodes⟩ := List.append_of_mem h
    refine ⟨l, r, hnodes, ?_⟩
    have hnodup := t.nodup
    rw [hnodes, List.map_append, List.map_cons] at hnodup
    intro n hn
    have hne := (List.nodup_append.mp hnodup).2.2 n.1 (List.mem_map_of_mem hn) p List.mem_cons_self
    simpa using hne.symm

/-- Different entries of a path have different names. -/
theorem entries_nodup (t : PathTree ν κ inner) (p : List ν) : (t.entries p).Nodup := by
  have hentries : t.entries p = (t.nodes.map Prod.fst).filterMap fun r =>
      if r.dropLast = p then r.getLast? else none := by
    rw [entries, List.filterMap_map]
    rfl
  rw [hentries]
  refine t.nodup.filterMap fun r r' x hx hx' => ?_
  rw [Option.mem_def] at hx hx'
  split_ifs at hx hx' with hr hr'
  rw [← List.dropLast_append_getLast? x hx, hr, ← hr', List.dropLast_append_getLast? x hx']

theorem label_eq_none_iff : t.label p = none ↔ ∀ k, (p, k) ∉ t.nodes := by
  rw [Option.eq_none_iff_forall_ne_some]
  exact forall_congr' fun k => not_congr label_eq_some_iff

/-- A node that is not an inner one has no entries. -/
theorem entries_eq_nil (h : (p, k) ∈ t.nodes) (hk : inner k = false) : t.entries p = [] := by
  rw [List.eq_nil_iff_forall_not_mem]
  intro x hx
  obtain ⟨k', hk'⟩ := mem_entries_iff.mp hx
  obtain ⟨k'', hp, hinner⟩ := t.closed p x k' hk'
  have heq : some k = some k'' :=
    (label_eq_some_iff.mpr h).symm.trans (label_eq_some_iff.mpr hp)
  rw [← Option.some.inj heq, hk] at hinner
  cases hinner

omit [DecidableEq ν] in
/-- What is above a node is a node. -/
theorem exists_above (hq : (q, k) ∈ t.nodes) (hp : p <+: q) : ∃ k', (p, k') ∈ t.nodes := by
  induction q using List.reverseRecOn generalizing k with
  | nil =>
    obtain rfl := List.prefix_nil.mp hp
    exact ⟨k, hq⟩
  | append_singleton q x ih =>
    rcases List.prefix_concat_iff.mp hp with rfl | hp
    · exact ⟨k, hq⟩
    · obtain ⟨k', hk', -⟩ := t.closed q x k hq
      exact ih hk' hp

/-- What is at and below a path. -/
theorem prefix_iff (hq : (q, k) ∈ t.nodes) :
    p <+: q ↔ q = p ∨ ∃ x ∈ t.entries p, p ++ [x] <+: q := by
  constructor
  · intro hp
    obtain ⟨r, rfl⟩ := hp
    cases r with
    | nil => exact .inl (List.append_nil p)
    | cons x r =>
      have hx : p ++ [x] <+: p ++ x :: r := ⟨r, by simp⟩
      exact .inr ⟨x, mem_entries_iff.mpr (exists_above hq hx), hx⟩
  · rintro (rfl | ⟨x, -, hx⟩)
    · exact List.prefix_rfl
    · exact (List.prefix_append p [x]).trans hx

omit [DecidableEq ν] in
theorem closed_of_dropLast {nodes : List (List ν × κ)} (h : ∀ n ∈ nodes, n.1 = [] ∨
    ∃ n' ∈ nodes, n'.1 = n.1.dropLast ∧ inner n'.2 = true) (p : List ν) (x : ν) (k : κ)
    (hp : (p ++ [x], k) ∈ nodes) : ∃ k', (p, k') ∈ nodes ∧ inner k' = true := by
  rcases h _ hp with hnil | ⟨⟨q, k'⟩, hn, hq, hinner⟩
  · simp at hnil
  · rw [List.dropLast_concat] at hq
    exact ⟨k', hq ▸ hn, hinner⟩

/-- Erase a node without entries. -/
def erase (t : PathTree ν κ inner) (p : List ν) : PathTree ν κ inner :=
  if h : t.entries p = [] then
    { nodes := t.nodes.filter (·.1 ≠ p)
      nodup := t.nodup.sublist (List.filter_sublist.map _)
      closed := by
        intro q x k hn
        have hmem := List.mem_of_mem_filter hn
        obtain ⟨k', hk', hinner⟩ := t.closed q x k hmem
        refine ⟨k', List.mem_filter.mpr ⟨hk', ?_⟩, hinner⟩
        have hne : q ≠ p := by
          intro heq
          subst heq
          have hx : x ∈ t.entries q := mem_entries_iff.mpr ⟨k, hmem⟩
          rw [h] at hx
          exact List.not_mem_nil hx
        simpa using hne }
  else t

theorem erase_nodes (h : t.entries p = []) : (t.erase p).nodes = t.nodes.filter (·.1 ≠ p) := by
  rw [erase, dif_pos h]

theorem mem_of_mem_erase {n : List ν × κ} (h : n ∈ (t.erase p).nodes) : n ∈ t.nodes := by
  rw [erase] at h
  split_ifs at h
  · exact List.mem_of_mem_filter h
  · exact h

theorem mem_erase {n : List ν × κ} (h : n ∈ t.nodes) (hne : n.1 ≠ p) : n ∈ (t.erase p).nodes := by
  rw [erase]
  split_ifs
  · exact List.mem_filter.mpr ⟨h, by simpa using hne⟩
  · exact h

/-- What is at and below the first path can be moved to the second one: it is not below the first,
nothing is there, and an inner node is above. -/
def Movable (t : PathTree ν κ inner) (p q : List ν) : Prop :=
  ¬ p <+: q ∧ (t.label q).isNone = true ∧ q ≠ [] ∧ (t.label q.dropLast).any inner = true

instance (t : PathTree ν κ inner) (p q : List ν) : Decidable (t.Movable p q) :=
  inferInstanceAs (Decidable (_ ∧ _ ∧ _ ∧ _))

/-- Where a path goes when what is at and below `p` is moved to `q`. -/
def relocate (p q r : List ν) : List ν := if p <+: r then q ++ r.drop p.length else r

theorem relocate_append (s : List ν) : relocate p q (p ++ s) = q ++ s := by
  rw [relocate, if_pos (List.prefix_append p s), List.drop_left]

theorem relocate_of_not {r : List ν} (h : ¬ p <+: r) : relocate p q r = r := if_neg h

/-- There is nothing below a path without a node. -/
theorem not_prefix_of_label (h : t.label q = none) (hp : (p, k) ∈ t.nodes) : ¬ q <+: p := by
  intro hbelow
  obtain ⟨k', hk'⟩ := exists_above hp hbelow
  exact label_eq_none_iff.mp h k' hk'

/-- Different nodes go to different places. -/
theorem relocate_inj (h : t.label q = none) {r r' : List ν} {k k' : κ} (hr : (r, k) ∈ t.nodes)
    (hr' : (r', k') ∈ t.nodes) (heq : relocate p q r = relocate p q r') : r = r' := by
  have hnot := not_prefix_of_label h hr
  have hnot' := not_prefix_of_label h hr'
  by_cases hp : p <+: r <;> by_cases hp' : p <+: r'
  · obtain ⟨s, rfl⟩ := hp
    obtain ⟨s', rfl⟩ := hp'
    rw [relocate_append, relocate_append] at heq
    rw [List.append_cancel_left heq]
  · obtain ⟨s, rfl⟩ := hp
    rw [relocate_append, relocate_of_not hp'] at heq
    exact absurd (heq ▸ List.prefix_append q s) hnot'
  · obtain ⟨s', rfl⟩ := hp'
    rw [relocate_append, relocate_of_not hp] at heq
    exact absurd (heq ▸ List.prefix_append q s') hnot
  · rwa [relocate_of_not hp, relocate_of_not hp'] at heq

theorem relocate_nodup (h : t.label q = none) :
    ((t.nodes.map fun n => (relocate p q n.1, n.2)).map Prod.fst).Nodup := by
  have hmap : (t.nodes.map fun n => (relocate p q n.1, n.2)).map Prod.fst =
      (t.nodes.map Prod.fst).map (relocate p q) := by
    simp only [List.map_map, Function.comp_def]
  rw [hmap]
  apply t.nodup.map_on
  intro r hr r' hr' heq
  obtain ⟨⟨r, k⟩, hn, rfl⟩ := List.mem_map.mp hr
  obtain ⟨⟨r', k'⟩, hn', rfl⟩ := List.mem_map.mp hr'
  exact relocate_inj h hn hn' heq

/-- What is above a node that has been moved has been moved, or is the new place's. -/
theorem relocate_closed (h : t.Movable p q) (r : List ν) (x : ν) (k : κ)
    (hr : (r ++ [x], k) ∈ t.nodes.map fun n => (relocate p q n.1, n.2)) :
    ∃ k', (r, k') ∈ (t.nodes.map fun n => (relocate p q n.1, n.2)) ∧ inner k' = true := by
  obtain ⟨hnot, -, hne, habove⟩ := h
  obtain ⟨n, hn, heq⟩ := List.mem_map.mp hr
  obtain ⟨hpath, rfl⟩ := Prod.mk.inj heq
  have hstay : ∀ r' k', (r', k') ∈ t.nodes → inner k' = true → ¬ p <+: r' →
      ∃ k'', (r', k'') ∈ (t.nodes.map fun n => (relocate p q n.1, n.2)) ∧ inner k'' = true := by
    intro r' k' hr' hinner hp
    exact ⟨k', List.mem_map.mpr ⟨_, hr', by simp [relocate_of_not hp]⟩, hinner⟩
  by_cases hp : p <+: n.1
  · obtain ⟨s, hs⟩ := hp
    rw [← hs, relocate_append] at hpath
    rcases List.eq_nil_or_concat s with rfl | ⟨s', y, rfl⟩
    · -- the moved node itself hangs below the inner node above `q`
      have hdrop : r = q.dropLast := by simpa using congrArg List.dropLast hpath.symm
      obtain ⟨k', hk', hinner⟩ : ∃ k', t.label q.dropLast = some k' ∧ inner k' = true := by
        simpa [Option.any_eq_true] using habove
      rw [hdrop]
      exact hstay _ k' (label_eq_some_iff.mp hk') hinner fun hp =>
        hnot (hp.trans (List.dropLast_prefix q))
    · rw [List.concat_eq_append, ← List.append_assoc] at hpath hs
      obtain ⟨rfl, -⟩ := List.append_inj' hpath rfl
      obtain ⟨k', hk', hinner⟩ := t.closed (p ++ s') y n.2 (hs ▸ hn)
      exact ⟨k', List.mem_map.mpr ⟨_, hk', by simp [relocate_append]⟩, hinner⟩
  · rw [relocate_of_not hp] at hpath
    have hn' : (r ++ [x], n.2) ∈ t.nodes := hpath ▸ hn
    obtain ⟨k', hk', hinner⟩ := t.closed r x n.2 hn'
    refine hstay r k' hk' hinner fun hr' => hp ?_
    rw [hpath]
    exact hr'.trans (List.prefix_append r [x])

/-- Move what is at and below the first path to the second one. -/
def move (t : PathTree ν κ inner) (p q : List ν) (h : t.Movable p q) : PathTree ν κ inner where
  nodes := t.nodes.map fun n => (relocate p q n.1, n.2)
  nodup := relocate_nodup (Option.isNone_iff_eq_none.mp h.2.1)
  closed := relocate_closed h

/-- A node can be added at the path: nothing is there, and an inner node is above. -/
def Vacant (t : PathTree ν κ inner) (p : List ν) : Prop :=
  (t.label p).isNone = true ∧ p ≠ [] ∧ (t.label p.dropLast).any inner = true

instance (t : PathTree ν κ inner) (p : List ν) : Decidable (t.Vacant p) :=
  inferInstanceAs (Decidable (_ ∧ _ ∧ _))

theorem vacant_concat_iff : t.Vacant (p ++ [x]) ↔
    t.label (p ++ [x]) = none ∧ ∃ k, (p, k) ∈ t.nodes ∧ inner k = true := by
  simp [Vacant, Option.any_eq_true, label_eq_some_iff]

/-- Add a node. -/
def insert (t : PathTree ν κ inner) (p : List ν) (k : κ) (h : t.Vacant p) :
    PathTree ν κ inner where
  nodes := t.nodes ++ [(p, k)]
  nodup := by
    rw [List.map_append, List.map_singleton]
    apply t.nodup.append (List.nodup_singleton p)
    rintro q hq hp
    obtain rfl := List.mem_singleton.mp hp
    obtain ⟨⟨q, k'⟩, hn, rfl⟩ := List.mem_map.mp hq
    exact label_eq_none_iff.mp (Option.isNone_iff_eq_none.mp h.1) k' hn
  closed := by
    intro q x k' hn
    rcases List.mem_append.mp hn with hn | hn
    · obtain ⟨k'', hk'', hinner⟩ := t.closed q x k' hn
      exact ⟨k'', List.mem_append_left _ hk'', hinner⟩
    · obtain ⟨rfl, rfl⟩ := Prod.mk.inj (List.mem_singleton.mp hn)
      obtain ⟨-, k'', hk'', hinner⟩ := vacant_concat_iff.mp h
      exact ⟨k'', List.mem_append_left _ hk'', hinner⟩

theorem mem_insert_iff {k' : κ} {h : t.Vacant p} :
    (q, k') ∈ (t.insert p k h).nodes ↔ (q, k') ∈ t.nodes ∨ q = p ∧ k' = k := by
  simp [insert]

end PathTree
