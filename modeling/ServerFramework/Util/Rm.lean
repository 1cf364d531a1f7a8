import Mathlib.Data.Nat.Notation
import ServerFramework.Lib.PathTree

/-! # Removing a directory

`Rm` takes a node for a directory if one bit of its mode is set. Sockets and block devices have that
bit too, and are neither opened nor unlinked.
-/

namespace ServerFramework

/-- The kinds of nodes. A symbolic link has a target. -/
inductive NodeKind where
  | directory
  | regular
  | symlink (target : List String)
  | socket
  | fifo
  | charDevice
  | blockDevice
  deriving DecidableEq, Repr

namespace NodeKind

def isDirectory : NodeKind → Bool
  | directory => true
  | _ => false

/-- The type in `st_mode`. -/
def mode : NodeKind → UInt32
  | directory => 0o040000
  | regular => 0o100000
  | symlink _ => 0o120000
  | socket => 0o140000
  | fifo => 0o010000
  | charDevice => 0o020000
  | blockDevice => 0o060000

/-- `S_IFDIR`. -/
def ifdir : UInt32 := 0o040000

/-- The node has the bit of directories and is none. -/
def Misread (k : NodeKind) : Prop := k.isDirectory = false ∧ k.mode &&& ifdir ≠ 0

theorem misread_iff (k : NodeKind) : k.Misread ↔ k = .socket ∨ k = .blockDevice := by
  cases k <;> simp [Misread, isDirectory, mode, ifdir] <;> decide

end NodeKind

/-- The path to a node, by names. -/
abbrev Path := List String

/-- A file system. No node has the name of a dot entry. -/
structure FileSystem where
  tree : PathTree String NodeKind NodeKind.isDirectory
  names : ∀ p k, (p, k) ∈ tree.nodes → ∀ n ∈ p, n ≠ "." ∧ n ≠ ".."

namespace FileSystem

def lstat (fs : FileSystem) (path : Path) : Option UInt32 := (fs.tree.label path).map NodeKind.mode

/-- The file system without a node that has no entries. -/
def erase (fs : FileSystem) (path : Path) : FileSystem where
  tree := fs.tree.erase path
  names := fun p k h => fs.names p k (PathTree.mem_of_mem_erase h)

/-- `unlink`, and whether it succeeds. -/
def unlink (fs : FileSystem) (path : Path) : Bool × FileSystem :=
  match fs.tree.label path with
  | some k => if k.isDirectory then (false, fs) else (true, fs.erase path)
  | none => (false, fs)

/-- `rmdir`, and whether it succeeds. -/
def rmdir (fs : FileSystem) (path : Path) : Bool × FileSystem :=
  match fs.tree.label path with
  | some k =>
    if k.isDirectory ∧ fs.tree.entries path = [] then (true, fs.erase path) else (false, fs)
  | none => (false, fs)

/-- `opendir`, with all that `readdir` is going to return. -/
def opendir (fs : FileSystem) (path : Path) : Option (List String) :=
  match fs.tree.label path with
  | some k => if k.isDirectory then some ("." :: ".." :: fs.tree.entries path) else none
  | none => none

/-- `FSUtil::Unlink` where the file need not exist. -/
def Unlink (fs : FileSystem) (path : Path) : Bool × FileSystem :=
  match fs.lstat path with
  | none => (true, fs)
  | some _ => fs.unlink path

/-- The loop of `Rm` over the entries. -/
def rmEntries (rm : FileSystem → Path → Option (Bool × FileSystem)) (path : Path) :
    List String → Bool × FileSystem → Option (Bool × FileSystem)
  | [], r => some r
  | d :: ds, r =>
    if d = "." ∨ d = ".." then rmEntries rm path ds r
    else (rm r.2 (path ++ [d])).bind (rmEntries rm path ds)

/-- `FSUtil::Rm`, where `depth` bounds the recursion. -/
def rm : ℕ → FileSystem → Path → Option (Bool × FileSystem)
  | 0, _, _ => none
  | depth + 1, fs, path =>
    match fs.lstat path with
    | none => some (true, fs)
    | some st =>
      if st &&& NodeKind.ifdir = 0 then some (fs.Unlink path)
      else
        match fs.opendir path with
        | none => some (false, fs)
        | some ds =>
          (rmEntries (rm depth) path ds (true, fs)).map fun r =>
            (r.1 && (r.2.rmdir path).1, (r.2.rmdir path).2)

/-- `Rm` returns true, and removes what is at and below the path. -/
def RmRight (fs : FileSystem) (path : Path) : Prop :=
  ∃ depth r, rm depth fs path = some (true, r) ∧
    r.tree.nodes = fs.tree.nodes.filter fun n => ¬ path <+: n.1

section Kept

variable {fs : FileSystem} {path q : Path} {k : NodeKind}

theorem erase_keeps (hq : (q, k) ∈ fs.tree.nodes) (hne : fs.tree.label path ≠ some k) :
    (q, k) ∈ (fs.erase path).tree.nodes := by
  apply PathTree.mem_erase hq
  rintro rfl
  exact hne (PathTree.label_eq_some_iff.mpr hq)

theorem rmEntries_keeps {rm : FileSystem → Path → Option (Bool × FileSystem)}
    (hrm : ∀ fs path r, rm fs path = some r → (q, k) ∈ fs.tree.nodes → (q, k) ∈ r.2.tree.nodes)
    {ds : List String} {r r' : Bool × FileSystem} (h : rmEntries rm path ds r = some r')
    (hq : (q, k) ∈ r.2.tree.nodes) : (q, k) ∈ r'.2.tree.nodes := by
  induction ds generalizing r with
  | nil =>
    cases h
    exact hq
  | cons d ds ih =>
    rw [rmEntries] at h
    split_ifs at h
    · exact ih h hq
    · obtain ⟨r'', hr'', h⟩ := Option.bind_eq_some_iff.mp h
      exact ih h (hrm _ _ _ hr'' hq)

variable (hk : k.Misread)

include hk

/-- What is unlinked does not have the bit of directories. -/
theorem unlink_keeps (hq : (q, k) ∈ fs.tree.nodes) {st : UInt32} (hst : fs.lstat path = some st)
    (hbit : st &&& NodeKind.ifdir = 0) : (q, k) ∈ (fs.Unlink path).2.tree.nodes := by
  obtain ⟨k', hk', rfl⟩ := Option.map_eq_some_iff.mp hst
  rw [Unlink, hst]
  simp only [unlink, hk']
  split_ifs
  · exact hq
  · refine erase_keeps hq ?_
    rw [hk']
    rintro ⟨⟩
    exact hk.2 hbit

theorem rmdir_keeps (hq : (q, k) ∈ fs.tree.nodes) : (q, k) ∈ (fs.rmdir path).2.tree.nodes := by
  rw [rmdir]
  cases hlabel : fs.tree.label path with
  | none => exact hq
  | some k' =>
    simp only
    split_ifs with hdir
    · refine erase_keeps hq ?_
      rw [hlabel]
      rintro ⟨⟩
      exact absurd (hk.1.symm.trans hdir.1) (by decide)
    · exact hq

theorem rm_keeps (depth : ℕ) {r : Bool × FileSystem} (h : rm depth fs path = some r)
    (hq : (q, k) ∈ fs.tree.nodes) : (q, k) ∈ r.2.tree.nodes := by
  induction depth generalizing fs path r with
  | zero => cases h
  | succ depth ih =>
    rw [rm] at h
    cases hst : fs.lstat path with
    | none =>
      rw [hst] at h
      cases h
      exact hq
    | some st =>
      rw [hst] at h
      by_cases hbit : st &&& NodeKind.ifdir = 0
      · obtain rfl := Option.some.inj ((if_pos hbit).symm.trans h)
        exact unlink_keeps hk hq hst hbit
      · replace h := (if_neg hbit).symm.trans h
        cases hds : fs.opendir path with
        | none =>
          rw [hds] at h
          cases h
          exact hq
        | some ds =>
          rw [hds] at h
          obtain ⟨r', hr', rfl⟩ := Option.map_eq_some_iff.mp h
          exact rmdir_keeps hk (rmEntries_keeps (fun _ _ _ => ih) hr' hq)

end Kept

section Removed

/-- The nodes without those at and below a path. -/
def without (fs : FileSystem) (path : Path) : List (Path × NodeKind) :=
  fs.tree.nodes.filter fun n => ¬ path <+: n.1

theorem not_prefix_of_dot (fs : FileSystem) {path : Path} {d : String} (hd : d = "." ∨ d = "..")
    {n : Path × NodeKind} (hn : n ∈ fs.tree.nodes) : ¬ path ++ [d] <+: n.1 := by
  intro hbelow
  obtain ⟨hdot, hdots⟩ := fs.names n.1 n.2 hn d (hbelow.subset (by simp))
  exact hd.elim hdot hdots

/-- The loop removes the entries one by one. -/
theorem rmEntries_removes {rm : FileSystem → Path → Option (Bool × FileSystem)} {path : Path}
    {fs₀ : FileSystem} {ds : List String}
    (hrm : ∀ d ∈ ds, ¬ (d = "." ∨ d = "..") → ∀ fs, fs.tree.nodes ⊆ fs₀.tree.nodes →
      ∃ r, rm fs (path ++ [d]) = some (true, r) ∧ r.tree.nodes = fs.without (path ++ [d]))
    {fs : FileSystem} (hfs : fs.tree.nodes ⊆ fs₀.tree.nodes) :
    ∃ r, rmEntries rm path ds (true, fs) = some (true, r) ∧
      r.tree.nodes = fs.tree.nodes.filter fun n => ∀ d ∈ ds, ¬ path ++ [d] <+: n.1 := by
  induction ds generalizing fs with
  | nil => exact ⟨fs, rfl, by simp⟩
  | cons d ds ih =>
    have hrest := fun d' hd' => hrm d' (List.mem_cons_of_mem d hd')
    rw [rmEntries]
    split_ifs with hd
    · obtain ⟨r, hr, hnodes⟩ := ih hrest hfs
      refine ⟨r, hr, hnodes.trans (List.filter_congr fun n hn => ?_)⟩
      simp [fs.not_prefix_of_dot hd hn]
    · obtain ⟨r, hr, hnodes⟩ := hrm d List.mem_cons_self hd fs hfs
      have hsub : r.tree.nodes ⊆ fs₀.tree.nodes := by
        rw [hnodes]
        exact fun n hn => hfs (List.mem_of_mem_filter hn)
      obtain ⟨r', hr', hnodes'⟩ := ih hrest hsub
      refine ⟨r', ?_, ?_⟩
      · rw [hr]
        exact hr'
      · rw [hnodes', hnodes, without, List.filter_filter]
        refine List.filter_congr fun n _ => ?_
        simp [Bool.and_comm]

variable {fs : FileSystem} {path : Path} {k : NodeKind}

theorem without_eq_nodes (h : fs.tree.label path = none) : fs.tree.nodes = fs.without path := by
  symm
  rw [without, List.filter_eq_self]
  intro n hn
  have hnone : ¬ path <+: n.1 := by
    intro hbelow
    obtain ⟨k, hk⟩ := PathTree.exists_above (k := n.2) hn hbelow
    exact PathTree.label_eq_none_iff.mp h k hk
  simpa using hnone

/-- A node without entries is all there is at and below its path. -/
theorem erase_nodes_eq (h : fs.tree.entries path = []) :
    (fs.erase path).tree.nodes = fs.without path := by
  rw [erase, PathTree.erase_nodes h, without]
  refine List.filter_congr fun n hn => ?_
  have hpath := PathTree.prefix_iff (p := path) (k := n.2) hn
  rw [h] at hpath
  simp [hpath]

/-- A directory is removed when its entries are. -/
theorem rmdir_removes (hlabel : fs.tree.label path = some k) (hdir : k.isDirectory = true)
    {r : FileSystem} (hr : r.tree.nodes = fs.tree.nodes.filter fun n =>
      ∀ d ∈ "." :: ".." :: fs.tree.entries path, ¬ path ++ [d] <+: n.1) :
    r.rmdir path = (true, r.erase path) ∧ (r.erase path).tree.nodes = fs.without path := by
  have hroot : r.tree.label path = some k := by
    rw [PathTree.label_eq_some_iff, hr, List.mem_filter]
    refine ⟨PathTree.label_eq_some_iff.mp hlabel, ?_⟩
    have hlong : ∀ d, ¬ path ++ [d] <+: path := by
      intro d h
      have hlen := h.length_le
      rw [List.length_append, List.length_singleton] at hlen
      omega
    simp [hlong]
  have hentries : r.tree.entries path = [] := by
    rw [List.eq_nil_iff_forall_not_mem]
    intro x hx
    obtain ⟨k', hk'⟩ := PathTree.mem_entries_iff.mp hx
    rw [hr, List.mem_filter] at hk'
    have hx' : x ∈ fs.tree.entries path := PathTree.mem_entries_iff.mpr ⟨k', hk'.1⟩
    simpa using of_decide_eq_true hk'.2 x (by simp [hx'])
  constructor
  · simp only [rmdir, hroot, hdir, hentries, and_self, if_true]
  · rw [erase_nodes_eq hentries, without, hr, without, List.filter_filter]
    refine List.filter_congr fun n _ => ?_
    by_cases hpath : path <+: n.1
    · simp [hpath]
    · have hbelow : ∀ d, ¬ path ++ [d] <+: n.1 :=
        fun d h => hpath ((List.prefix_append path [d]).trans h)
      simp [hpath, hbelow]

/-- One level of the recursion. -/
theorem rm_removes_of_entries {depth : ℕ} {fs : FileSystem} {path : Path}
    (hread : ∀ q k, (q, k) ∈ fs.tree.nodes → path <+: q → ¬ k.Misread)
    (hrm : ∀ d ∈ fs.tree.entries path, ∀ fs', fs'.tree.nodes ⊆ fs.tree.nodes →
      ∃ r, rm depth fs' (path ++ [d]) = some (true, r) ∧
        r.tree.nodes = fs'.without (path ++ [d])) :
    ∃ r, rm (depth + 1) fs path = some (true, r) ∧ r.tree.nodes = fs.without path := by
  cases hlabel : fs.tree.label path with
  | none =>
    refine ⟨fs, ?_, without_eq_nodes hlabel⟩
    simp [rm, lstat, hlabel]
  | some k =>
    have hmem := PathTree.label_eq_some_iff.mp hlabel
    by_cases hdir : k.isDirectory = true
    · have hbit : k.mode &&& NodeKind.ifdir ≠ 0 := by
        cases k <;> first | decide | cases hdir
      have hopen : fs.opendir path = some ("." :: ".." :: fs.tree.entries path) := by
        simp only [opendir, hlabel, hdir, if_true]
      have hentries : ∀ d ∈ "." :: ".." :: fs.tree.entries path, ¬ (d = "." ∨ d = "..") →
          d ∈ fs.tree.entries path := by
        intro d hd hdot
        rw [not_or] at hdot
        simpa [hdot] using hd
      obtain ⟨r, hr, hnodes⟩ := rmEntries_removes
        (fun d hd hdot => hrm d (hentries d hd hdot)) (List.Subset.refl _)
      obtain ⟨hrmdir, herase⟩ := rmdir_removes hlabel hdir hnodes
      refine ⟨r.erase path, ?_, herase⟩
      simp only [rm, lstat, hlabel, Option.map_some, hbit, if_false, hopen, hr, hrmdir,
        Bool.and_self]
    · have hbit : k.mode &&& NodeKind.ifdir = 0 := by
        by_contra hbit
        exact hread path k hmem List.prefix_rfl ⟨by simpa using hdir, hbit⟩
      refine ⟨fs.erase path, ?_, erase_nodes_eq ?_⟩
      · simp [rm, lstat, Unlink, unlink, hlabel, hdir, hbit]
      · exact PathTree.entries_eq_nil hmem (by simpa using hdir)

/-- With enough depth for the longest path, `Rm` removes all it can read right. -/
theorem rm_removes (depth : ℕ) (fs : FileSystem) (path : Path)
    (hdepth : ∀ q k, (q, k) ∈ fs.tree.nodes → path <+: q → q.length ≤ path.length + depth)
    (hread : ∀ q k, (q, k) ∈ fs.tree.nodes → path <+: q → ¬ k.Misread) :
    ∃ r, rm (depth + 1) fs path = some (true, r) ∧ r.tree.nodes = fs.without path := by
  induction depth generalizing fs path with
  | zero =>
    refine rm_removes_of_entries hread fun d hd => ?_
    obtain ⟨k, hk⟩ := PathTree.mem_entries_iff.mp hd
    have hlen := hdepth _ k hk (List.prefix_append path [d])
    rw [List.length_append, List.length_singleton] at hlen
    omega
  | succ depth ih =>
    refine rm_removes_of_entries hread fun d hd fs' hfs' => ih fs' (path ++ [d]) ?_ ?_
    · intro q k hq hbelow
      have hlen := hdepth q k (hfs' hq) ((List.prefix_append path [d]).trans hbelow)
      rw [List.length_append, List.length_singleton]
      omega
    · intro q k hq hbelow
      exact hread q k (hfs' hq) ((List.prefix_append path [d]).trans hbelow)

theorem exists_depth (fs : FileSystem) :
    ∃ depth, ∀ q k, (q, k) ∈ fs.tree.nodes → q.length ≤ depth := by
  induction fs.tree.nodes with
  | nil => exact ⟨0, by simp⟩
  | cons n nodes ih =>
    obtain ⟨depth, hdepth⟩ := ih
    refine ⟨max n.1.length depth, fun q k h => ?_⟩
    rcases List.mem_cons.mp h with rfl | h
    · exact le_max_left _ _
    · exact (hdepth q k h).trans (le_max_right _ _)

end Removed

/-- `Rm` is right if and only if no node at or below the path is a socket or a block device. -/
theorem rmRight_iff (fs : FileSystem) (path : Path) :
    fs.RmRight path ↔ ∀ q k, (q, k) ∈ fs.tree.nodes → path <+: q →
      k ≠ .socket ∧ k ≠ .blockDevice := by
  have hmisread : ∀ k : NodeKind, ¬ k.Misread ↔ k ≠ .socket ∧ k ≠ .blockDevice :=
    fun k => (not_congr k.misread_iff).trans not_or
  simp only [← hmisread]
  constructor
  · rintro ⟨depth, r, hrm, hnodes⟩ q k hq hbelow hk
    have hkept := rm_keeps hk depth hrm hq
    rw [hnodes, List.mem_filter] at hkept
    exact of_decide_eq_true hkept.2 hbelow
  · intro hread
    obtain ⟨depth, hdepth⟩ := fs.exists_depth
    obtain ⟨r, hrm, hnodes⟩ := rm_removes depth fs path
      (fun q k hq _ => (hdepth q k hq).trans (Nat.le_add_left _ _)) hread
    exact ⟨depth + 1, r, hrm, hnodes⟩

/-- A directory with a socket. -/
def socketDirectory : FileSystem where
  tree :=
    { nodes := [([], .directory), (["s"], .socket)]
      nodup := by decide
      closed := by
        intro p x k h
        have hp : p = [] := by
          rcases List.mem_cons.mp h with h | h
          · simp at h
          · simpa using congrArg (List.dropLast ∘ Prod.fst) (List.mem_singleton.mp h)
        exact ⟨.directory, by simp [hp], rfl⟩ }
  names := by
    intro p k h n hn
    rcases List.mem_cons.mp h with h | h
    · rw [(Prod.mk.inj h).1] at hn
      cases hn
    · rw [(Prod.mk.inj (List.mem_singleton.mp h)).1, List.mem_singleton] at hn
      rw [hn]
      decide

/-- The socket is left. -/
theorem not_rmRight_socket : ¬ socketDirectory.RmRight [] := by
  rintro ⟨depth, r, hrm, hnodes⟩
  have hsocket : NodeKind.Misread .socket := (NodeKind.misread_iff _).mpr (.inl rfl)
  have hkept := rm_keeps (q := ["s"]) hsocket depth hrm (by decide)
  rw [hnodes] at hkept
  exact absurd hkept (by decide)

end FileSystem

end ServerFramework
