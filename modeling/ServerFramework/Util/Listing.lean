import ServerFramework.Util.Rm

/-! # Listing files

`ListAllFile` opens the path that it is given, which may lead through symbolic links, and walks
through directories as `readdir` returns them. It never follows a link that it finds on the way.
-/

namespace ServerFramework

namespace FileSystem

/-- Path resolution from a directory on, where `jump` goes on behind a symbolic link. Names that are
empty stand between two slashes, and a target that starts with one is absolute. -/
def walk (fs : FileSystem) (jump : Path → Path → Option Path) : Path → Path → Option Path
  | dir, [] => if (fs.tree.label dir).isSome then some dir else none
  | dir, n :: rest =>
    if fs.tree.label dir = some .directory then
      match fs.tree.label (dir ++ [n]) with
      | some (.symlink target) => jump (if target.head? = some "" then [] else dir) (target ++ rest)
      | some _ => walk fs jump (dir ++ [n]) rest
      | none =>
        if n = "" ∨ n = "." then walk fs jump dir rest
        else if n = ".." then walk fs jump dir.dropLast rest
        else none
    else none

/-- The resolution of a path that meets at most so many symbolic links. -/
def resolve (fs : FileSystem) : ℕ → Path → Path → Option Path
  | 0 => fs.walk fun _ _ => none
  | links + 1 => fs.walk (fs.resolve links)

/-- What a path leads to, as for `access` and `opendir`. The path is the list of what stands between
its slashes; after forty links the system gives up. -/
def leadsTo (fs : FileSystem) (cwd path : Path) : Option Path :=
  if path = [] ∨ path = [""] then none
  else fs.resolve 40 (if path.head? = some "" then [] else cwd) path

/-- The name ends in the suffix. -/
def endsIn (subfix filename : String) : Bool := subfix.toList.isSuffixOf filename.toList

/-- The body of the loop of `ListAllFile`, for an entry of the directory `real` that the path leads
to. -/
def listEntry (listAll : Path → Option (List Path)) (fs : FileSystem) (real path : Path)
    (subfix d : String) : Option (List Path) :=
  if d = "." ∨ d = ".." then some []
  else match fs.tree.label (real ++ [d]) with
    | some .directory => listAll (path ++ [d])
    | some .regular => some (if endsIn subfix d then [path ++ [d]] else [])
    | _ => some []

/-- The loop of `ListAllFile` over the entries. -/
def listEntries (listAll : Path → Option (List Path)) (fs : FileSystem) (real path : Path)
    (subfix : String) : List String → Option (List Path)
  | [] => some []
  | d :: ds => (listEntry listAll fs real path subfix d).bind fun files =>
    (listEntries listAll fs real path subfix ds).map fun rest => files ++ rest

/-- What `FSUtil::ListAllFile` appends, where `depth` bounds the recursion. -/
def listAllFile : ℕ → FileSystem → Path → Path → String → Option (List Path)
  | 0, _, _, _, _ => none
  | depth + 1, fs, cwd, path, subfix =>
    match fs.leadsTo cwd path with
    | none => some []
    | some real =>
      match fs.opendir real with
      | none => some []
      | some ds =>
        listEntries (fun p => listAllFile depth fs cwd p subfix) fs real path subfix ds

/-- A regular file below the directory `real` with the suffix, under the path that leads there. -/
def Listed (fs : FileSystem) (real path : Path) (subfix : String) (p : Path) : Prop :=
  ∃ rest name, p = path ++ rest ++ [name] ∧ (real ++ rest ++ [name], .regular) ∈ fs.tree.nodes ∧
    endsIn subfix name = true

/-- One that is the entry, or below it. -/
def ListedAt (fs : FileSystem) (real path : Path) (subfix d : String) (p : Path) : Prop :=
  p = path ++ [d] ∧ (real ++ [d], .regular) ∈ fs.tree.nodes ∧ endsIn subfix d = true ∨
    fs.Listed (real ++ [d]) (path ++ [d]) subfix p

section Resolve

variable {fs : FileSystem} {dir names real : Path} {d : String} {k : NodeKind}

/-- Behind a path that leads to a directory, an entry that is no link leads to itself. -/
theorem walk_append {jump : Path → Path → Option Path}
    (hjump : ∀ dir names, jump dir names = some real → jump dir (names ++ [d]) = some (real ++ [d]))
    (hreal : fs.tree.label real = some .directory) (hd : fs.tree.label (real ++ [d]) = some k)
    (hk : ∀ target, k ≠ .symlink target) (h : fs.walk jump dir names = some real) :
    fs.walk jump dir (names ++ [d]) = some (real ++ [d]) := by
  induction names generalizing dir with
  | nil =>
    rw [walk] at h
    split_ifs at h
    obtain rfl := Option.some.inj h
    rw [List.nil_append, walk, if_pos hreal, hd]
    cases k with
    | symlink target => exact absurd rfl (hk target)
    | _ => simp only [walk, hd, Option.isSome_some, if_true]
  | cons n rest ih =>
    rw [walk] at h
    rw [List.cons_append, walk]
    by_cases hdir : fs.tree.label dir = some .directory
    case neg =>
      rw [if_neg hdir] at h
      cases h
    rw [if_pos hdir] at h ⊢
    cases hlabel : fs.tree.label (dir ++ [n]) with
    | none =>
      simp only [hlabel] at h ⊢
      split_ifs at h ⊢
      · exact ih h
      · exact ih h
    | some k' =>
      simp only [hlabel] at h ⊢
      cases k' with
      | symlink target =>
        have happend := hjump _ _ h
        rwa [List.append_assoc] at happend
      | _ => exact ih h

theorem resolve_append {links : ℕ} (hreal : fs.tree.label real = some .directory)
    (hd : fs.tree.label (real ++ [d]) = some k) (hk : ∀ target, k ≠ .symlink target)
    (h : fs.resolve links dir names = some real) :
    fs.resolve links dir (names ++ [d]) = some (real ++ [d]) := by
  induction links generalizing dir names with
  | zero => exact walk_append (by simp) hreal hd hk h
  | succ links ih => exact walk_append (fun _ _ => ih) hreal hd hk h

theorem leadsTo_append {cwd path : Path} (hreal : fs.tree.label real = some .directory)
    (hd : fs.tree.label (real ++ [d]) = some k) (hk : ∀ target, k ≠ .symlink target)
    (h : fs.leadsTo cwd path = some real) :
    fs.leadsTo cwd (path ++ [d]) = some (real ++ [d]) := by
  rw [leadsTo] at h ⊢
  by_cases hpath : path = [] ∨ path = [""]
  case pos =>
    rw [if_pos hpath] at h
    cases h
  obtain ⟨n, rest, rfl⟩ := List.exists_cons_of_ne_nil (not_or.mp hpath).1
  rw [if_neg hpath] at h
  rw [if_neg (by simp)]
  exact resolve_append hreal hd hk h

end Resolve

section List

variable {fs : FileSystem} {cwd real path p : Path} {subfix d : String}

/-- What is below a directory is at or below one of its entries. -/
theorem listed_iff :
    fs.Listed real path subfix p ↔
      ∃ d ∈ fs.tree.entries real, fs.ListedAt real path subfix d p := by
  constructor
  · rintro ⟨rest, name, rfl, hnode, hends⟩
    cases rest with
    | nil =>
      rw [List.append_nil] at hnode
      refine ⟨name, PathTree.mem_entries_iff.mpr ⟨_, hnode⟩, .inl ⟨?_, hnode, hends⟩⟩
      rw [List.append_nil]
    | cons d rest =>
      have hnode' : (real ++ [d] ++ rest ++ [name], .regular) ∈ fs.tree.nodes := by
        simpa using hnode
      have habove : real ++ [d] <+: real ++ [d] ++ rest ++ [name] := by
        rw [List.append_assoc (real ++ [d])]
        exact List.prefix_append _ _
      refine ⟨d, PathTree.mem_entries_iff.mpr (PathTree.exists_above hnode' habove), .inr ?_⟩
      exact ⟨rest, name, by simp, hnode', hends⟩
  · rintro ⟨d, -, ⟨rfl, hnode, hends⟩ | ⟨rest, name, rfl, hnode, hends⟩⟩
    · exact ⟨[], d, by simp, by simpa using hnode, hends⟩
    · exact ⟨d :: rest, name, by simp, by simpa using hnode, hends⟩

theorem ListedAt.below (h : fs.ListedAt real path subfix d p) : path ++ [d] <+: p := by
  rcases h with ⟨rfl, -, -⟩ | ⟨rest, name, rfl, -, -⟩
  · exact List.prefix_rfl
  · rw [List.append_assoc (path ++ [d])]
    exact List.prefix_append _ _

/-- There is something at an entry that is listed. -/
theorem ListedAt.exists_node (h : fs.ListedAt real path subfix d p) :
    ∃ k, (real ++ [d], k) ∈ fs.tree.nodes := by
  rcases h with ⟨-, hnode, -⟩ | ⟨rest, name, -, hnode, -⟩
  · exact ⟨_, hnode⟩
  · apply PathTree.exists_above hnode
    rw [List.append_assoc (real ++ [d])]
    exact List.prefix_append _ _

/-- Nothing is at or below two entries. -/
theorem entry_unique {d d' : String} {p : Path} (h : path ++ [d] <+: p)
    (h' : path ++ [d'] <+: p) : d = d' := by
  have heq := List.prefix_of_prefix_length_le h h' (by simp)
  simpa using heq.eq_of_length (by simp)

/-- Nothing is listed below a node that is not a directory. -/
theorem not_listed_of_leaf {k : NodeKind} (h : fs.tree.label real = some k)
    (hk : k.isDirectory = false) : ¬ fs.Listed real path subfix p := by
  rw [listed_iff, PathTree.entries_eq_nil (PathTree.label_eq_some_iff.mp h) hk]
  simp

/-- What is listed for one entry. -/
theorem listEntry_exact {listAll : Path → Option (List Path)} (hd : ¬ (d = "." ∨ d = ".."))
    (hlist : fs.tree.label (real ++ [d]) = some .directory →
      ∃ files, listAll (path ++ [d]) = some files ∧ files.Nodup ∧
        ∀ p, p ∈ files ↔ fs.Listed (real ++ [d]) (path ++ [d]) subfix p) :
    ∃ files, listEntry listAll fs real path subfix d = some files ∧ files.Nodup ∧
      ∀ p, p ∈ files ↔ fs.ListedAt real path subfix d p := by
  rw [listEntry, if_neg hd]
  cases hlabel : fs.tree.label (real ++ [d]) with
  | none =>
    refine ⟨[], rfl, List.nodup_nil, fun p => iff_of_false List.not_mem_nil fun hp => ?_⟩
    obtain ⟨k, hk⟩ := hp.exists_node
    exact PathTree.label_eq_none_iff.mp hlabel k hk
  | some k =>
    have hreg : (real ++ [d], .regular) ∈ fs.tree.nodes ↔ k = .regular := by
      rw [← PathTree.label_eq_some_iff, hlabel, Option.some.injEq]
    simp only [ListedAt, hreg]
    cases k with
    | directory => simpa using hlist hlabel
    | regular =>
      refine ⟨_, rfl, by split_ifs <;> simp, fun p => ?_⟩
      rw [or_iff_left (not_listed_of_leaf hlabel rfl)]
      split_ifs with hends <;> simp [hends]
    | _ =>
      refine ⟨[], rfl, List.nodup_nil, fun p => ?_⟩
      rw [or_iff_left (not_listed_of_leaf hlabel rfl)]
      simp

/-- The loop lists what is at or below the entries, and passes over dot entries. -/
theorem listEntries_exact (listAll : Path → Option (List Path)) {ds : List String} (hds : ds.Nodup)
    (hlist : ∀ d ∈ ds, fs.tree.label (real ++ [d]) = some .directory →
      ∃ files, listAll (path ++ [d]) = some files ∧ files.Nodup ∧
        ∀ p, p ∈ files ↔ fs.Listed (real ++ [d]) (path ++ [d]) subfix p) :
    ∃ files, listEntries listAll fs real path subfix ds = some files ∧ files.Nodup ∧
      ∀ p, p ∈ files ↔ ∃ d ∈ ds, fs.ListedAt real path subfix d p := by
  induction ds with
  | nil => exact ⟨[], rfl, List.nodup_nil, by simp⟩
  | cons d ds ih =>
    obtain ⟨hnew, hds⟩ := List.nodup_cons.mp hds
    obtain ⟨hself, hlist⟩ := List.forall_mem_cons.mp hlist
    obtain ⟨rest, hrest, hnodup, hmem⟩ := ih hds hlist
    by_cases hd : d = "." ∨ d = ".."
    · refine ⟨rest, ?_, hnodup, fun p => ?_⟩
      · rw [listEntries, listEntry, if_pos hd, hrest]
        rfl
      · have hnot : ¬ fs.ListedAt real path subfix d p := by
          intro hp
          obtain ⟨k, hk⟩ := hp.exists_node
          exact fs.not_prefix_of_dot hd hk List.prefix_rfl
        rw [hmem]
        simp [hnot]
    · obtain ⟨files, hfiles, hnodup', hmem'⟩ := listEntry_exact hd hself
      refine ⟨files ++ rest, ?_, ?_, fun p => ?_⟩
      · rw [listEntries, hfiles, hrest]
        rfl
      · refine List.nodup_append.mpr ⟨hnodup', hnodup, ?_⟩
        rintro p hp _ hp' rfl
        obtain ⟨d', hd', hlisted⟩ := (hmem p).mp hp'
        exact hnew (entry_unique ((hmem' p).mp hp).below hlisted.below ▸ hd')
      · rw [List.mem_append, hmem', hmem]
        simp

/-- What `readdir` returns for a directory: dot entries, and each entry once. -/
theorem opendir_some {ds : List String} (h : fs.opendir real = some ds) :
    fs.tree.label real = some .directory ∧ ds.Nodup ∧ ∀ d ∈ fs.tree.entries real, d ∈ ds := by
  rw [opendir] at h
  split at h
  case h_1 k hlabel =>
    split_ifs at h with hdir
    obtain rfl := Option.some.inj h
    have hkind : k = .directory := by cases k <;> first | rfl | cases hdir
    have hplain : ∀ d ∈ fs.tree.entries real, d ≠ "." ∧ d ≠ ".." := by
      intro d hd
      obtain ⟨k, hk⟩ := PathTree.mem_entries_iff.mp hd
      exact fs.names _ k hk d (by simp)
    refine ⟨hkind ▸ hlabel,
      List.nodup_cons.mpr ⟨?_, List.nodup_cons.mpr ⟨?_, PathTree.entries_nodup _ _⟩⟩,
      fun d hd => List.mem_cons_of_mem _ (List.mem_cons_of_mem _ hd)⟩
    · intro hd
      rcases List.mem_cons.mp hd with hd | hd
      · exact absurd hd (by decide)
      · exact (hplain "." hd).1 rfl
    · exact fun hd => (hplain ".." hd).2 rfl
  case h_2 => cases h

/-- Where there is no directory, there are no entries. -/
theorem entries_of_opendir (h : fs.opendir real = none) : fs.tree.entries real = [] := by
  rw [opendir] at h
  split at h
  case h_1 k hlabel =>
    split_ifs at h with hdir
    exact PathTree.entries_eq_nil (PathTree.label_eq_some_iff.mp hlabel) (by simpa using hdir)
  case h_2 hlabel =>
    rw [List.eq_nil_iff_forall_not_mem]
    intro d hd
    obtain ⟨k, hk⟩ := PathTree.mem_entries_iff.mp hd
    exact PathTree.not_prefix_of_label hlabel hk (List.prefix_append real [d])

/-- One level of the recursion. -/
theorem listAllFile_of_entries {depth : ℕ} (hlead : fs.leadsTo cwd path = some real)
    (hlist : ∀ d ∈ fs.tree.entries real, fs.leadsTo cwd (path ++ [d]) = some (real ++ [d]) →
      ∃ files, listAllFile depth fs cwd (path ++ [d]) subfix = some files ∧ files.Nodup ∧
        ∀ p, p ∈ files ↔ fs.Listed (real ++ [d]) (path ++ [d]) subfix p) :
    ∃ files, listAllFile (depth + 1) fs cwd path subfix = some files ∧ files.Nodup ∧
      ∀ p, p ∈ files ↔ fs.Listed real path subfix p := by
  simp only [listAllFile, listed_iff, hlead]
  cases hds : fs.opendir real with
  | none => exact ⟨[], rfl, List.nodup_nil, by simp [entries_of_opendir hds]⟩
  | some ds =>
    obtain ⟨hdir, hnodup, hsub⟩ := opendir_some hds
    obtain ⟨files, hfiles, hnodup', hmem⟩ := listEntries_exact
      (fun p => listAllFile depth fs cwd p subfix) hnodup fun d _ hlabel =>
        hlist d (PathTree.mem_entries_iff.mpr ⟨_, PathTree.label_eq_some_iff.mp hlabel⟩)
          (leadsTo_append hdir hlabel (by simp) hlead)
    refine ⟨files, hfiles, hnodup', fun p => (hmem p).trans ?_⟩
    constructor
    · rintro ⟨d, -, hlisted⟩
      exact ⟨d, PathTree.mem_entries_iff.mpr hlisted.exists_node, hlisted⟩
    · rintro ⟨d, hd, hlisted⟩
      exact ⟨d, hsub d hd, hlisted⟩

/-- With enough depth for the longest path, all files with the suffix are listed once. -/
theorem listAllFile_depth (depth : ℕ) (hlead : fs.leadsTo cwd path = some real)
    (hdepth : ∀ q k, (q, k) ∈ fs.tree.nodes → real <+: q → q.length ≤ real.length + depth) :
    ∃ files, listAllFile (depth + 1) fs cwd path subfix = some files ∧ files.Nodup ∧
      ∀ p, p ∈ files ↔ fs.Listed real path subfix p := by
  have hlong : ∀ d ∈ fs.tree.entries real, 1 ≤ depth := by
    intro d hd
    obtain ⟨k, hk⟩ := PathTree.mem_entries_iff.mp hd
    have hlen := hdepth _ k hk (List.prefix_append real [d])
    rw [List.length_append, List.length_singleton] at hlen
    omega
  induction depth generalizing real path with
  | zero => exact listAllFile_of_entries hlead fun d hd _ => absurd (hlong d hd) (by omega)
  | succ depth ih =>
    refine listAllFile_of_entries hlead fun d _ hlead' => ?_
    have hdepth' : ∀ q k, (q, k) ∈ fs.tree.nodes → real ++ [d] <+: q →
        q.length ≤ (real ++ [d]).length + depth := by
      intro q k hq hbelow
      have hlen := hdepth q k hq ((List.prefix_append real [d]).trans hbelow)
      rw [List.length_append, List.length_singleton]
      omega
    refine ih hlead' hdepth' fun d' hd' => ?_
    obtain ⟨k, hk⟩ := PathTree.mem_entries_iff.mp hd'
    have hlen := hdepth' _ k hk (List.prefix_append (real ++ [d]) [d'])
    simp only [List.length_append, List.length_singleton] at hlen
    omega

/-- `ListAllFile` lists the regular files with the suffix below the directory that the path leads
to, each of them once and under the path. -/
theorem listAllFile_exact (fs : FileSystem) (cwd path : Path) (subfix : String) :
    ∃ depth files, listAllFile depth fs cwd path subfix = some files ∧ files.Nodup ∧
      ∀ p, p ∈ files ↔ ∃ real, fs.leadsTo cwd path = some real ∧ fs.Listed real path subfix p := by
  cases hlead : fs.leadsTo cwd path with
  | none => exact ⟨1, [], by simp only [listAllFile, hlead], List.nodup_nil, by simp⟩
  | some real =>
    obtain ⟨depth, hdepth⟩ := fs.exists_depth
    have hlist : ∃ files, listAllFile (depth + 1) fs cwd path subfix = some files ∧ files.Nodup ∧
        ∀ p, p ∈ files ↔ fs.Listed real path subfix p :=
      listAllFile_depth depth hlead fun q k hq _ => (hdepth q k hq).trans (Nat.le_add_left _ _)
    obtain ⟨files, hfiles, hnodup, hmem⟩ := hlist
    exact ⟨depth + 1, files, hfiles, hnodup, by simpa using hmem⟩

end List

end FileSystem

end ServerFramework
