import ServerFramework.Util.Files

/-! # Making directories

`Mkdir` makes what is missing before each slash of the path, and last the path itself. It takes any
file that is already there for a directory. `OpenForWrite` falls back on it.
-/

namespace ServerFramework

/-- A path that has been read up to some character: the names before, and the characters of the
last one. -/
structure Reading where
  names : Path
  name : List Char
  deriving DecidableEq, Repr

namespace Reading

/-- The last name, where the path does not end in a slash or a dot. -/
def base (r : Reading) : Option String :=
  if r.name = [] ∨ r.name = ['.'] then none else some (String.ofList r.name)

def path (r : Reading) : Path := r.names ++ r.base.toList

def next (r : Reading) (c : Char) : Reading :=
  if c = '/' then ⟨r.path, []⟩ else ⟨r.names, r.name ++ [c]⟩

end Reading

/-- What a process has in view: its working directory, where it cannot make files, which files it
can open for writing, and which symbolic links lead to a file. -/
structure Process where
  cwd : Path
  refuses : Path → Bool
  opens : Path → Bool
  leads : Path → Bool

namespace Process

def start (p : Process) (s : List Char) : Path := if s.head? = some '/' then [] else p.cwd

/-- Path resolution, for paths that lead through directories. -/
def read (p : Process) (s : List Char) : Reading := s.foldl Reading.next ⟨p.start s, []⟩

end Process

namespace FileSystem

/-- What is at a path. Only a directory can be followed by a slash. -/
def lookup (fs : FileSystem) (p : Process) (s : List Char) : Option NodeKind :=
  if s = [] then none
  else (fs.tree.label (p.read s).path).filter fun k => (p.read s).base.isSome || k.isDirectory

/-- `access` with `F_OK`. -/
def access (fs : FileSystem) (p : Process) (s : List Char) : Bool :=
  match fs.lookup p s with
  | some (.symlink _) => p.leads (p.read s).path
  | some _ => true
  | none => false

/-- The system makes a node. -/
def make (fs : FileSystem) (p : Process) (path : Path) (k : NodeKind) : Bool × FileSystem :=
  if h : Plain path ∧ fs.tree.Vacant path ∧ p.refuses path = false then
    (true, {
      tree := fs.tree.insert path k h.2.1
      names := by
        intro q k' hq
        rcases PathTree.mem_insert_iff.mp hq with hq | ⟨rfl, -⟩
        · exact fs.names q k' hq
        · exact h.1 })
  else (false, fs)

/-- The call of `mkdir`. -/
def callMkdir (fs : FileSystem) (p : Process) (s : List Char) : Bool × FileSystem :=
  if (p.read s).name = ['.'] then (false, fs) else fs.make p (p.read s).path .directory

/-- `__mkdir`. -/
def mkdir (fs : FileSystem) (p : Process) (dirname : List Char) : Bool × FileSystem :=
  if fs.access p dirname then (true, fs) else fs.callMkdir p dirname

/-- The loop of `Mkdir`, when it has come to some character of the path. -/
def mkdirFrom (fs : FileSystem) (p : Process) (done : List Char) : List Char → Bool × FileSystem
  | [] => fs.mkdir p done
  | c :: rest =>
    if c = '/' then
      let r := fs.mkdir p done
      if r.1 then mkdirFrom r.2 p (done ++ [c]) rest else r
    else mkdirFrom fs p (done ++ [c]) rest

/-- `FSUtil::Mkdir`, undefined for an empty path, behind which `strchr` starts to read. -/
def Mkdir (fs : FileSystem) (p : Process) (dirname : List Char) : Option (Bool × FileSystem) :=
  if (fs.lookup p dirname).isSome then some (true, fs)
  else match dirname with
    | [] => none
    | c :: rest => some (fs.mkdirFrom p [c] rest)

/-- `FSUtil::Dirname`. -/
def Dirname (filename : List Char) : List Char :=
  match filename.reverse.dropWhile (· ≠ '/') with
  | [] => ['.']
  | [_] => ['/']
  | _ :: rest => rest.reverse

/-- `ofstream::open`, with a mode that makes missing files or one that does not. -/
def openFile (fs : FileSystem) (p : Process) (creates : Bool) (s : List Char) :
    Bool × FileSystem :=
  match fs.lookup p s with
  | some k => (k ≠ .directory ∧ k ≠ .socket ∧ p.opens (p.read s).path, fs)
  | none =>
    if creates ∧ (p.read s).base.isSome then fs.make p (p.read s).path .regular else (false, fs)

/-- `FSUtil::OpenForWrite`. -/
def OpenForWrite (fs : FileSystem) (p : Process) (creates : Bool) (filename : List Char) :
    Option (Bool × FileSystem) :=
  let r := fs.openFile p creates filename
  if r.1 then some r
  else (r.2.Mkdir p (Dirname filename)).map fun d => d.2.openFile p creates filename

/-- The path can be walked down, where what is missing is made. -/
def Reaches (fs : FileSystem) (p : Process) (path : Path) : Prop :=
  ∀ q, q <+: path → fs.tree.label q = some .directory ∨
    (fs.tree.label q = none ∧ p.refuses q = false)

/-- The directories made on the way down a path. -/
def Made (fs : FileSystem) (p : Process) (path q : Path) (k : NodeKind) : Prop :=
  k = .directory ∧ q <+: path ∧ fs.tree.label q = none ∧ fs.Reaches p q

variable {fs fs' : FileSystem} {p : Process} {path q : Path} {k : NodeKind}

theorem Reaches.of_prefix (h : fs.Reaches p path) (hq : q <+: path) : fs.Reaches p q :=
  fun r hr => h r (hr.trans hq)

theorem reaches_concat_iff {n : String} : fs.Reaches p (path ++ [n]) ↔
    fs.Reaches p path ∧ (fs.tree.label (path ++ [n]) = some .directory ∨
      (fs.tree.label (path ++ [n]) = none ∧ p.refuses (path ++ [n]) = false)) := by
  constructor
  · intro h
    exact ⟨h.of_prefix (List.prefix_append path [n]), h _ List.prefix_rfl⟩
  · rintro ⟨hpath, hn⟩ q hq
    rcases List.prefix_concat_iff.mp hq with rfl | hq
    · exact hn
    · exact hpath q hq

theorem reaches_of_directory (h : fs.tree.label path = some .directory) : fs.Reaches p path := by
  intro q hq
  left
  have hmem := PathTree.label_eq_some_iff.mp h
  by_cases he : q = path
  · rw [he, h]
  · obtain ⟨r, rfl⟩ := hq
    cases r with
    | nil => simp at he
    | cons n r =>
      have hn : q ++ [n] <+: q ++ n :: r := ⟨r, by simp⟩
      obtain ⟨k', hk'⟩ := PathTree.exists_above hmem hn
      obtain ⟨k, hk, hinner⟩ := fs.tree.closed q n k' hk'
      rw [PathTree.label_eq_some_iff.mpr hk]
      cases k <;> simp_all [NodeKind.isDirectory]

/-- Nothing is made at or below a path that cannot be walked down. -/
theorem made_of_blocked {n : String} {target : Path} (hpath : path ++ [n] <+: target)
    (h : ¬ fs.Reaches p (path ++ [n])) : fs.Made p target q k ↔ fs.Made p path q k := by
  constructor
  · rintro ⟨hk, hq, hnone, hreach⟩
    have hnot : ¬ path ++ [n] <+: q := fun hbelow => h (hreach.of_prefix hbelow)
    have habove : q <+: path ++ [n] :=
      (List.prefix_or_prefix_of_prefix hq hpath).resolve_right hnot
    rcases List.prefix_concat_iff.mp habove with rfl | habove
    · exact absurd List.prefix_rfl hnot
    · exact ⟨hk, habove, hnone, hreach⟩
  · rintro ⟨hk, hq, hnone, hreach⟩
    exact ⟨hk, (hq.trans (List.prefix_append path [n])).trans hpath, hnone, hreach⟩

/-- On a path that is walked down, the last directory is made if it is missing. -/
theorem made_concat_iff {n : String} (h : fs.Reaches p (path ++ [n])) :
    fs.Made p (path ++ [n]) q k ↔ fs.Made p path q k ∨
      (q = path ++ [n] ∧ k = .directory ∧ fs.tree.label (path ++ [n]) = none) := by
  constructor
  · rintro ⟨hk, hq, hnone, hreach⟩
    rcases List.prefix_concat_iff.mp hq with rfl | hq
    · exact .inr ⟨rfl, hk, hnone⟩
    · exact .inl ⟨hk, hq, hnone, hreach⟩
  · rintro (⟨hk, hq, hnone, hreach⟩ | ⟨rfl, hk, hnone⟩)
    · exact ⟨hk, hq.trans (List.prefix_append path [n]), hnone, hreach⟩
    · exact ⟨hk, List.prefix_rfl, hnone, h⟩

theorem not_made_of_label {k' : NodeKind} (h : fs.tree.label path = some k') :
    ¬ fs.Made p path q k := by
  rintro ⟨-, hq, hnone, -⟩
  exact PathTree.not_prefix_of_label hnone (PathTree.label_eq_some_iff.mp h) hq

/-- A file system in which the directories on the way down a path have been made. -/
def MadeUpTo (fs : FileSystem) (p : Process) (path : Path) (fs' : FileSystem) : Prop :=
  ∀ q k, (q, k) ∈ fs'.tree.nodes ↔ (q, k) ∈ fs.tree.nodes ∨ fs.Made p path q k

theorem MadeUpTo.refl {k : NodeKind} (h : fs.tree.label path = some k) :
    fs.MadeUpTo p path fs :=
  fun _ _ => (or_iff_left (not_made_of_label h)).symm

theorem MadeUpTo.of_blocked {n : String} {target : Path} (h : fs.MadeUpTo p path fs')
    (hpath : path ++ [n] <+: target) (hnot : ¬ fs.Reaches p (path ++ [n])) :
    fs.MadeUpTo p target fs' := by
  intro q k
  rw [made_of_blocked hpath hnot]
  exact h q k

/-- Below the path, nothing has changed. -/
theorem MadeUpTo.label_concat (h : fs.MadeUpTo p path fs') (n : String) :
    fs'.tree.label (path ++ [n]) = fs.tree.label (path ++ [n]) := by
  have hiff : ∀ k, (path ++ [n], k) ∈ fs'.tree.nodes ↔ (path ++ [n], k) ∈ fs.tree.nodes := by
    intro k
    rw [h]
    apply or_iff_left
    rintro ⟨-, hq, -, -⟩
    exact absurd hq.length_le (by simp)
  ext k
  rw [PathTree.label_eq_some_iff, PathTree.label_eq_some_iff, hiff]

theorem MadeUpTo.label_self (h : fs.MadeUpTo p path fs') (hreach : fs.Reaches p path) :
    fs'.tree.label path = some .directory := by
  rw [PathTree.label_eq_some_iff, h]
  rcases hreach path List.prefix_rfl with hdir | ⟨hnone, -⟩
  · exact .inl (PathTree.label_eq_some_iff.mp hdir)
  · exact .inr ⟨rfl, List.prefix_rfl, hnone, hreach⟩

end FileSystem

namespace Reading

theorem path_of_base {r : Reading} {n : String} (h : r.base = some n) :
    r.path = r.names ++ [n] := by
  rw [path, h, Option.toList_some]

theorem path_of_none {r : Reading} (h : r.base = none) : r.path = r.names := by
  rw [path, h, Option.toList_none, List.append_nil]

theorem names_next (r : Reading) (c : Char) : r.names <+: (r.next c).names := by
  rw [next]
  split_ifs
  · exact List.prefix_append _ _
  · exact List.prefix_rfl

theorem names_foldl (r : Reading) (s : List Char) : r.names <+: (s.foldl next r).names := by
  induction s generalizing r with
  | nil => exact List.prefix_rfl
  | cons c s ih => exact (r.names_next c).trans (ih (r.next c))

end Reading

namespace Process

variable {p : Process} {s : List Char}

theorem read_append (hs : s ≠ []) (t : List Char) :
    p.read (s ++ t) = t.foldl Reading.next (p.read s) := by
  rw [read, read, List.foldl_append, start, start, List.head?_append_of_ne_nil _ hs]

theorem read_concat (hs : s ≠ []) (c : Char) : p.read (s ++ [c]) = (p.read s).next c :=
  read_append hs [c]

theorem names_prefix (hs : s ≠ []) (t : List Char) :
    (p.read s).names <+: (p.read (s ++ t)).path := by
  rw [read_append hs]
  exact (Reading.names_foldl _ t).trans (List.prefix_append _ _)

end Process

namespace FileSystem

variable {fs fs' : FileSystem} {p : Process} {s t : List Char} {k : NodeKind} {target : Path}

theorem lookup_eq_none (h : fs.tree.label (p.read s).path = none) : fs.lookup p s = none := by
  simp [lookup, h]

theorem lookup_of_base {n : String} (hs : s ≠ []) (hb : (p.read s).base = some n) :
    fs.lookup p s = fs.tree.label (p.read s).path := by
  cases h : fs.tree.label (p.read s).path <;> simp [lookup, hs, hb, h]

theorem lookup_of_directory (hs : s ≠ [])
    (h : fs.tree.label (p.read s).path = some .directory) : fs.lookup p s = some .directory := by
  simp [lookup, hs, h, NodeKind.isDirectory]

theorem make_of_label (h : fs.tree.label target = some k) (k' : NodeKind) :
    fs.make p target k' = (false, fs) := by
  rw [make, dif_neg]
  rintro ⟨-, ⟨hnone, -⟩, -⟩
  simp [h] at hnone

/-- Where a node can be made, it is or the system refuses. -/
theorem make_concat (path : Path) (n : String) (k : NodeKind) (hplain : Plain (path ++ [n]))
    (hdir : fs.tree.label path = some .directory) (hnone : fs.tree.label (path ++ [n]) = none) :
    (p.refuses (path ++ [n]) = true ∧ fs.make p (path ++ [n]) k = (false, fs)) ∨
      (p.refuses (path ++ [n]) = false ∧ (fs.make p (path ++ [n]) k).1 = true ∧
        ∀ q k', (q, k') ∈ (fs.make p (path ++ [n]) k).2.tree.nodes ↔
          (q, k') ∈ fs.tree.nodes ∨ q = path ++ [n] ∧ k' = k) := by
  have hvacant : fs.tree.Vacant (path ++ [n]) :=
    PathTree.vacant_concat_iff.mpr ⟨hnone, _, PathTree.label_eq_some_iff.mp hdir, rfl⟩
  cases hr : p.refuses (path ++ [n]) with
  | true => exact .inl ⟨rfl, dif_neg (by simp [hr])⟩
  | false =>
    right
    rw [make, dif_pos ⟨hplain, hvacant, hr⟩]
    exact ⟨rfl, rfl, fun q k' => PathTree.mem_insert_iff (h := hvacant)⟩

/-- Once the path has come to a file that is no directory, nothing is made any more. -/
def Stuck (fs : FileSystem) (p : Process) (s : List Char) : Prop :=
  ∃ k, fs.tree.label (p.read s).names = some k ∧ k.isDirectory = false

theorem Stuck.mkdir_eq (h : fs.Stuck p s) : fs.mkdir p s = (false, fs) := by
  obtain ⟨k, hk, hdir⟩ := h
  cases hb : (p.read s).base with
  | none =>
    have hpath := Reading.path_of_none hb
    have hlookup : fs.lookup p s = none := by simp [lookup, hpath, hk, hb, hdir]
    rw [mkdir, access, hlookup]
    simp [callMkdir, hpath, make_of_label hk]
  | some n =>
    have hpath := Reading.path_of_base hb
    have hentries := PathTree.entries_eq_nil (PathTree.label_eq_some_iff.mp hk) hdir
    have hnone : fs.tree.label ((p.read s).names ++ [n]) = none := by
      rw [PathTree.label_eq_none_iff]
      intro k' hk'
      have hn : n ∈ fs.tree.entries (p.read s).names := PathTree.mem_entries_iff.mpr ⟨k', hk'⟩
      simp [hentries] at hn
    have hlookup : fs.lookup p s = none := lookup_eq_none (hpath ▸ hnone)
    have hnot : ¬ fs.tree.Vacant ((p.read s).names ++ [n]) := by
      rw [PathTree.vacant_concat_iff]
      rintro ⟨-, k', hk', hinner⟩
      have he := hk.symm.trans (PathTree.label_eq_some_iff.mpr hk')
      rw [← Option.some.inj he, hdir] at hinner
      cases hinner
    rw [mkdir, access, hlookup]
    simp [callMkdir, hpath, make, hnot]

theorem Stuck.mkdirFrom_eq {done : List Char} (hs : done ≠ []) (h : fs.Stuck p done)
    (rest : List Char) : fs.mkdirFrom p done rest = (false, fs) := by
  induction rest generalizing done with
  | nil => exact h.mkdir_eq
  | cons c rest ih =>
    rw [mkdirFrom]
    split_ifs with hc
    · simp [h.mkdir_eq]
    · apply ih (by simp)
      obtain ⟨k, hk, hdir⟩ := h
      refine ⟨k, ?_, hdir⟩
      rwa [Process.read_concat hs, Reading.next, if_neg hc]

/-- No symbolic link is met. -/
def NoLinks (fs : FileSystem) (path : Path) : Prop :=
  ∀ q, q <+: path → ∀ t, fs.tree.label q ≠ some (.symlink t)

/-- A call of `__mkdir` on the way down. -/
inductive MkdirCase (fs : FileSystem) (p : Process) (s : List Char) (r : Bool × FileSystem) : Prop

  | reached : fs.Reaches p (p.read s).path → fs.MadeUpTo p (p.read s).path r.2 → r.1 = true →
      MkdirCase fs p s r

  | refused (n : String) : (p.read s).base = some n → ¬ fs.Reaches p (p.read s).path →
      fs.tree.label (p.read s).path = none → fs.MadeUpTo p (p.read s).names r.2 → r.1 = false →
      MkdirCase fs p s r

  | file (n : String) (k : NodeKind) : (p.read s).base = some n →
      fs.tree.label (p.read s).path = some k → k.isDirectory = false →
      fs.MadeUpTo p (p.read s).names r.2 → r.1 = true → MkdirCase fs p s r

theorem mkdir_cases (hs : s ≠ []) (hmade : fs.MadeUpTo p (p.read s).names fs')
    (hreach : fs.Reaches p (p.read s).names) (hplain : Plain (p.read s).path)
    (hlinks : ∀ t, fs.tree.label (p.read s).path ≠ some (.symlink t)) :
    MkdirCase fs p s (fs'.mkdir p s) := by
  have hself := hmade.label_self hreach
  cases hb : (p.read s).base with
  | none =>
    have hpath := Reading.path_of_none hb
    have hlookup : fs'.lookup p s = some .directory := lookup_of_directory hs (hpath ▸ hself)
    have heq : fs'.mkdir p s = (true, fs') := by simp [mkdir, access, hlookup]
    rw [heq]
    exact .reached (hpath ▸ hreach) (hpath ▸ hmade) rfl
  | some n =>
    have hpath := Reading.path_of_base hb
    have hlabel : fs'.tree.label (p.read s).path = fs.tree.label (p.read s).path := by
      rw [hpath]
      exact hmade.label_concat n
    have hlookup : fs'.lookup p s = fs.tree.label (p.read s).path :=
      (lookup_of_base hs hb).trans hlabel
    cases hl : fs.tree.label (p.read s).path with
    | some k =>
      have heq : fs'.mkdir p s = (true, fs') := by
        rw [hl] at hlookup hlinks
        cases k <;> simp_all [mkdir, access]
      rw [heq]
      cases hdir : k.isDirectory with
      | false => exact .file n k hb hl hdir hmade rfl
      | true =>
        obtain rfl : k = .directory := by cases k <;> simp_all [NodeKind.isDirectory]
        have hreach' : fs.Reaches p (p.read s).path := reaches_of_directory hl
        refine .reached hreach' ?_ rfl
        intro q k
        rw [hmade, hpath, made_concat_iff (hpath ▸ hreach'), ← hpath, hl]
        simp
    | none =>
      have hname : (p.read s).name ≠ ['.'] := by
        intro he
        simp [Reading.base, he] at hb
      have heq : fs'.mkdir p s = fs'.make p ((p.read s).names ++ [n]) .directory := by
        rw [mkdir, access, hlookup, hl, callMkdir, if_neg hname, hpath]
        rfl
      rw [heq]
      rw [hpath] at hl hplain
      have hl' := (hmade.label_concat n).trans hl
      rcases make_concat (p := p) _ n .directory hplain hself hl' with
        ⟨hr, he⟩ | ⟨hr, hok, hmem⟩
      · rw [he]
        refine .refused n hb ?_ (hpath ▸ hl) hmade rfl
        rw [hpath, reaches_concat_iff, hl, hr]
        simp
      · have hreach' : fs.Reaches p ((p.read s).names ++ [n]) :=
          reaches_concat_iff.mpr ⟨hreach, .inr ⟨hl, hr⟩⟩
        refine .reached (hpath ▸ hreach') ?_ hok
        intro q k
        rw [hmem, hmade, hpath, made_concat_iff hreach', or_assoc]
        simp [hl]

theorem label_of_lookup (h : fs.lookup p s = some k) : fs.tree.label (p.read s).path = some k := by
  rw [lookup] at h
  split_ifs at h
  exact (Option.filter_eq_some_iff.mp h).1

/-- A path starts at the root or in the working directory. -/
theorem label_names_singleton (hcwd : fs.tree.label p.cwd = some .directory) (c : Char) :
    fs.tree.label (p.read [c]).names = some .directory := by
  by_cases hc : c = '/'
  · have hnames : (p.read [c]).names = [] := by
      simp [hc, Process.read, Process.start, Reading.next, Reading.path, Reading.base]
    rw [hnames]
    obtain ⟨k, hk⟩ := PathTree.exists_above (PathTree.label_eq_some_iff.mp hcwd)
      (List.nil_prefix (l := p.cwd))
    rcases reaches_of_directory (p := p) hcwd [] List.nil_prefix with h | ⟨hnone, -⟩
    · exact h
    · exact absurd hk (PathTree.label_eq_none_iff.mp hnone k)
  · have hnames : (p.read [c]).names = p.cwd := by
      simp [hc, Process.read, Process.start, Reading.next]
    rwa [hnames]

/-- What the loop of `Mkdir` makes on the way from some character to the end of the path. -/
theorem mkdirFrom_spec {done rest : List Char} (hs : done ≠ [])
    (hmade : fs.MadeUpTo p (p.read done).names fs') (hreach : fs.Reaches p (p.read done).names)
    (hplain : Plain (p.read (done ++ rest)).path)
    (hlinks : fs.NoLinks (p.read (done ++ rest)).path)
    (habsent : fs.lookup p (done ++ rest) = none) :
    fs.MadeUpTo p (p.read (done ++ rest)).path (fs'.mkdirFrom p done rest).2 ∧
      ((fs'.mkdirFrom p done rest).1 = true ↔ fs.Reaches p (p.read (done ++ rest)).path) := by
  induction rest generalizing done fs' with
  | nil =>
    rw [List.append_nil] at hplain hlinks habsent ⊢
    rw [mkdirFrom]
    rcases mkdir_cases hs hmade hreach hplain (hlinks _ List.prefix_rfl) with
      ⟨hreach', hmade', hok⟩ | ⟨n, hb, hnot, -, hmade', hok⟩ | ⟨n, k, hb, hl, -, -, -⟩
    · exact ⟨hmade', iff_of_true hok hreach'⟩
    · have hpath := Reading.path_of_base hb
      refine ⟨?_, iff_of_false (by simp [hok]) hnot⟩
      exact hmade'.of_blocked (hpath ▸ List.prefix_rfl) (hpath ▸ hnot)
    · rw [lookup_of_base hs hb, hl] at habsent
      cases habsent
  | cons c rest ih =>
    have hsplit : done ++ c :: rest = (done ++ [c]) ++ rest := by simp
    have hnext := Process.read_concat (p := p) hs c
    rw [hsplit] at hplain hlinks habsent ⊢
    have hs' : done ++ [c] ≠ [] := by simp
    rw [mkdirFrom]
    split_ifs with hc
    · rw [Reading.next, if_pos hc] at hnext
      have hpre : (p.read done).path <+: (p.read ((done ++ [c]) ++ rest)).path := by
        have := Process.names_prefix (p := p) hs' rest
        rwa [hnext] at this
      have hplain' : Plain (p.read done).path := fun n hn => hplain n (hpre.subset hn)
      rcases mkdir_cases hs hmade hreach hplain' (hlinks _ hpre) with
        ⟨hreach', hmade', hok⟩ | ⟨n, hb, hnot, -, hmade', hok⟩ | ⟨n, k, hb, hl, hdir, hmade', hok⟩
      · rw [if_pos hok]
        exact ih hs' (by rwa [hnext]) (by rwa [hnext]) hplain hlinks habsent
      · have hpath := Reading.path_of_base hb
        rw [if_neg (by simp [hok])]
        refine ⟨hmade'.of_blocked (hpath ▸ hpre) (hpath ▸ hnot), iff_of_false (by simp [hok]) ?_⟩
        exact fun h => hnot (h.of_prefix hpre)
      · have hpath := Reading.path_of_base hb
        have hnot : ¬ fs.Reaches p (p.read done).path := by
          intro h
          have := h _ List.prefix_rfl
          rw [hl] at this
          cases k <;> simp_all [NodeKind.isDirectory]
        have hstuck : (fs'.mkdir p done).2.Stuck p (done ++ [c]) := by
          refine ⟨k, ?_, hdir⟩
          rw [hnext]
          change (fs'.mkdir p done).2.tree.label (p.read done).path = some k
          rw [hpath] at hl ⊢
          rw [hmade'.label_concat, hl]
        rw [if_pos hok, hstuck.mkdirFrom_eq hs']
        refine ⟨hmade'.of_blocked (hpath ▸ hpre) (hpath ▸ hnot), iff_of_false (by simp) ?_⟩
        exact fun h => hnot (h.of_prefix hpre)
    · rw [Reading.next, if_neg hc] at hnext
      exact ih hs' (by rwa [hnext]) (by rwa [hnext]) hplain hlinks habsent

/-- Where no symbolic link is met, `Mkdir` makes the missing directories at and above the path down
to the first one that the system refuses or that a file stands in for, and nothing else. It returns
true if and only if there was something at the path or the path can be walked down. -/
theorem mkdir_exact (fs : FileSystem) (p : Process) (dirname : List Char) (hne : dirname ≠ [])
    (hcwd : fs.tree.label p.cwd = some .directory) (hplain : Plain (p.read dirname).path)
    (hlinks : fs.NoLinks (p.read dirname).path) :
    ∃ r, fs.Mkdir p dirname = some r ∧ fs.MadeUpTo p (p.read dirname).path r.2 ∧
      (r.1 = true ↔ (fs.lookup p dirname).isSome ∨ fs.Reaches p (p.read dirname).path) := by
  cases hl : fs.lookup p dirname with
  | some k =>
    exact ⟨(true, fs), by simp [Mkdir, hl], MadeUpTo.refl (label_of_lookup hl), by simp⟩
  | none =>
    obtain ⟨c, rest, rfl⟩ := List.exists_cons_of_ne_nil hne
    have hnames := label_names_singleton hcwd c
    obtain ⟨hmade, hiff⟩ := mkdirFrom_spec (List.cons_ne_nil c [])
      (MadeUpTo.refl hnames) (reaches_of_directory hnames) hplain hlinks hl
    exact ⟨_, by simp [Mkdir, hl], hmade, by simpa using hiff⟩

/-- A home directory with a file in it. -/
def homeWithLog : FileSystem where
  tree :=
    { nodes := [([], .directory), (["home"], .directory), (["home", "log"], .regular)]
      nodup := by decide
      closed := PathTree.closed_of_dropLast (by decide) }
  names := by
    have hnames : ∀ n ∈ ([([], .directory), (["home"], .directory), (["home", "log"], .regular)] :
        List (Path × NodeKind)), Plain n.1 := by decide
    exact fun p k hp => hnames (p, k) hp

/-- A process that the system refuses nothing. -/
def atHome : Process := ⟨["home"], fun _ => false, fun _ => true, fun _ => true⟩

theorem noLinks_homeWithLog (path : Path) : homeWithLog.NoLinks path := by
  intro q _ t h
  have := PathTree.label_eq_some_iff.mp h
  simp [homeWithLog] at this

/-- Two directories are made, though two slashes are between them. -/
theorem mkdir_exact_homeWithLog : ∃ r, homeWithLog.Mkdir atHome ['x', '/', '/', 'y'] = some r ∧
    homeWithLog.MadeUpTo atHome ["home", "x", "y"] r.2 ∧ r.1 = true := by
  have hrun : (homeWithLog.Mkdir atHome ['x', '/', '/', 'y']).map Prod.fst = some true := by decide
  obtain ⟨r, hr, hmade, -⟩ := mkdir_exact homeWithLog atHome ['x', '/', '/', 'y'] (by decide)
    (by decide) (by decide) (noLinks_homeWithLog _)
  rw [hr] at hrun
  exact ⟨r, hr, hmade, Option.some.inj hrun⟩

end FileSystem

theorem Reading.foldl_next {base : List Char} (h : '/' ∉ base) (r : Reading) :
    base.foldl next r = ⟨r.names, r.name ++ base⟩ := by
  induction base generalizing r with
  | nil => simp
  | cons c base ih =>
    obtain ⟨hc, hbase⟩ := List.ne_and_not_mem_of_not_mem_cons h
    rw [List.foldl_cons, ih hbase, next, if_neg (Ne.symm hc)]
    simp

/-- `Dirname` cuts the path at its last slash. -/
theorem FileSystem.dirname_append {pre base : List Char} (h : '/' ∉ base) :
    Dirname (pre ++ '/' :: base) = if pre = [] then ['/'] else pre := by
  have hdrop : (pre ++ '/' :: base).reverse.dropWhile (· ≠ '/') = '/' :: pre.reverse := by
    rw [List.reverse_append, List.reverse_cons, List.append_assoc, List.dropWhile_append_of_pos]
    · simp
    · intro c hc
      have hne : c ≠ '/' := fun he => h (he ▸ List.mem_reverse.mp hc)
      simpa using hne
  rw [Dirname, hdrop]
  cases hpre : pre.reverse with
  | nil => simp_all
  | cons c rest =>
    have hne : pre ≠ [] := by
      rintro rfl
      cases hpre
    rw [if_neg hne, ← List.reverse_reverse pre, hpre]

theorem FileSystem.dirname_of_not_mem {filename : List Char} (h : '/' ∉ filename) :
    Dirname filename = ['.'] := by
  have hdrop : filename.reverse.dropWhile (· ≠ '/') = [] := by
    rw [← List.append_nil filename.reverse, List.dropWhile_append_of_pos]
    · rfl
    · intro c hc
      have hne : c ≠ '/' := fun he => h (he ▸ List.mem_reverse.mp hc)
      simpa using hne
  rw [Dirname, hdrop]

theorem exists_last_slash {filename : List Char} (h : '/' ∈ filename) :
    ∃ pre base, filename = pre ++ '/' :: base ∧ '/' ∉ base := by
  obtain ⟨base, pre, hsplit, hbase⟩ := List.eq_append_cons_of_mem (List.mem_reverse.mpr h)
  refine ⟨pre.reverse, base.reverse, ?_, by simpa using hbase⟩
  rw [← List.reverse_reverse filename, hsplit]
  simp

/-- `Dirname` leads to where the last name is looked up. -/
theorem Process.read_dirname (p : Process) (filename : List Char) :
    (p.read (FileSystem.Dirname filename)).path = (p.read filename).names := by
  by_cases h : '/' ∈ filename
  · obtain ⟨pre, base, rfl, hbase⟩ := exists_last_slash h
    rw [FileSystem.dirname_append hbase]
    split_ifs with hpre
    · have hfoldl := Reading.foldl_next hbase ⟨[], []⟩
      rw [hpre, List.nil_append, read, read, List.foldl_cons]
      exact (congrArg Reading.names hfoldl).symm
    · rw [read_append hpre, List.foldl_cons, Reading.foldl_next hbase]
      rfl
  · have hstart : p.start filename = p.cwd := by
      rw [start, if_neg]
      intro he
      exact h (List.mem_of_mem_head? he)
    have hfile : p.read filename = ⟨p.cwd, filename⟩ := by
      rw [read, hstart, Reading.foldl_next h, List.nil_append]
    rw [FileSystem.dirname_of_not_mem h, hfile]
    simp [read, start, Reading.next, Reading.path, Reading.base]

namespace FileSystem

variable {fs fs' : FileSystem} {p : Process} {s : List Char}

/-- A file can be opened for writing, if `dir` says that its directory is there. -/
def CanOpen (fs : FileSystem) (p : Process) (creates : Bool) (r : Reading) (dir : Prop) : Prop :=
  ∃ n, r.base = some n ∧
    ((∃ k, fs.tree.label r.path = some k ∧ k ≠ .directory ∧ k ≠ .socket ∧ p.opens r.path = true) ∨
      (creates = true ∧ fs.tree.label r.path = none ∧ dir ∧ p.refuses r.path = false))

theorem openFile_of_none (hb : (p.read s).base = none) (creates : Bool) :
    fs.openFile p creates s = (false, fs) := by
  cases hl : fs.lookup p s with
  | none => simp [openFile, hl, hb]
  | some k =>
    have hdir : k = .directory := by
      rw [lookup] at hl
      split_ifs at hl
      have := (Option.filter_eq_some_iff.mp hl).2
      cases k <;> simp_all [NodeKind.isDirectory]
    simp [openFile, hl, hdir]

/-- Without its directory, no file is made. -/
theorem make_of_not_directory {path : Path} {n : String}
    (h : fs.tree.label path ≠ some .directory) (k : NodeKind) :
    fs.make p (path ++ [n]) k = (false, fs) := by
  rw [make, dif_neg]
  rintro ⟨-, hvacant, -⟩
  obtain ⟨-, k', hk', hinner⟩ := PathTree.vacant_concat_iff.mp hvacant
  refine h ?_
  rw [PathTree.label_eq_some_iff.mpr hk']
  cases k' <;> simp_all [NodeKind.isDirectory]

variable (fs) in
/-- One try to open a file. -/
theorem openFile_spec (creates : Bool) (hplain : Plain (p.read s).path) :
    ((fs.openFile p creates s).1 = true ↔ fs.CanOpen p creates (p.read s)
      (fs.tree.label (p.read s).names = some .directory)) ∧
    ∀ q k, (q, k) ∈ (fs.openFile p creates s).2.tree.nodes ↔ (q, k) ∈ fs.tree.nodes ∨
      ((fs.openFile p creates s).1 = true ∧ fs.tree.label (p.read s).path = none ∧
        q = (p.read s).path ∧ k = .regular) := by
  cases hb : (p.read s).base with
  | none => simp [openFile_of_none hb, CanOpen, hb]
  | some n =>
    have hs : s ≠ [] := by
      rintro rfl
      simp [Process.read, Reading.base] at hb
    have hpath := Reading.path_of_base hb
    have hlookup : fs.lookup p s = fs.tree.label (p.read s).path := lookup_of_base hs hb
    cases hl : fs.tree.label (p.read s).path with
    | some k => simp [openFile, hlookup, hl, CanOpen, hb]
    | none =>
      cases creates with
      | false => simp [openFile, hlookup, hl, CanOpen, hb]
      | true =>
        have heq : fs.openFile p true s = fs.make p (p.read s).path .regular := by
          simp [openFile, hlookup, hl, hb]
        rw [hpath] at hl hplain
        simp only [heq, CanOpen, hb, hpath, hl]
        by_cases hdir : fs.tree.label (p.read s).names = some .directory
        · rcases make_concat (p := p) _ n .regular hplain hdir hl with
            ⟨hr, he⟩ | ⟨hr, hok, hmem⟩
          · simp [he, hr]
          · simp [hmem, hok, hr, hdir]
        · simp [make_of_not_directory hdir, hdir]

/-- A failed try changes nothing. -/
theorem openFile_of_false {creates : Bool} (h : (fs.openFile p creates s).1 ≠ true) :
    (fs.openFile p creates s).2 = fs := by
  revert h
  unfold openFile make
  split
  · exact fun _ => rfl
  · split_ifs <;> simp

theorem dirname_ne_nil (filename : List Char) : Dirname filename ≠ [] := by
  by_cases h : '/' ∈ filename
  · obtain ⟨pre, base, rfl, hbase⟩ := exists_last_slash h
    rw [dirname_append hbase]
    split_ifs with hpre
    · simp
    · exact hpre
  · simp [dirname_of_not_mem h]

/-- After `Mkdir`, a file can be opened if its directory can be walked down to. -/
theorem MadeUpTo.canOpen_iff {creates : Bool} {r : Reading} (h : fs.MadeUpTo p r.names fs') :
    fs'.CanOpen p creates r (fs'.tree.label r.names = some .directory) ↔
      fs.CanOpen p creates r (fs.Reaches p r.names) := by
  have hdir : fs'.tree.label r.names = some .directory ↔ fs.Reaches p r.names := by
    constructor
    · intro hl
      rcases (h _ _).mp (PathTree.label_eq_some_iff.mp hl) with hmem | ⟨-, -, -, hreach⟩
      · exact reaches_of_directory (PathTree.label_eq_some_iff.mpr hmem)
      · exact hreach
    · exact h.label_self
  apply exists_congr
  intro n
  apply and_congr_right
  intro hb
  rw [Reading.path_of_base hb, h.label_concat, hdir]

theorem CanOpen.exists_above {creates : Bool} {r : Reading}
    (h : fs.CanOpen p creates r (fs.tree.label r.names = some .directory)) :
    ∃ k, fs.tree.label r.names = some k := by
  obtain ⟨n, hb, ⟨k, hk, -⟩ | ⟨-, -, hdir, -⟩⟩ := h
  · rw [Reading.path_of_base hb] at hk
    obtain ⟨k', hk'⟩ := PathTree.exists_above (PathTree.label_eq_some_iff.mp hk)
      (List.prefix_append r.names [n])
    exact ⟨k', PathTree.label_eq_some_iff.mpr hk'⟩
  · exact ⟨_, hdir⟩

/-- Where no symbolic link is met, `OpenForWrite` succeeds if and only if the file is there and can
be opened, or the mode makes it and its directory can be walked down to. What is new afterwards are
directories at and above its own and the file itself, and directories stay even if it fails. -/
theorem openForWrite_exact (fs : FileSystem) (p : Process) (creates : Bool)
    (filename : List Char) (hcwd : fs.tree.label p.cwd = some .directory)
    (hplain : Plain (p.read filename).path) (hlinks : fs.NoLinks (p.read filename).path) :
    ∃ r, fs.OpenForWrite p creates filename = some r ∧
      (r.1 = true ↔ fs.CanOpen p creates (p.read filename)
        (fs.Reaches p (p.read filename).names)) ∧
      ∀ q k, (q, k) ∈ r.2.tree.nodes ↔
        (q, k) ∈ fs.tree.nodes ∨ fs.Made p (p.read filename).names q k ∨
          (r.1 = true ∧ fs.tree.label (p.read filename).path = none ∧
            q = (p.read filename).path ∧ k = .regular) := by
  by_cases hfirst : (fs.openFile p creates filename).1 = true
  · obtain ⟨hok, hnodes⟩ := openFile_spec fs creates hplain
    obtain ⟨k', hk'⟩ := (hok.mp hfirst).exists_above
    refine ⟨_, by rw [OpenForWrite, if_pos hfirst], ?_, ?_⟩
    · rw [hok, (MadeUpTo.refl hk').canOpen_iff]
    · intro q k
      rw [hnodes, or_iff_right (not_made_of_label hk')]
  · have hdirname := p.read_dirname filename
    have hpre : (p.read filename).names <+: (p.read filename).path := List.prefix_append _ _
    have hplain' : Plain (p.read (Dirname filename)).path := by
      rw [hdirname]
      exact fun n hn => hplain n (hpre.subset hn)
    have hlinks' : fs.NoLinks (p.read (Dirname filename)).path := by
      rw [hdirname]
      exact fun q hq => hlinks q (hq.trans hpre)
    obtain ⟨d, hd, hmade, -⟩ :=
      mkdir_exact fs p _ (dirname_ne_nil filename) hcwd hplain' hlinks'
    rw [hdirname] at hmade
    obtain ⟨hok, hnodes⟩ := openFile_spec d.2 creates hplain
    rw [hmade.canOpen_iff] at hok
    refine ⟨d.2.openFile p creates filename, ?_, hok, ?_⟩
    · simp only [OpenForWrite, if_neg hfirst, openFile_of_false hfirst, hd, Option.map_some]
    · intro q k
      rw [hnodes, hmade, or_assoc]
      apply or_congr_right
      apply or_congr_right
      apply and_congr_right
      intro hopened
      obtain ⟨n, hb, -⟩ := hok.mp hopened
      rw [Reading.path_of_base hb, hmade.label_concat]

/-- A file is opened for which a directory is missing, and another one below a file is not. -/
theorem openForWrite_exact_homeWithLog : (∃ r,
    homeWithLog.OpenForWrite atHome true ['x', '/', 'y'] = some r ∧ r.1 = true ∧
      (["home", "x", "y"], .regular) ∈ r.2.tree.nodes) ∧
    ¬ homeWithLog.CanOpen atHome true ⟨["home", "log"], ['y']⟩
      (homeWithLog.Reaches atHome ["home", "log"]) := by
  have hrun : (homeWithLog.OpenForWrite atHome true ['x', '/', 'y']).map Prod.fst = some true := by
    decide
  have hlog : (homeWithLog.OpenForWrite atHome true ['l', 'o', 'g', '/', 'y']).map Prod.fst =
      some false := by decide
  obtain ⟨r, hr, -, hnodes⟩ := openForWrite_exact homeWithLog atHome true ['x', '/', 'y']
    (by decide) (by decide) (noLinks_homeWithLog _)
  obtain ⟨r', hr', hiff, -⟩ := openForWrite_exact homeWithLog atHome true
    ['l', 'o', 'g', '/', 'y'] (by decide) (by decide) (noLinks_homeWithLog _)
  rw [hr] at hrun
  rw [hr'] at hlog
  have hopened : r.1 = true := Option.some.inj hrun
  have hrefused : r'.1 = false := Option.some.inj hlog
  refine ⟨⟨r, hr, hopened, ?_⟩, ?_⟩
  · exact (hnodes _ _).mpr (.inr (.inr ⟨hopened, by decide, by decide, rfl⟩))
  · intro h
    have := hiff.mpr h
    simp [hrefused] at this

end FileSystem

end ServerFramework
