import Mathlib.Data.Bool.AllAny
import Mathlib.Data.List.Basic
import Mathlib.Data.String.Basic
import Mathlib.Logic.Function.Basic

/-! # Loading a configuration

`LoadFromYaml` flattens the document: each node is offered, under the keys on the way to it, to the
variable registered under that name. Names are checked against a list of characters in which the
digit 9 is missing.
-/

namespace ServerFramework

/-- A `YAML::Node`. The keys of a map are scalars. -/
inductive YamlNode where
  | null
  | scalar (text : String)
  | sequence (items : List YamlNode)
  | map (entries : List (String × YamlNode))

namespace Config

/-- The literal of `ListAllMember` and `Lookup`. -/
def nameChars : List Char := "abcdefghikjlmnopqrstuvwxyz._012345678".toList

/-- `name.find_first_not_of(..) == npos`. -/
def validName (name : String) : Bool := name.toList.all (nameChars.elem ·)

/-- The prefix for the value of a key. -/
def join (pre key : String) : String := if pre = "" then key else pre ++ "." ++ key

mutual

/-- `ListAllMember`. -/
def listAllMember (pre : String) : YamlNode → List (String × YamlNode)
  | .map entries =>
    if validName pre then (pre, .map entries) :: listAllEntries pre entries else []
  | node => if validName pre then [(pre, node)] else []

/-- The loop of `ListAllMember` over the entries of a map. -/
def listAllEntries (pre : String) : List (String × YamlNode) → List (String × YamlNode)
  | [] => []
  | (key, value) :: entries => listAllMember (join pre key) value ++ listAllEntries pre entries

end

/-- What `FromString` is given for a node: its text, or what `emit` writes for it. -/
def nodeText (emit : YamlNode → String) : YamlNode → String
  | .scalar text => text
  | node => emit node

variable {V : Type}

/-- The body of the loop of `LoadFromYaml`: the variable for which `FromString` is called, and the
argument. -/
def deliver (emit : YamlNode → String) (datas : String → Option V) (i : String × YamlNode) :
    Option (V × String) :=
  if i.1 = "" then none
  else (datas (i.1.map Char.toLower)).map fun var => (var, nodeText emit i.2)

/-- The calls that `LoadFromYaml` makes. -/
def loadFromYaml (emit : YamlNode → String) (datas : String → Option V) (root : YamlNode) :
    List (V × String) :=
  (listAllMember "" root).filterMap (deliver emit datas)

/-- `Lookup` with a default: the variable, unless it is of another type, and the registry; or the
name as `std::invalid_argument`. -/
def lookup (isType : V → Bool) (new : V) (datas : String → Option V) (name : String) :
    Except String (Option V × (String → Option V)) :=
  match datas name with
  | some var => .ok (if isType var then some var else none, datas)
  | none =>
    if validName name then .ok (some new, Function.update datas name (some new)) else .error name

mutual

/-- The nodes below a node, each with the keys on the way to it, in the order of the document. -/
def descendants : YamlNode → List (List String × YamlNode)
  | .map entries => entryDescendants entries
  | _ => []

def entryDescendants : List (String × YamlNode) → List (List String × YamlNode)
  | [] => []
  | (key, value) :: entries =>
    (([], value) :: descendants value).map (Prod.map (key :: ·) id) ++ entryDescendants entries

end

/-- The dotted path. -/
def path (keys : List String) : String := ".".intercalate keys

/-- The characters that a name may have. -/
def NameChar (c : Char) : Prop := c ∈ "0123456789abcdefghijklmnopqrstuvwxyz_.".toList

instance (c : Char) : Decidable (NameChar c) := inferInstanceAs (Decidable (c ∈ String.toList _))

def Documented (name : String) : Prop := ∀ c ∈ name.toList, NameChar c

/-- The keys of the document are not empty, and over the characters of names. -/
def KeysDocumented (root : YamlNode) : Prop :=
  ∀ d ∈ descendants root, ∀ key ∈ d.1, key ≠ "" ∧ Documented key

/-- Every node is offered to the variable of its path. -/
def LoadRight (datas : String → Option V) (root : YamlNode) : Prop :=
  KeysDocumented root → ∀ emit, loadFromYaml emit datas root =
    (descendants root).filterMap fun d =>
      (datas (path d.1)).map fun var => (var, nodeText emit d.2)

/-- `Lookup` accepts the names over the characters of names, and no other new ones. -/
def LookupRight (isType : V → Bool) (new : V) (datas : String → Option V) (name : String) : Prop :=
  (Documented name → ∃ r, lookup isType new datas name = .ok r) ∧
    (datas name = none → ¬ Documented name → lookup isType new datas name = .error name)

section Names

theorem validName_iff (name : String) :
    validName name = true ↔ ∀ c ∈ name.toList, c ∈ nameChars := by
  simp [validName]

theorem mem_nameChars_iff (c : Char) : c ∈ nameChars ↔ NameChar c ∧ c ≠ '9' := by
  constructor
  · revert c
    refine List.all_iff_forall_prop.mp ?_
    decide +kernel
  · rintro ⟨hc, hne⟩
    revert c
    refine List.all_iff_forall_prop.mp ?_
    decide +kernel

theorem validName_iff_documented (name : String) :
    validName name = true ↔ Documented name ∧ '9' ∉ name.toList := by
  simp only [validName_iff, mem_nameChars_iff, Documented, forall_and]
  refine and_congr_right fun _ => ⟨fun h hmem => h _ hmem rfl, ?_⟩
  rintro h c hc rfl
  exact h hc

theorem map_toLower {name : String} (h : validName name = true) :
    name.map Char.toLower = name := by
  have hlower : ∀ c ∈ nameChars, c.toLower = c := by
    refine List.all_iff_forall_prop.mp ?_
    decide +kernel
  rw [← String.toList_inj, String.toList_map]
  have hname := (validName_iff name).mp h
  calc name.toList.map Char.toLower
    _ = name.toList.map id := List.map_congr_left fun c hc => hlower c (hname c hc)
    _ = name.toList := List.map_id _

theorem validName_of_join {pre key : String} (h : validName (join pre key) = true) :
    validName pre = true := by
  rw [join] at h
  split_ifs at h with hpre
  · rw [hpre]
    rfl
  · rw [validName_iff] at h ⊢
    intro c hc
    exact h c (by simp [hc])

end Names

section Members

/-- The prefix at the end of the keys. -/
def dotted (pre : String) (keys : List String) : String := keys.foldl join pre

theorem validName_of_dotted {pre : String} {keys : List String}
    (h : validName (dotted pre keys) = true) : validName pre = true := by
  induction keys generalizing pre with
  | nil => exact h
  | cons key keys ih => exact validName_of_join (ih h)

/-- What `ListAllMember` lists of a node. -/
def listed (pre : String) (d : List String × YamlNode) : Option (String × YamlNode) :=
  if validName (dotted pre d.1) then some (dotted pre d.1, d.2) else none

theorem filterMap_listed_of_not_validName {pre : String} (h : ¬ validName pre = true)
    (l : List (List String × YamlNode)) : l.filterMap (listed pre) = [] := by
  rw [List.filterMap_eq_nil_iff]
  intro d _
  exact if_neg fun hd => h (validName_of_dotted hd)

mutual

theorem listAllMember_eq (pre : String) : ∀ node : YamlNode,
    listAllMember pre node = (([], node) :: descendants node).filterMap (listed pre)
  | .map entries => by
    by_cases h : validName pre = true
    · have hroot : listed pre ([], .map entries) = some (pre, .map entries) := if_pos h
      rw [listAllMember, if_pos h, listAllEntries_eq, descendants,
        List.filterMap_cons_some hroot]
    · rw [listAllMember, if_neg h, filterMap_listed_of_not_validName h]
  | .null | .scalar _ | .sequence _ => by
    by_cases h : validName pre = true <;> simp [listAllMember, descendants, listed, dotted, h]

theorem listAllEntries_eq (pre : String) : ∀ entries : List (String × YamlNode),
    listAllEntries pre entries = (entryDescendants entries).filterMap (listed pre)
  | [] => rfl
  | (key, value) :: entries => by
    have hvalue : listed pre ∘ Prod.map (key :: ·) id = listed (join pre key) := rfl
    rw [listAllEntries, entryDescendants, listAllMember_eq, listAllEntries_eq,
      List.filterMap_append, List.filterMap_map, hvalue]

end

theorem dotted_ne_empty {pre : String} (hpre : pre ≠ "") (keys : List String) :
    dotted pre keys ≠ "" := by
  induction keys generalizing pre with
  | nil => exact hpre
  | cons key keys ih =>
    apply ih
    rw [join, if_neg hpre]
    simp [hpre]

theorem dotted_eq_path {pre : String} (hpre : pre ≠ "") (keys : List String) :
    dotted pre keys = path (pre :: keys) := by
  induction keys generalizing pre with
  | nil => exact String.intercalate_singleton.symm
  | cons key keys ih =>
    have hjoin : join pre key = pre ++ "." ++ key := if_neg hpre
    have hne : pre ++ "." ++ key ≠ "" := by simp [hpre]
    calc dotted pre (key :: keys)
      _ = path ((pre ++ "." ++ key) :: keys) := by
        rw [← ih hne, ← hjoin]
        rfl
      _ = path (pre :: key :: keys) := by
        rw [path, path, String.intercalate_cons_append, String.intercalate_cons_cons]

theorem keys_of_mem_entries {entries : List (String × YamlNode)} {d : List String × YamlNode}
    (h : d ∈ entryDescendants entries) : ∃ key keys, d.1 = key :: keys := by
  induction entries with
  | nil => exact absurd h List.not_mem_nil
  | cons entry entries ih =>
    rw [entryDescendants, List.mem_append, List.mem_map] at h
    rcases h with ⟨d, -, rfl⟩ | h
    · exact ⟨entry.1, d.1, rfl⟩
    · exact ih h

theorem keys_of_mem {root : YamlNode} {d : List String × YamlNode} (h : d ∈ descendants root) :
    ∃ key keys, d.1 = key :: keys := by
  cases root with
  | map entries => exact keys_of_mem_entries h
  | null | scalar | sequence => exact absurd h List.not_mem_nil

theorem documented_path {keys : List String} (h : ∀ key ∈ keys, Documented key) :
    Documented (path keys) := by
  induction keys with
  | nil => simp [Documented, path]
  | cons key keys ih =>
    obtain ⟨hkey, hkeys⟩ := List.forall_mem_cons.mp h
    cases keys with
    | nil => rwa [path, String.intercalate_singleton]
    | cons key' keys =>
      intro c hc
      rw [path, String.intercalate_cons_cons, ← path, String.toList_append, String.toList_append,
        List.mem_append, List.mem_append] at hc
      rcases hc with (hc | hc) | hc
      · exact hkey c hc
      · obtain rfl : c = '.' := by simpa using hc
        decide
      · exact ih hkeys c hc

section Documented

variable {root : YamlNode} (hroot : KeysDocumented root) {d : List String × YamlNode}
  (hd : d ∈ descendants root)

include hroot hd

theorem validName_path : validName (path d.1) = true ↔ '9' ∉ (path d.1).toList := by
  rw [validName_iff_documented]
  exact and_iff_right (documented_path fun key h => (hroot d hd key h).2)

theorem dotted_empty : dotted "" d.1 = path d.1 ∧ path d.1 ≠ "" := by
  obtain ⟨key, keys, hkeys⟩ := keys_of_mem hd
  have hkey : key ≠ "" := (hroot d hd key (by simp [hkeys])).1
  rw [hkeys, ← dotted_eq_path hkey]
  exact ⟨rfl, dotted_ne_empty hkey keys⟩

/-- A node of a document with right keys is delivered under its path, unless that has the digit
9. -/
theorem deliver_listed (emit : YamlNode → String) (datas : String → Option V) :
    (listed "" d).bind (deliver emit datas) =
      if '9' ∈ (path d.1).toList then none
      else (datas (path d.1)).map fun var => (var, nodeText emit d.2) := by
  obtain ⟨hdotted, hne⟩ := dotted_empty hroot hd
  have hvalid := validName_path hroot hd
  rw [listed, hdotted]
  split_ifs with hname h9 h9
  · exact absurd h9 (hvalid.mp hname)
  · rw [Option.bind_some, deliver, if_neg hne, map_toLower hname]
  · rfl
  · exact absurd (hvalid.mpr h9) hname

end Documented

/-- What is loaded of a document with right keys. -/
theorem loadFromYaml_eq {root : YamlNode} (hroot : KeysDocumented root) (emit : YamlNode → String)
    (datas : String → Option V) :
    loadFromYaml emit datas root = (descendants root).filterMap fun d =>
      if '9' ∈ (path d.1).toList then none
      else (datas (path d.1)).map fun var => (var, nodeText emit d.2) := by
  have hempty : listed "" ([], root) = some ("", root) := rfl
  have hdrop : deliver emit datas ("", root) = none := rfl
  rw [loadFromYaml, listAllMember_eq, List.filterMap_cons_some hempty,
    List.filterMap_cons_none hdrop, List.filterMap_filterMap]
  exact List.filterMap_congr fun d hd => deliver_listed hroot hd emit datas

end Members

section LeftOut

variable {α β : Type} {p : α → Prop} [DecidablePred p] {f : α → Option β}

theorem length_filterMap_ite_le (l : List α) :
    (l.filterMap fun a => if p a then none else f a).length ≤ (l.filterMap f).length := by
  induction l with
  | nil => exact le_rfl
  | cons a l ih =>
    rw [List.filterMap_cons, List.filterMap_cons]
    split_ifs <;> cases f a <;> simp only [List.length_cons] <;> omega

/-- Elements that are left out make no difference only if nothing came of them. -/
theorem filterMap_ite_eq_iff {l : List α} :
    (l.filterMap fun a => if p a then none else f a) = l.filterMap f ↔
      ∀ a ∈ l, p a → f a = none := by
  induction l with
  | nil => simp
  | cons a l ih =>
    rw [List.forall_mem_cons, ← ih, List.filterMap_cons, List.filterMap_cons]
    by_cases hp : p a
    · rw [if_pos hp]
      cases f a with
      | none => simp [hp]
      | some b =>
        refine iff_of_false ?_ fun h => absurd (h.1 hp) (by simp)
        intro (h : (l.filterMap fun a => if p a then none else f a) = b :: l.filterMap f)
        have hle := length_filterMap_ite_le (p := p) (f := f) l
        rw [h, List.length_cons] at hle
        omega
    · rw [if_neg hp]
      cases f a <;> simp [hp]

end LeftOut

theorem loadRight_iff (datas : String → Option V) (root : YamlNode) :
    LoadRight datas root ↔ (KeysDocumented root →
      ∀ d ∈ descendants root, '9' ∈ (path d.1).toList → datas (path d.1) = none) := by
  refine forall_congr' fun hroot => ?_
  simp only [loadFromYaml_eq hroot, filterMap_ite_eq_iff, Option.map_eq_none_iff, forall_const]

theorem lookupRight_iff (isType : V → Bool) (new : V) (datas : String → Option V)
    (name : String) :
    LookupRight isType new datas name ↔
      (Documented name → '9' ∈ name.toList → datas name ≠ none) := by
  have hvalid := validName_iff_documented name
  rw [LookupRight, lookup]
  cases datas name with
  | some var => simp
  | none =>
    by_cases hdoc : Documented name
    · by_cases h9 : '9' ∈ name.toList <;> simp [hvalid, hdoc, h9]
    · simp [hvalid, hdoc]

/-- The configuration is loaded and looked up right if and only if no node has a registered path
with the digit 9, and the name is registered if it has that digit. -/
theorem configRight_iff (isType : V → Bool) (new : V) (datas : String → Option V)
    (root : YamlNode) (name : String) :
    LoadRight datas root ∧ LookupRight isType new datas name ↔
      (KeysDocumented root →
        ∀ d ∈ descendants root, '9' ∈ (path d.1).toList → datas (path d.1) = none) ∧
      (Documented name → '9' ∈ name.toList → datas name ≠ none) := by
  rw [loadRight_iff, lookupRight_iff]

/-- The name `port9` is not accepted. -/
theorem not_configRight_nine :
    ¬ (LoadRight (fun _ => none : String → Option Unit) (.scalar "") ∧
      LookupRight (fun _ => true) () (fun _ => none) "port9") := by
  rintro ⟨-, haccepts, -⟩
  have hname : Documented "port9" := by
    refine List.all_iff_forall_prop.mp ?_
    decide +kernel
  have hinvalid : validName "port9" = false := by decide +kernel
  obtain ⟨r, hr⟩ := haccepts hname
  rw [lookup, hinvalid] at hr
  cases hr

section Registered

/-- The registry after calls of `Lookup` with defaults, the last one of which comes first. -/
def lookups (isType : V → Bool) (new : String → V) : List String → String → Option V
  | [] => fun _ => none
  | name :: names =>
    match lookup isType (new name) (lookups isType new names) name with
    | .ok r => r.2
    | .error _ => lookups isType new names

/-- Every registered name has passed the check. -/
theorem validName_of_lookups (isType : V → Bool) (new : String → V) (names : List String)
    {name : String} (h : lookups isType new names name ≠ none) : validName name = true := by
  induction names with
  | nil => exact absurd rfl h
  | cons name' names ih =>
    rw [lookups, lookup] at h
    cases hfound : lookups isType new names name' with
    | some var =>
      rw [hfound] at h
      exact ih h
    | none =>
      rw [hfound] at h
      by_cases hvalid : validName name' = true
      · simp only [hvalid, if_true] at h
        by_cases hne : name = name'
        · rwa [hne]
        · rw [Function.update_of_ne hne] at h
          exact ih h
      · simp only [hvalid] at h
        exact ih h

/-- With the variables that can be registered, every document is loaded right. -/
theorem loadRight_lookups (isType : V → Bool) (new : String → V) (names : List String)
    (root : YamlNode) : LoadRight (lookups isType new names) root := by
  rw [loadRight_iff]
  intro _ d _ h9
  by_contra hne
  exact ((validName_iff_documented _).mp (validName_of_lookups isType new names hne)).2 h9

end Registered

end Config

end ServerFramework
