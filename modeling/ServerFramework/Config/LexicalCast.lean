import Mathlib.Data.List.Lex
import Mathlib.Data.Prod.Lex
import Mathlib.Data.String.Basic
import ServerFramework.Log.LogDefineCast

/-! # Containers as text

`LexicalCast` writes a container to a YAML text by writing each element to a text of its own,
parsing that, and emitting the nodes together. It reads each element from the text that is emitted
for its node. The elements of a container may be containers.
-/

namespace ServerFramework

/-- The types that the templates are made for. A list is cast as a vector is. -/
inductive ConfigType where
  | leaf
  | vector (t : ConfigType)
  | set (t : ConfigType)
  | map (t : ConfigType)
  deriving DecidableEq, Repr

namespace ConfigType

/-- The values of a type, a set being the list of its elements in order and a map that of its
entries. -/
def Value (α : Type) : ConfigType → Type
  | leaf => α
  | vector t | set t => List (t.Value α)
  | map t => List (String ×ₗ t.Value α)

/-- `std::less`, which compares containers element by element. -/
instance Value.linearOrder {α : Type} [LinearOrder α] : (t : ConfigType) → LinearOrder (t.Value α)
  | leaf => inferInstanceAs (LinearOrder α)
  | vector t | set t =>
    have := Value.linearOrder (α := α) t
    inferInstanceAs (LinearOrder (List (t.Value α)))
  | map t =>
    have := Value.linearOrder (α := α) t
    inferInstanceAs (LinearOrder (List (String ×ₗ t.Value α)))

/-- A type without sets in it. -/
def SetFree : ConfigType → Prop
  | leaf => True
  | vector t | map t => t.SetFree
  | set _ => False

end ConfigType

/-- `LexicalCast` between a type that is no container and texts. Reading may throw. -/
structure LeafCast (α : Type) where
  toText : α → String
  fromText : String → Option α

namespace LexicalCast

open ConfigType

variable {α : Type} [LinearOrder α] (yaml : Yaml) (leaf : LeafCast α)

/-- The key of an entry. -/
def key {β : Type} (e : String ×ₗ β) : String := (ofLex e).1

def value {β : Type} (e : String ×ₗ β) : β := (ofLex e).2

/-- `insert` of a set. -/
def insertElem {β : Type} [LinearOrder β] (l : List β) (x : β) : List β :=
  OrderedSet.insert (fun a b => decide (a < b)) x l

/-- `insert` of a map. -/
def insertEntry {β : Type} (l : List (String ×ₗ β)) (e : String ×ₗ β) : List (String ×ₗ β) :=
  OrderedSet.insert (fun a b => decide (key a < key b)) e l

/-- What is read of the entries of a node. A key of a sequence is not valid and throws. -/
def entries : YamlNode → Option (List (String × YamlNode))
  | .map entries => some entries
  | .sequence (_ :: _) => none
  | _ => some []

/-- `LexicalCast<T, std::string>`, without a result if it throws. -/
def encode : (t : ConfigType) → t.Value α → Option String
  | .leaf => fun v : α => some (leaf.toText v)
  | .vector t | .set t => fun v : List (t.Value α) => do
    let nodes ← v.mapM fun i => (encode t i).bind yaml.load
    some (yaml.emit (.sequence nodes))
  | .map t => fun v : List (String ×ₗ t.Value α) => do
    let nodes ← v.mapM fun i => ((encode t (value i)).bind yaml.load).map fun n => (key i, n)
    some (yaml.emit (.map nodes))

/-- The loop over the items of a node. -/
def decodeItems {β : Type} (decode : String → Option β) (text : String) : Option (List β) := do
  let node ← yaml.load text
  (node.items yaml.keyIs).mapM fun n => decode (LogDefineCast.emitItem yaml n)

/-- The loop over the entries of a node. -/
def decodeEntries {β : Type} (decode : String → Option β) (text : String) :
    Option (List (String ×ₗ β)) := do
  let node ← yaml.load text
  (← entries node).mapM fun e => (decode (yaml.emit e.2)).map fun v => toLex (e.1, v)

/-- `LexicalCast<std::string, T>`, without a result if it throws. -/
def decode : (t : ConfigType) → String → Option (t.Value α)
  | .leaf => leaf.fromText
  | .vector t => decodeItems yaml (decode t)
  | .set t => fun text => (decodeItems yaml (decode t) text).map fun xs => xs.foldl insertElem []
  | .map t => fun text => (decodeEntries yaml (decode t) text).map fun es => es.foldl insertEntry []

/-- The node of an element. -/
def node (t : ConfigType) (v : t.Value α) : Option YamlNode :=
  (encode yaml leaf t v).bind yaml.load

/-- What an element of a container becomes. -/
def passOn (t : ConfigType) (v : t.Value α) : Option (t.Value α) :=
  (node yaml leaf t v).bind fun n => decode yaml leaf t (yaml.emit n)

/-- Sets and maps are in order. -/
def WellFormed : (t : ConfigType) → t.Value α → Prop
  | .leaf => fun _ => True
  | .vector t => fun v : List (t.Value α) => ∀ x ∈ v, WellFormed t x
  | .set t => fun v : List (t.Value α) => OrderedSet.Ascending id v ∧ ∀ x ∈ v, WellFormed t x
  | .map t => fun v : List (String ×ₗ t.Value α) =>
    OrderedSet.Ascending key v ∧ ∀ e ∈ v, WellFormed t (value e)

/-- The value is somewhere in the container. -/
def Occurs (a : α) : (t : ConfigType) → t.Value α → Prop
  | .leaf => fun v : α => v = a
  | .vector t | .set t => fun v : List (t.Value α) => ∃ x ∈ v, Occurs a t x
  | .map t => fun v : List (String ×ₗ t.Value α) => ∃ e ∈ v, Occurs a t (value e)

/-- What is emitted for the container, and for those in it, is parsed as it was. -/
def Parses : (t : ConfigType) → t.Value α → Prop
  | .leaf => fun _ => True
  | .vector t | .set t => fun v : List (t.Value α) =>
    (∀ x ∈ v, Parses t x) ∧ ∀ nodes, v.mapM (node yaml leaf t) = some nodes →
      yaml.load (yaml.emit (.sequence nodes)) = some (.sequence nodes)
  | .map t => fun v : List (String ×ₗ t.Value α) =>
    (∀ e ∈ v, Parses t (value e)) ∧
      ∀ nodes, (v.mapM fun e => (node yaml leaf t (value e)).map fun n => (key e, n)) = some nodes →
        yaml.load (yaml.emit (.map nodes)) = some (.map nodes)

/-- The text of the value stays as it is when it is parsed and emitted, as far as it can be told
from what is read. -/
def Stable (a : α) : Prop := passOn yaml leaf .leaf a = some a

section MapM

variable {β γ δ : Type} {f : β → Option γ} {g : γ → Option δ} {l : List β}

theorem mapM_bind_mapM :
    ((l.mapM f).bind fun xs => xs.mapM g) = l.mapM fun x => (f x).bind g := by
  induction l with
  | nil => rfl
  | cons x l ih =>
    simp only [List.mapM_cons, ← ih, Option.bind_eq_bind, Option.pure_def]
    cases f x with
    | none => rfl
    | some y =>
      cases l.mapM f with
      | none => cases hg : g y <;> simp [hg]
      | some ys => simp [List.mapM_cons]

theorem mapM_eq_self_iff {f : β → Option β} : l.mapM f = some l ↔ ∀ x ∈ l, f x = some x := by
  induction l with
  | nil => simp
  | cons x l ih =>
    rw [List.forall_mem_cons, ← ih, List.mapM_cons]
    cases f x <;> cases l.mapM f <;> simp

end MapM

section RoundTrip

variable {yaml leaf} {t : ConfigType}

theorem foldl_insertElem {β : Type} [LinearOrder β] {l : List β}
    (h : OrderedSet.Ascending id l) : l.foldl insertElem [] = l :=
  OrderedSet.foldl_insert (l := []) (by simp) h

theorem foldl_insertEntry {β : Type} {l : List (String ×ₗ β)} (h : OrderedSet.Ascending key l) :
    l.foldl insertEntry [] = l :=
  OrderedSet.foldl_insert (l := []) (by simp) h

/-- The elements of a sequence are passed on one by one. -/
theorem decodeItems_encode {v : List (t.Value α)} (hv : Parses yaml leaf (.vector t) v) :
    (encode yaml leaf (.vector t) v).bind (decodeItems yaml (decode yaml leaf t)) =
      v.mapM (passOn yaml leaf t) := by
  have hencode : encode yaml leaf (.vector t) v = (v.mapM (node yaml leaf t)).bind fun nodes =>
      some (yaml.emit (.sequence nodes)) := rfl
  have hpass : v.mapM (passOn yaml leaf t) = (v.mapM (node yaml leaf t)).bind fun nodes =>
      nodes.mapM fun n => decode yaml leaf t (yaml.emit n) := mapM_bind_mapM.symm
  rw [hencode, hpass]
  cases hnodes : v.mapM (node yaml leaf t) with
  | none => rfl
  | some nodes =>
    simp only [Option.bind_some, decodeItems, hv.2 nodes hnodes, Option.bind_eq_bind,
      LogDefineCast.items_sequence, List.mapM_map]
    rfl

/-- The entries of a map are passed on one by one, under their keys. -/
theorem decodeEntries_encode {v : List (String ×ₗ t.Value α)}
    (hv : Parses yaml leaf (.map t) v) :
    (encode yaml leaf (.map t) v).bind (decodeEntries yaml (decode yaml leaf t)) =
      v.mapM fun e => (passOn yaml leaf t (value e)).map fun x => toLex (key e, x) := by
  have hencode : encode yaml leaf (.map t) v = (v.mapM fun e =>
      (node yaml leaf t (value e)).map fun n => (key e, n)).bind fun nodes =>
        some (yaml.emit (.map nodes)) := rfl
  have hpass : (v.mapM fun e => (passOn yaml leaf t (value e)).map fun x => toLex (key e, x)) =
      (v.mapM fun e => (node yaml leaf t (value e)).map fun n => (key e, n)).bind fun nodes =>
        nodes.mapM fun n => (decode yaml leaf t (yaml.emit n.2)).map fun x => toLex (n.1, x) := by
    rw [mapM_bind_mapM]
    congr 1
    funext e
    rw [passOn]
    cases node yaml leaf t (value e) <;> rfl
  rw [hencode, hpass]
  cases hnodes : v.mapM fun e => (node yaml leaf t (value e)).map fun n => (key e, n) with
  | none => rfl
  | some nodes =>
    simp only [Option.bind_some, decodeEntries, hv.2 nodes hnodes, Option.bind_eq_bind, entries]

/-- What is emitted for a container is its node's text, so it is passed on as it is read back. -/
theorem passOn_eq_decode (ht : t ≠ .leaf) {v : t.Value α} (hv : Parses yaml leaf t v) :
    passOn yaml leaf t v = (encode yaml leaf t v).bind (decode yaml leaf t) := by
  have hload : ∀ text, encode yaml leaf t v = some text →
      ∃ n, yaml.load text = some n ∧ yaml.emit n = text := by
    intro text he
    cases t with
    | leaf => exact absurd rfl ht
    | vector t | set t =>
      obtain ⟨nodes, hnodes, htext⟩ := Option.bind_eq_some_iff.mp he
      obtain rfl := Option.some.inj htext
      exact ⟨.sequence nodes, hv.2 nodes hnodes, rfl⟩
    | map t =>
      obtain ⟨nodes, hnodes, htext⟩ := Option.bind_eq_some_iff.mp he
      obtain rfl := Option.some.inj htext
      exact ⟨.map nodes, hv.2 nodes hnodes, rfl⟩
  rw [passOn, node]
  cases he : encode yaml leaf t v with
  | none => rfl
  | some text =>
    obtain ⟨n, hn, htext⟩ := hload text he
    rw [Option.bind_some, Option.bind_some, hn, Option.bind_some, htext]

theorem passOn_vector {v : List (t.Value α)} (hv : Parses yaml leaf (.vector t) v) :
    passOn yaml leaf (.vector t) v = v.mapM (passOn yaml leaf t) :=
  (passOn_eq_decode (by simp) hv).trans (decodeItems_encode hv)

theorem passOn_set {v : List (t.Value α)} (hv : Parses yaml leaf (.set t) v) :
    passOn yaml leaf (.set t) v =
      (v.mapM (passOn yaml leaf t)).map fun xs => xs.foldl insertElem [] := by
  have hitems := decodeItems_encode (t := t) (v := v) hv
  rw [← hitems]
  refine (passOn_eq_decode (by simp) hv).trans ?_
  exact (Option.map_bind ..).symm

theorem passOn_map {v : List (String ×ₗ t.Value α)} (hv : Parses yaml leaf (.map t) v) :
    passOn yaml leaf (.map t) v =
      (v.mapM fun e => (passOn yaml leaf t (value e)).map fun x => toLex (key e, x)).map
        fun es => es.foldl insertEntry [] := by
  rw [← decodeEntries_encode hv]
  refine (passOn_eq_decode (by simp) hv).trans ?_
  exact (Option.map_bind ..).symm

/-- Entries that keep their keys stay in order. -/
theorem ascending_of_mapM {β : Type} {f : String ×ₗ β → Option (String ×ₗ β)}
    {v es : List (String ×ₗ β)} (hf : ∀ e e', f e = some e' → key e' = key e)
    (hes : v.mapM f = some es) (hv : OrderedSet.Ascending key v) :
    OrderedSet.Ascending key es := by
  have hkeys : es.map key = v.map key := by
    clear hv
    induction v generalizing es with
    | nil =>
      obtain rfl : [] = es := by simpa using hes
      rfl
    | cons e v ih =>
      rw [List.mapM_cons] at hes
      obtain ⟨e', he, es', hes', rfl⟩ : ∃ e', f e = some e' ∧ ∃ es', v.mapM f = some es' ∧
          e' :: es' = es := by simpa [Option.bind_eq_some_iff] using hes
      rw [List.map_cons, List.map_cons, hf e e' he, ih hes']
  rw [OrderedSet.Ascending, ← List.pairwise_map (f := key) (R := (· < ·))] at hv ⊢
  rwa [hkeys]

/-- An entry is passed on as it is when its value is. -/
theorem passOn_entry_iff (e : String ×ₗ t.Value α) :
    ((passOn yaml leaf t (value e)).map fun x => toLex (key e, x)) = some e ↔
      passOn yaml leaf t (value e) = some (value e) := by
  constructor
  · intro h
    obtain ⟨x, hx, he⟩ := Option.map_eq_some_iff.mp h
    rw [hx, ← he]
    rfl
  · intro h
    rw [h]
    rfl

/-- A container whose values are stable is passed on as it is. -/
theorem passOn_of_stable (t : ConfigType) (v : t.Value α) (hw : WellFormed t v)
    (hv : Parses yaml leaf t v) (hs : ∀ a, Occurs a t v → Stable yaml leaf a) :
    passOn yaml leaf t v = some v := by
  induction t with
  | leaf => exact hs v rfl
  | vector t ih =>
    rw [passOn_vector hv]
    apply mapM_eq_self_iff.mpr
    intro x hx
    exact ih x (hw x hx) (hv.1 x hx) fun a ha => hs a ⟨x, hx, ha⟩
  | set t ih =>
    have hself : List.mapM (passOn yaml leaf t) v = some v := by
      apply mapM_eq_self_iff.mpr
      intro x hx
      exact ih x (hw.2 x hx) (hv.1 x hx) fun a ha => hs a ⟨x, hx, ha⟩
    rw [passOn_set hv, hself]
    exact congrArg some (foldl_insertElem hw.1)
  | map t ih =>
    have hself : List.mapM (fun e => (passOn yaml leaf t (value e)).map fun x =>
        toLex (key e, x)) v = some v := by
      apply mapM_eq_self_iff.mpr
      intro e he
      apply (passOn_entry_iff e).mpr
      exact ih (value e) (hw.2 e he) (hv.1 e he) fun a ha => hs a ⟨e, he, ha⟩
    rw [passOn_map hv, hself]
    exact congrArg some (foldl_insertEntry hw.1)

/-- Without sets, nothing else is. -/
theorem stable_of_passOn (t : ConfigType) (ht : t.SetFree) (v : t.Value α) (hw : WellFormed t v)
    (hv : Parses yaml leaf t v) (hp : passOn yaml leaf t v = some v) :
    ∀ a, Occurs a t v → Stable yaml leaf a := by
  induction t with
  | leaf =>
    rintro a rfl
    exact hp
  | vector t ih =>
    rw [passOn_vector hv] at hp
    rintro a ⟨x, hx, ha⟩
    exact ih ht x (hw x hx) (hv.1 x hx) (mapM_eq_self_iff.mp hp x hx) a ha
  | set t ih => exact absurd ht not_false
  | map t ih =>
    rw [passOn_map hv] at hp
    obtain ⟨es, hes, he⟩ := Option.map_eq_some_iff.mp hp
    have hkeep : ∀ e e' : String ×ₗ t.Value α, ((passOn yaml leaf t (value e)).map fun x =>
        toLex (key e, x)) = some e' → key e' = key e := by
      intro e e' h
      obtain ⟨x, -, rfl⟩ := Option.map_eq_some_iff.mp h
      rfl
    have hsame : es = v := (foldl_insertEntry (ascending_of_mapM hkeep hes hw.1)).symm.trans he
    rw [hsame] at hes
    rintro a ⟨e, hmem, ha⟩
    have hentry := (passOn_entry_iff e).mp (mapM_eq_self_iff.mp hes e hmem)
    exact ih ht (value e) (hw.2 e hmem) (hv.1 e hmem) hentry a ha

end RoundTrip

/-- A container whose values are stable is read back from its text, and without sets no other is. -/
theorem decode_encode_container (yaml : Yaml) (leaf : LeafCast α) (t : ConfigType) (ht : t ≠ .leaf)
    (v : t.Value α) (hw : WellFormed t v) (hv : Parses yaml leaf t v) :
    ((∀ a, Occurs a t v → Stable yaml leaf a) →
        (encode yaml leaf t v).bind (decode yaml leaf t) = some v) ∧
      (t.SetFree → (encode yaml leaf t v).bind (decode yaml leaf t) = some v →
        ∀ a, Occurs a t v → Stable yaml leaf a) := by
  rw [← passOn_eq_decode ht hv]
  exact ⟨passOn_of_stable t v hw hv, fun hfree hp => stable_of_passOn t hfree v hw hv hp⟩

/-- A string is cast as it is. -/
def stringLeaf : LeafCast String := ⟨id, some⟩

/-- A string is stable if it is the text that is emitted for what it is parsed as. -/
theorem stable_string_iff (yaml : Yaml) (str : String) :
    Stable yaml stringLeaf str ↔ ∃ n, yaml.load str = some n ∧ yaml.emit n = str := by
  change ((yaml.load str).bind fun n => some (yaml.emit n)) = some str ↔ _
  simp only [Option.bind_eq_some_iff, Option.some.injEq]

section Words

/-- What yaml-cpp does with some short texts. -/
def wordsYaml : Yaml where
  load := fun text =>
    if text = "" then some .null
    else if text = "b" then some (.scalar "b")
    else if text = "c" then some (.scalar "c")
    else if text = "- c" then some (.sequence [.scalar "c"])
    else if text = "- b\n- c" then some (.sequence [.scalar "b", .scalar "c"])
    else if text = "- ~" then some (.sequence [.null])
    else if text = "x:\n  - b\n  - c\ny:\n  - c" then
      some (.map [("x", .sequence [.scalar "b", .scalar "c"]), ("y", .sequence [.scalar "c"])])
    else none
  emit := fun
    | .null => "~"
    | .scalar text => text
    | .sequence [.null] => "- ~"
    | .sequence [_] => "- c"
    | .sequence _ => "- b\n- c"
    | .map _ => "x:\n  - b\n  - c\ny:\n  - c"
  emitUndefined := ""
  asString := fun
    | .scalar str => some str
    | _ => none
  keyIs := fun key i => key = toString i

/-- A map with two sets of words. -/
def words : (ConfigType.map (.set .leaf)).Value String :=
  [toLex ("x", ["b", "c"]), toLex ("y", ["c"])]

theorem wellFormed_words : WellFormed (.map (.set .leaf)) words := by
  refine ⟨?_, ?_⟩
  · exact List.pairwise_pair.mpr (by decide)
  · intro e he
    rcases List.mem_pair.mp he with rfl | rfl
    · exact ⟨List.pairwise_pair.mpr (by decide), fun _ _ => trivial⟩
    · exact ⟨List.pairwise_singleton _ _, fun _ _ => trivial⟩

theorem parses_words : Parses wordsYaml stringLeaf (.map (.set .leaf)) words := by
  refine ⟨?_, ?_⟩
  · intro e he
    rcases List.mem_pair.mp he with rfl | rfl
    · refine ⟨fun _ _ => trivial, fun nodes hnodes => ?_⟩
      obtain rfl : [YamlNode.scalar "b", .scalar "c"] = nodes := Option.some.inj hnodes
      rfl
    · refine ⟨fun _ _ => trivial, fun nodes hnodes => ?_⟩
      obtain rfl : [YamlNode.scalar "c"] = nodes := Option.some.inj hnodes
      rfl
  · intro nodes hnodes
    obtain rfl : [("x", YamlNode.sequence [.scalar "b", .scalar "c"]),
        ("y", .sequence [.scalar "c"])] = nodes := Option.some.inj hnodes
    rfl

theorem stable_word (a : String) (ha : a = "b" ∨ a = "c") : Stable wordsYaml stringLeaf a := by
  rw [stable_string_iff]
  rcases ha with rfl | rfl
  · exact ⟨.scalar "b", rfl, rfl⟩
  · exact ⟨.scalar "c", rfl, rfl⟩

theorem decode_encode_container_words :
    (encode wordsYaml stringLeaf (.map (.set .leaf)) words).bind
      (decode wordsYaml stringLeaf (.map (.set .leaf))) = some words := by
  apply (decode_encode_container wordsYaml stringLeaf (.map (.set .leaf)) (by decide) words
    wellFormed_words parses_words).1
  rintro a ⟨e, he, x, hx, rfl⟩
  rcases List.mem_pair.mp he with rfl | rfl
  · exact stable_word x (List.mem_pair.mp hx)
  · exact stable_word x (.inr (List.mem_singleton.mp hx))

/-- The empty string comes back as the text of a null node. -/
theorem decode_encode_empty_string :
    (encode wordsYaml stringLeaf (.vector .leaf) [""]).bind
      (decode wordsYaml stringLeaf (.vector .leaf)) = some ["~"] := rfl

end Words

end LexicalCast

end ServerFramework
