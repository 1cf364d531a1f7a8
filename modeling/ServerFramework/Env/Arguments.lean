import Mathlib.Data.List.Induction
import Mathlib.Logic.Function.Basic
import Mathlib.Tactic.SplitIfs

/-! # Command-line arguments

`Init` carries the last option until it knows whether a value follows. It accepts the sequences of
options with at most one value each, and keeps the value of the last occurrence of each option.
-/

namespace ServerFramework

/-- An `Env` with its `args_`. -/
structure Env where
  args : List Char → Option (List Char)

namespace Env

def empty : Env := ⟨fun _ => none⟩

def add (env : Env) (key val : List Char) : Env := ⟨Function.update env.args key (some val)⟩

def has (env : Env) (key : List Char) : Bool := (env.args key).isSome

def get (env : Env) (key defaultValue : List Char) : List Char := (env.args key).getD defaultValue

/-- `Add(now_key, "")`, if there is a key. -/
def addPending (env : Env) : Option (List Char) → Env
  | some key => env.add key []
  | none => env

/-- The loop of `Init` over the arguments that are left, and what it does at their end. -/
def initLoop : List (List Char) → Option (List Char) → Env → Bool × Env
  | [], nowKey, env => (true, env.addPending nowKey)
  | arg :: argv, nowKey, env =>
    if arg.head? = some '-' then
      if arg.length > 1 then initLoop argv (some arg.tail) (env.addPending nowKey)
      else (false, env)
    else
      match nowKey with
      | some key => initLoop argv none (env.add key arg)
      | none => (false, env)

/-- `Init`, with the arguments behind `argv[0]`. -/
def init (argv : List (List Char)) (env : Env) : Bool × Env := initLoop argv none env

/-- A sequence of options, each with the value that follows it or an empty one. -/
inductive Options : List (List Char) → List (List Char × List Char) → Prop where
  | nil : Options [] []
  | bare {key : List Char} {argv : List (List Char)} {kvs : List (List Char × List Char)} :
      key ≠ [] → Options argv kvs → Options (('-' :: key) :: argv) ((key, []) :: kvs)
  | valued {key val : List Char} {argv : List (List Char)} {kvs : List (List Char × List Char)} :
      key ≠ [] → val.head? ≠ some '-' → Options argv kvs →
      Options (('-' :: key) :: val :: argv) ((key, val) :: kvs)

/-- The value of the last occurrence of the key. -/
def lastValue (kvs : List (List Char × List Char)) (key : List Char) : Option (List Char) :=
  (kvs.reverse.find? (·.1 = key)).map Prod.snd

section Accepted

variable {argv : List (List Char)} {kvs : List (List Char × List Char)} {key : List Char}
  {env : Env}

theorem initLoop_option (hkey : key ≠ []) (argv : List (List Char)) (nowKey : Option (List Char))
    (env : Env) :
    initLoop (('-' :: key) :: argv) nowKey env =
      initLoop argv (some key) (env.addPending nowKey) := by
  have hlen : ('-' :: key).length > 1 := by
    rw [List.length_cons]
    exact Nat.succ_lt_succ (List.length_pos_iff.mpr hkey)
  cases nowKey <;> rw [initLoop, List.head?_cons, if_pos rfl, if_pos hlen, List.tail_cons]

/-- A single dash is no option. -/
theorem initLoop_dash (argv : List (List Char)) (nowKey : Option (List Char)) (env : Env) :
    initLoop (['-'] :: argv) nowKey env = (false, env) := by
  cases nowKey <;> rfl

theorem initLoop_value {val : List Char} (hval : val.head? ≠ some '-') (argv : List (List Char))
    (key : List Char) (env : Env) :
    initLoop (val :: argv) (some key) env = initLoop argv none (env.add key val) := by
  rw [initLoop, if_neg hval]

/-- A value needs a key. -/
theorem initLoop_stray {val : List Char} (hval : val.head? ≠ some '-') (argv : List (List Char))
    (env : Env) : initLoop (val :: argv) none env = (false, env) := by
  rw [initLoop, if_neg hval]

/-- A key that is pending before an option, or at the end, has no value. -/
theorem initLoop_pending (h : Options argv kvs) (key : List Char) (env : Env) :
    initLoop argv (some key) env = initLoop argv none (env.add key []) := by
  cases h with
  | nil => rfl
  | bare hkey _ => rw [initLoop_option hkey, initLoop_option hkey]; rfl
  | valued hkey _ _ => rw [initLoop_option hkey, initLoop_option hkey]; rfl

/-- A sequence of options is accepted, and its values are added one by one. -/
theorem initLoop_of_options (h : Options argv kvs) (env : Env) :
    initLoop argv none env = (true, kvs.foldl (fun env kv => env.add kv.1 kv.2) env) := by
  induction h generalizing env with
  | nil => rfl
  | bare hkey h ih => rw [initLoop_option hkey, initLoop_pending h, ih]; rfl
  | valued hkey hval h ih => rw [initLoop_option hkey, initLoop_value hval, ih]; rfl

/-- Only sequences of options are accepted, with and without a pending key. -/
theorem exists_options (argv : List (List Char)) (env : Env) :
    ((initLoop argv none env).1 = true → ∃ kvs, Options argv kvs) ∧
      ∀ key, key ≠ [] → (initLoop argv (some key) env).1 = true →
        ∃ kvs, Options (('-' :: key) :: argv) kvs := by
  induction argv generalizing env with
  | nil => exact ⟨fun _ => ⟨[], .nil⟩, fun key hkey _ => ⟨[(key, [])], .bare hkey .nil⟩⟩
  | cons arg argv ih =>
    by_cases harg : arg.head? = some '-'
    · obtain ⟨rest, rfl⟩ := List.head?_eq_some_iff.mp harg
      by_cases hrest : rest = []
      · simp [hrest, initLoop_dash]
      · simp only [initLoop_option hrest]
        refine ⟨(ih _).2 rest hrest, fun key hkey h => ?_⟩
        obtain ⟨kvs, hkvs⟩ := (ih _).2 rest hrest h
        exact ⟨(key, []) :: kvs, .bare hkey hkvs⟩
    · constructor
      · rw [initLoop_stray harg]
        intro h
        cases h
      · intro key hkey h
        rw [initLoop_value harg] at h
        obtain ⟨kvs, hkvs⟩ := (ih _).1 h
        exact ⟨(key, arg) :: kvs, .valued hkey harg hkvs⟩

theorem args_foldl_add (kvs : List (List Char × List Char)) (env : Env) (key : List Char) :
    (kvs.foldl (fun env kv => env.add kv.1 kv.2) env).args key =
      (lastValue kvs key).or (env.args key) := by
  induction kvs using List.reverseRecOn with
  | nil => rfl
  | append_singleton kvs kv ih =>
    rw [List.foldl_append, List.foldl_cons, List.foldl_nil, lastValue, List.reverse_append,
      List.reverse_singleton, List.singleton_append, List.find?_cons]
    by_cases hkey : kv.1 = key
    · simp [add, hkey]
    · simpa [add, hkey, Function.update_of_ne (Ne.symm hkey), lastValue] using ih

theorem lastValue_isSome_iff (kvs : List (List Char × List Char)) (key : List Char) :
    (lastValue kvs key).isSome = true ↔ key ∈ kvs.map Prod.fst := by
  rw [lastValue, Option.isSome_map, List.find?_isSome]
  simp

end Accepted

/-- `Init` accepts the sequences of options, whatever there was before. Each option has its last
value then, and other keys what they had; of a new `Env`, `Has` and `Get` find the options and their
last values. -/
theorem init_options (argv : List (List Char)) :
    (∀ env : Env, (init argv env).1 = true ↔ ∃ kvs, Options argv kvs) ∧
      ∀ kvs, Options argv kvs → ∀ key,
        (∀ env : Env, (init argv env).2.args key = (lastValue kvs key).or (env.args key)) ∧
        ((init argv empty).2.has key = true ↔ key ∈ kvs.map Prod.fst) ∧
        ∀ defaultValue, (init argv empty).2.get key defaultValue =
          (lastValue kvs key).getD defaultValue := by
  constructor
  · intro env
    constructor
    · exact (exists_options argv env).1
    · rintro ⟨kvs, hkvs⟩
      rw [init, initLoop_of_options hkvs]
  · intro kvs hkvs key
    have hkept : ∀ env : Env,
        (init argv env).2.args key = (lastValue kvs key).or (env.args key) := by
      intro env
      rw [init, initLoop_of_options hkvs, args_foldl_add]
    have hargs : (init argv empty).2.args key = lastValue kvs key :=
      (hkept empty).trans Option.or_none
    refine ⟨hkept, ?_, ?_⟩
    · rw [has, hargs, lastValue_isSome_iff]
    · intro defaultValue
      rw [get, hargs]

end Env

end ServerFramework
