import Mathlib.Data.List.Basic
import Mathlib.Data.List.Nodup

/-! # Paths, dicts, exceptions and the helpers of `pytagsfs.util`

Fake paths are kept as lists of segments: `split_path` and `join_path_abs` are inverse
on the normalised absolute paths every caller of the path store passes, and `[]` is `/`.
A Python dict is a list of items in iteration order with distinct keys. -/
namespace PyTagsFs

/-- One segment of a normalised fake path, as `split_path` yields it. -/
structure Seg where
  name : String
  nonempty : name ≠ ""
  no_sep : '/' ∉ name.data
  deriving DecidableEq

theorem Seg.data_ne_nil (a : Seg) : a.name.data ≠ [] := fun h => a.nonempty (String.ext h)

abbrev FakePath := List Seg
abbrev RealPath := String

/-! ## Python dicts -/

structure Dict (κ ν : Type) [DecidableEq κ] where
  items : List (κ × ν)
  nodup : (items.map Prod.fst).Nodup

namespace Dict
variable {κ ν : Type} [DecidableEq κ]

def empty : Dict κ ν := ⟨[], List.nodup_nil⟩

def lookup : List (κ × ν) → κ → Option ν
  | [], _ => none
  | (a, b) :: l, k => if a = k then some b else lookup l k

def replace : List (κ × ν) → κ → ν → List (κ × ν)
  | [], _, _ => []
  | (a, b) :: l, k, v => (a, if a = k then v else b) :: replace l k v

def eraseKey : List (κ × ν) → κ → List (κ × ν)
  | [], _ => []
  | (a, b) :: l, k => if a = k then eraseKey l k else (a, b) :: eraseKey l k

theorem keys_replace (l : List (κ × ν)) (k : κ) (v : ν) :
    (replace l k v).map Prod.fst = l.map Prod.fst := by
  induction l with
  | nil => rfl
  | cons p l ih => simp [replace, ih]

theorem keys_eraseKey_sublist (l : List (κ × ν)) (k : κ) :
    List.Sublist ((eraseKey l k).map Prod.fst) (l.map Prod.fst) := by
  induction l with
  | nil => exact List.Sublist.slnil
  | cons p l ih =>
    unfold eraseKey
    split
    · exact ih.cons _
    · exact ih.cons₂ _

theorem replace_of_not_mem (l : List (κ × ν)) (k : κ) (v : ν) (h : k ∉ l.map Prod.fst) :
    replace l k v = l := by
  induction l with
  | nil => rfl
  | cons p l ih =>
    obtain ⟨a, b⟩ := p
    simp only [List.map_cons, List.mem_cons, not_or] at h
    simp [replace, Ne.symm h.1, ih h.2]

theorem replace_replace (l : List (κ × ν)) (k : κ) (v w : ν) :
    replace (replace l k v) k w = replace l k w := by
  induction l with
  | nil => rfl
  | cons p l ih => obtain ⟨a, b⟩ := p; by_cases h : a = k <;> simp [replace, h, ih]

theorem replace_append_self (l : List (κ × ν)) (k : κ) (v w : ν) (h : k ∉ l.map Prod.fst) :
    replace (l ++ [(k, v)]) k w = l ++ [(k, w)] := by
  induction l with
  | nil => simp [replace]
  | cons p l ih =>
    obtain ⟨a, b⟩ := p
    simp only [List.map_cons, List.mem_cons, not_or] at h
    simp [replace, Ne.symm h.1, ih h.2]

/-- `d.get(k)`, `None` when `k` is no key. -/
def get? (d : Dict κ ν) (k : κ) : Option ν := lookup d.items k

def keys (d : Dict κ ν) : List κ := d.items.map Prod.fst

/-- `k in d`. -/
def contains (d : Dict κ ν) (k : κ) : Bool := k ∈ d.keys

/-- `d[k] = v`: an existing key keeps its place, a new one goes last. -/
def set (d : Dict κ ν) (k : κ) (v : ν) : Dict κ ν :=
  if h : k ∈ d.keys then ⟨replace d.items k v, by rw [keys_replace]; exact d.nodup⟩
  else ⟨d.items ++ [(k, v)], by
    rw [List.map_append, List.nodup_append]
    exact ⟨d.nodup, List.nodup_singleton _, List.disjoint_singleton.mpr h⟩⟩

/-- `del d[k]`, a no-op on a missing key (callers check membership first). -/
def erase (d : Dict κ ν) (k : κ) : Dict κ ν :=
  ⟨eraseKey d.items k, d.nodup.sublist (keys_eraseKey_sublist _ _)⟩

theorem ext_items {d₁ d₂ : Dict κ ν} (h : d₁.items = d₂.items) : d₁ = d₂ := by
  cases d₁; cases d₂; cases h; rfl

theorem lookup_eq_none_iff (l : List (κ × ν)) (k : κ) :
    lookup l k = none ↔ k ∉ l.map Prod.fst := by
  induction l with
  | nil => simp [lookup]
  | cons p l ih =>
    obtain ⟨a, b⟩ := p
    rw [List.map_cons, List.mem_cons, not_or]
    by_cases h : a = k
    · subst h; simp [lookup]
    · rw [lookup, if_neg h, ih]
      exact ⟨fun hk => ⟨fun e => h e.symm, hk⟩, And.right⟩

theorem get?_eq_none_iff (d : Dict κ ν) (k : κ) : d.get? k = none ↔ k ∉ d.keys :=
  lookup_eq_none_iff _ _

@[simp] theorem contains_iff (d : Dict κ ν) (k : κ) : d.contains k = true ↔ k ∈ d.keys := by
  simp [contains]

theorem mem_keys_iff (d : Dict κ ν) (k : κ) : k ∈ d.keys ↔ (d.get? k).isSome := by
  rw [← Option.ne_none_iff_isSome, Ne, get?_eq_none_iff, not_not]

theorem exists_of_contains {d : Dict κ ν} {k : κ} (h : d.contains k = true) : ∃ v, d.get? k = some v :=
  Option.isSome_iff_exists.1 ((mem_keys_iff d k).1 ((contains_iff d k).1 h))

theorem contains_eq_isSome (d : Dict κ ν) (k : κ) : d.contains k = (d.get? k).isSome :=
  Bool.eq_iff_iff.mpr ((contains_iff d k).trans (mem_keys_iff d k))

theorem get?_eq_none_of_contains {d : Dict κ ν} {k : κ} (h : d.contains k = false) : d.get? k = none :=
  (get?_eq_none_iff d k).2 fun hk => by simp [(contains_iff d k).2 hk] at h

@[simp] theorem get?_empty (k : κ) : (empty : Dict κ ν).get? k = none := rfl

theorem lookup_replace (l : List (κ × ν)) (k k' : κ) (v : ν) :
    lookup (replace l k v) k' = if k = k' ∧ k ∈ l.map Prod.fst then some v else lookup l k' := by
  induction l with
  | nil => simp [replace, lookup]
  | cons p l ih =>
    obtain ⟨a, b⟩ := p
    simp only [replace, lookup, ih, List.map_cons, List.mem_cons]
    by_cases h : a = k'
    · subst h; by_cases h' : a = k
      · subst h'; simp
      · simp [h', Ne.symm h']
    · by_cases h' : k = k'
      · subst h'
        have hk : k ≠ a := fun e => h e.symm
        simp only [true_and, hk, h, false_or, if_false]
      · simp [h, h']

theorem lookup_append (l : List (κ × ν)) (k k' : κ) (v : ν) (h : k ∉ l.map Prod.fst) :
    lookup (l ++ [(k, v)]) k' = if k = k' then some v else lookup l k' := by
  induction l with
  | nil => simp [lookup]
  | cons p l ih =>
    obtain ⟨a, b⟩ := p
    simp only [List.map_cons, List.mem_cons, not_or] at h
    have ha : k ≠ a := h.1
    rw [List.cons_append, lookup, lookup, ih h.2]
    by_cases h' : a = k'
    · subst h'; simp [ha]
    · simp [h']

theorem lookup_eraseKey (l : List (κ × ν)) (k k' : κ) :
    lookup (eraseKey l k) k' = if k = k' then none else lookup l k' := by
  induction l with
  | nil => simp [eraseKey, lookup]
  | cons p l ih =>
    obtain ⟨a, b⟩ := p
    by_cases h : a = k
    · subst h; rw [eraseKey, if_pos rfl, ih, lookup]; by_cases h' : a = k' <;> simp [h']
    · rw [eraseKey, if_neg h, lookup, lookup, ih]
      by_cases h' : a = k'
      · subst h'; simp [Ne.symm h]
      · simp [h']

@[simp] theorem get?_set (d : Dict κ ν) (k k' : κ) (v : ν) :
    (d.set k v).get? k' = if k = k' then some v else d.get? k' := by
  unfold set get?
  split
  · next h =>
    rw [lookup_replace]; simp only [keys] at h; simp only [h, and_true]
  · next h => exact lookup_append _ _ _ _ h

theorem set_items_of_mem (d : Dict κ ν) (k : κ) (v : ν) (h : k ∈ d.keys) :
    (d.set k v).items = replace d.items k v := by simp [set, h]

theorem set_items_of_not_mem (d : Dict κ ν) (k : κ) (v : ν) (h : k ∉ d.keys) :
    (d.set k v).items = d.items ++ [(k, v)] := by simp [set, h]

theorem mem_keys_set (d : Dict κ ν) (k : κ) (v : ν) : k ∈ (d.set k v).keys := by
  rw [mem_keys_iff, get?_set]; simp

@[simp] theorem keys_empty : (empty : Dict κ ν).keys = [] := rfl

@[simp] theorem mem_keys_set_iff (d : Dict κ ν) (k k' : κ) (v : ν) :
    k' ∈ (d.set k v).keys ↔ k = k' ∨ k' ∈ d.keys := by
  rw [mem_keys_iff, mem_keys_iff, get?_set]
  by_cases h : k = k' <;> simp [h]

@[simp] theorem set_set (d : Dict κ ν) (k : κ) (v w : ν) : (d.set k v).set k w = d.set k w := by
  apply ext_items
  rw [set_items_of_mem _ _ _ (mem_keys_set d k v)]
  by_cases h : k ∈ d.keys
  · rw [set_items_of_mem _ _ _ h, set_items_of_mem _ _ _ h, replace_replace]
  · rw [set_items_of_not_mem _ _ _ h, set_items_of_not_mem _ _ _ h]
    exact replace_append_self _ _ _ _ h

@[simp] theorem get?_erase (d : Dict κ ν) (k k' : κ) :
    (d.erase k).get? k' = if k = k' then none else d.get? k' :=
  lookup_eraseKey _ _ _

/-- A dict whose every key is `k` has at most the one item of `k`. -/
theorem items_of_keys_eq (d : Dict κ ν) (k : κ) (h : ∀ k' ∈ d.keys, k' = k) :
    d.items = [] ∨ ∃ v, d.items = [(k, v)] := by
  obtain ⟨items, nodup⟩ := d
  simp only [keys] at h
  match items, nodup, h with
  | [], _, _ => exact .inl rfl
  | [(k', v)], _, h => exact .inr ⟨v, by simp [h k' (by simp)]⟩
  | (k₁, _) :: (k₂, _) :: _, nodup, h =>
    simp only [List.map_cons, List.nodup_cons, List.mem_cons] at nodup
    exact absurd (.inl ((h k₁ (by simp)).trans (h k₂ (by simp)).symm)) nodup.1

def mapValues {ν' : Type} (f : ν → ν') (d : Dict κ ν) : Dict κ ν' :=
  ⟨d.items.map fun p => (p.1, f p.2), by rw [List.map_map]; exact d.nodup⟩

theorem lookup_map {ν' : Type} (f : ν → ν') (l : List (κ × ν)) (k : κ) :
    lookup (l.map fun p => (p.1, f p.2)) k = (lookup l k).map f := by
  induction l with
  | nil => rfl
  | cons p l ih => obtain ⟨a, b⟩ := p; by_cases h : a = k <;> simp [lookup, h, ih]

@[simp] theorem get?_mapValues {ν' : Type} (f : ν → ν') (d : Dict κ ν) (k : κ) :
    (d.mapValues f).get? k = (d.get? k).map f := lookup_map _ _ _

/-- Keep the items whose value `f` maps to `some`. -/
def filterMap {ν' : Type} (f : ν → Option ν') (d : Dict κ ν) : Dict κ ν' :=
  ⟨d.items.filterMap fun p => (f p.2).map (p.1, ·), by
    refine List.Nodup.sublist ?_ d.nodup
    induction d.items with
    | nil => exact List.Sublist.slnil
    | cons p l ih => cases h : f p.2 <;> simp [h, ih]⟩

theorem lookup_filterMap {ν' : Type} (f : ν → Option ν') (l : List (κ × ν)) (k : κ)
    (hl : (l.map Prod.fst).Nodup) :
    lookup (l.filterMap fun p => (f p.2).map (p.1, ·)) k = (lookup l k).bind f := by
  induction l with
  | nil => rfl
  | cons p l ih =>
    obtain ⟨a, b⟩ := p
    rw [List.map_cons, List.nodup_cons] at hl
    by_cases hk : a = k
    · subst hk
      have : lookup l a = none := (lookup_eq_none_iff l a).mpr hl.1
      cases h : f b <;> simp [lookup, h, ih hl.2, this]
    · cases h : f b <;> simp [lookup, h, hk, ih hl.2]

@[simp] theorem get?_filterMap {ν' : Type} (f : ν → Option ν') (d : Dict κ ν) (k : κ) :
    (d.filterMap f).get? k = (d.get? k).bind f := lookup_filterMap _ _ _ d.nodup

end Dict

/-! ## The two de-duplicators of `pytagsfs.util` -/

section Unique
variable {α : Type} [DecidableEq α]

/-- The generator `unique`: `seen` grows by every item, yielded or not. -/
def unique.go : List α → List α → List α
  | _, [] => []
  | seen, x :: xs => if x ∈ seen then go (seen ++ [x]) xs else x :: go (seen ++ [x]) xs

def unique (l : List α) : List α := unique.go [] l

/-- `last_unique`: remove the first equal item of `result` and append. -/
def lastUnique (l : List α) : List α := l.foldl (fun result item => result.erase item ++ [item]) []

end Unique

/-! ## Exceptions

Every exception the modelled code raises, with the argument its class stores.
Messages that only serve logging are left out. -/

inductive Error where
  | fakePathNotFound (path : FakePath)
  | realPathNotFound (path : RealPath)
  | notADirectory (path : FakePath)
  | isADirectory (path : FakePath)
  | pathExists (path : FakePath)
  | directoryNotEmpty (path : FakePath)
  | noMetaDataExists (entry : Seg)
  | notAnEndPoint (path : FakePath)
  | directoryAlreadyExistsInEntryStore (directory : FakePath)
  | directoryDoesNotExistInEntryStore (directory : FakePath)
  | valueError
  | keyError
  | indexError
  | assertionError
  | invalidArgument
  | unrepresentablePath (message : String)
  | patternSyntaxError (pattern : String) (offset : Nat)
  | splitError (regexString splitString : String)
  | fillError (expression : String) (parameters : List String)
  | reError
  | unsettableKeyError (key : String)
  | watchExistsError
  | noSuchWatchError
  | sourceTreeMonitorError
  | nameError
  /-- `OSError` of `os.lstat` or `os.utime` on a missing source path. -/
  | osError (path : RealPath)
  deriving DecidableEq

/-- `except PathNotFound`. -/
def Error.isPathNotFound : Error → Bool
  | .fakePathNotFound _ | .realPathNotFound _ => true
  | _ => false

/-- `except pytagsfs.subspat.Error`. -/
def Error.isPatternError : Error → Bool
  | .patternSyntaxError _ _ | .splitError _ _ | .fillError _ _ => true
  | _ => false

/-! ## Running `EStateM`

An exception keeps the state it was raised in, as a Python exception keeps the effects
made before it; `try`/`except` does not roll them back. -/

section Run
variable {ε σ α β : Type} (s : σ)

@[simp] theorem pure_apply (a : α) : (pure a : EStateM ε σ α) s = .ok a s := rfl
@[simp] theorem bind_apply (x : EStateM ε σ α) (f : α → EStateM ε σ β) :
    (x >>= f) s = EStateM.bind x f s := rfl
@[simp] theorem throw_apply (e : ε) : (throw e : EStateM ε σ α) s = .error e s := rfl
@[simp] theorem get_apply : (get : EStateM ε σ σ) s = .ok s s := rfl
@[simp] theorem set_apply (s' : σ) : (set s' : EStateM ε σ PUnit) s = .ok ⟨⟩ s' := rfl
@[simp] theorem modify_apply (f : σ → σ) : (modify f : EStateM ε σ PUnit) s = .ok ⟨⟩ (f s) := rfl
@[simp] theorem map_apply (f : α → β) (x : EStateM ε σ α) : (f <$> x) s = EStateM.map f x s := rfl
@[simp] theorem seqRight_apply (x : EStateM ε σ α) (y : EStateM ε σ β) :
    (x *> y) s = EStateM.seqRight x (fun _ => y) s := rfl
@[simp] theorem tryCatch_apply (x : EStateM ε σ α) (h : ε → EStateM ε σ α) :
    (tryCatch x h) s = EStateM.tryCatch x h s := rfl
@[simp] theorem tryCatch_run (x : EStateM ε σ α) (h : ε → EStateM ε σ α) :
    EStateM.tryCatch x h s = match x s with | .ok a s => .ok a s | .error e s => h e s := by
  unfold EStateM.tryCatch; cases x s <;> rfl
attribute [simp] EStateM.bind EStateM.map EStateM.seqRight

end Run

/-- The state an operation leaves, whether it returned or raised. -/
def stateOf {ε σ α : Type} : EStateM.Result ε σ α → σ
  | .ok _ s => s
  | .error _ s => s

/-- The exception an operation raised, if any. -/
def errorOf {ε σ α : Type} : EStateM.Result ε σ α → Option ε
  | .ok _ _ => none
  | .error e _ => some e

/-- The value an operation returned, if it did. -/
def valueOf {ε σ α : Type} : EStateM.Result ε σ α → Option α
  | .ok a _ => some a
  | .error _ _ => none

@[simp] theorem stateOf_ok {ε σ α : Type} (a : α) (s : σ) : stateOf (.ok a s : EStateM.Result ε σ α) = s := rfl
@[simp] theorem stateOf_error {ε σ α : Type} (e : ε) (s : σ) :
    stateOf (.error e s : EStateM.Result ε σ α) = s := rfl

/-- A call that raised nothing returned, in the state it left. -/
theorem eq_ok_of_errorOf {ε σ : Type} {x : EStateM.Result ε σ Unit} (h : errorOf x = none) :
    x = .ok () (stateOf x) := by
  cases x
  · rfl
  · cases h

end PyTagsFs
