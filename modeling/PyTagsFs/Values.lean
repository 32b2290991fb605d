import PyTagsFs.Basic

/-! # The multi-valued tag algebra of `pytagsfs.values`

`Values` maps a key to the list of its values. A permutation, and every other flat
substitution map that `fill` reads, maps a key to one string. `popitem` removes the
first item in iteration order; CPython leaves that choice to its hash table. -/
namespace PyTagsFs

abbrev Values := Dict String (List String)

/-- A flat dict such as one permutation: `key -> value`. -/
abbrev Substitutions := Dict String String

namespace Values

/-- `set(a) == set(b)`. -/
def sameSet (a b : List String) : Bool := a.all (· ∈ b) && b.all (· ∈ a)

/-- `Values.from_flat_dict`: `None` becomes the empty list. -/
def fromFlatDict (d : Dict String (Option String)) : Values := d.mapValues Option.toList

/-- One pass of `combine`'s outer loop: extend a known key, copy a new one. -/
def combineInto (merged values : Values) : Values :=
  values.items.foldl (fun m kv => match m.get? kv.1 with
    | some l => m.set kv.1 (l ++ kv.2)
    | none => m.set kv.1 kv.2) merged

def combine (listOfValues : List Values) : Values :=
  (listOfValues.foldl combineInto Dict.empty).mapValues unique

/-- The loop of `diff2` over `old`, starting from a copy of `new`. -/
def diff2 (old new : Values) : Values :=
  old.items.foldl (fun difference kv => match difference.get? kv.1 with
    | some l => if sameSet l kv.2 then difference.erase kv.1 else difference
    | none => difference.set kv.1 []) new

/-- `merged_values`: one occurrence of each old value removed, where present. -/
def removeValues (baseValues oldValues : List String) : List String :=
  oldValues.foldl List.erase baseValues

/-- `diff3`; reading `old[k]` for a key of `base` and of the difference that `old` lacks
raises `KeyError`. -/
def diff3 (base old new : Values) : Except Error Values :=
  let difference := diff2 old new
  let merged := base.keys.foldl (fun m k => if difference.contains k then m else m.erase k) base
  difference.items.foldlM (fun merged kv =>
    match base.get? kv.1 with
    | none => pure (merged.set kv.1 kv.2)
    | some baseValues => match old.get? kv.1 with
      | none => throw .keyError
      | some oldValues => pure (merged.set kv.1 (removeValues baseValues oldValues ++ kv.2)))
    merged

def iterPermutationsOf : List (String × List String) → List Substitutions
  | [] => [Dict.empty]
  | (key, values) :: rest =>
    (iterPermutationsOf rest).flatMap fun d => values.map fun value => d.set key value

/-- `iter_permutations`, as the list of the dicts it yields, in order. -/
def iterPermutations (v : Values) : List Substitutions := iterPermutationsOf v.items

@[simp] theorem get?_fromFlatDict (d : Dict String (Option String)) (k : String) :
    (fromFlatDict d).get? k = (d.get? k).map Option.toList := by
  simp [fromFlatDict]

end Values

end PyTagsFs
