import PyTagsFs.PathStoreInvariant

/-! # The stack model of the path store

What the path store is meant to be: each fake path holds a stack of real paths, the top
one authoritative, each paired with the metadata set while it was on top. -/
namespace PyTagsFs

/-- A stack per fake path, top last, of `(real path, metadata)` pairs. -/
structure StackStore (μ : Type) where
  pairs : FakePath → List (RealPath × Option μ)

namespace StackStore
variable {μ : Type}

def initial : StackStore μ := ⟨fun _ => []⟩

def update (a : StackStore μ) (f : FakePath) (g : List (RealPath × Option μ) → List (RealPath × Option μ)) :
    StackStore μ :=
  ⟨Function.update a.pairs f (g (a.pairs f))⟩

/-- Replace the metadata of the top pair. -/
def setTop (m : Option μ) : List (RealPath × Option μ) → List (RealPath × Option μ)
  | [] => []
  | l => l.dropLast ++ l.getLast?.toList.map fun p => (p.1, m)

/-- Delete the most recent pair of a real path. -/
def removeLast (r : RealPath) (l : List (RealPath × Option μ)) : List (RealPath × Option μ) :=
  (l.reverse.eraseP (·.1 = r)).reverse

def apply (a : StackStore μ) : PyTypesPathStore.Op μ → StackStore μ
  | .addFile f r => a.update f (· ++ [(r, none)])
  | .addDirectory _ => a
  | .remove f none => a.update f List.dropLast
  | .remove f (some r) => a.update f (removeLast r)
  | .rename f g => match (a.pairs f).getLast? with
    | some (r, _) => (a.update f List.dropLast).update g (· ++ [(r, none)])
    | none => a
  | .setMetaData f m => a.update f (setTop (some m))
  | .unsetMetaData f => a.update f (setTop none)

def runTrace (a : StackStore μ) : List (PyTypesPathStore.Op μ) → StackStore μ
  | [] => a
  | op :: ops => runTrace (a.apply op) ops

def topRealPath (a : StackStore μ) (f : FakePath) : Option RealPath := ((a.pairs f).getLast?).map (·.1)

def topMetaData (a : StackStore μ) (f : FakePath) : Option μ := ((a.pairs f).getLast?).bind (·.2)

end StackStore

namespace PyTypesPathStore

/-- Two real paths stacked on `/foo`, each given metadata while on top, then the lower
one removed by name. -/
def removeLowerTrace : List (Op Nat) :=
  [.addFile [segFoo] "/bar", .setMetaData [segFoo] 1, .addFile [segFoo] "/baz", .setMetaData [segFoo] 2,
    .remove [segFoo] (some "/bar")]

/-- Removing a real path that is not on top of its stack: the real-path list drops the
first occurrence, `_locate_entry` drops the last entry, so the metadata that survives is
the removed pair's and not the remaining top pair's. -/
theorem remove_lower_real_path_keeps_its_metadata :
    ValidTrace initial removeLowerTrace ∧
      (StackStore.runTrace StackStore.initial removeLowerTrace).topRealPath [segFoo] = some "/baz" ∧
      (StackStore.runTrace StackStore.initial removeLowerTrace).topMetaData [segFoo] = some 2 ∧
      (runTrace initial removeLowerTrace).getRealPath [segFoo] = .ok "/baz" ∧
      (runTrace initial removeLowerTrace).getMetaData [segFoo] = .ok 1 :=
  ⟨by decide, by decide, by decide, rfl, rfl⟩

end PyTypesPathStore

end PyTagsFs
