import PyTagsFs.Regex

/-! # What the source tree representation talks to

The source tree (`pytagsfs.sourcetree`), the meta store, the monitor and the path
property cache (`pytagsfs.pathpropcache`). The source tree is a table of its paths, each a
directory or a file with the answers of `isreadable`, `issymlink` and `lstat`; `walk` lists
children in table order. A meta store keeps one `Values` per real path and refuses the keys
it cannot set. A strict monitor raises `WatchExistsError` and `NoSuchWatchError` as the
kqueue monitor does; a lenient one never raises. -/
namespace PyTagsFs

/-- The ten fields of an `os.stat_result`. -/
structure Stat where
  mode : Nat
  ino : Nat
  dev : Nat
  nlink : Nat
  uid : Nat
  gid : Nat
  size : Nat
  atime : Nat
  mtime : Nat
  ctime : Nat
  deriving DecidableEq, Repr

inductive SourceNode where
  | directory (stat : Stat)
  | file (readable symlink : Bool) (stat : Stat)
  deriving DecidableEq, Repr

/-- `os.path.join` of a directory and a name. -/
def joinPath (directory name : String) : String :=
  if directory.data.getLast? = some '/' then directory ++ name else directory ++ "/" ++ name

structure SourceTree where
  root : RealPath
  nodes : Dict RealPath SourceNode

namespace SourceTree

def isreadable (t : SourceTree) (path : RealPath) : Bool :=
  match t.nodes.get? path with
  | some (.file readable _ _) => readable
  | _ => false

def issymlink (t : SourceTree) (path : RealPath) : Bool :=
  match t.nodes.get? path with
  | some (.file _ symlink _) => symlink
  | _ => false

def lstat (t : SourceTree) (path : RealPath) : Except Error Stat :=
  match t.nodes.get? path with
  | some (.directory stat) | some (.file _ _ stat) => pure stat
  | none => throw (.osError path)

/-- `os.utime(path, (atime, mtime))`. -/
def utime (path : RealPath) (times : Nat × Nat) : EStateM Error SourceTree Unit := fun t =>
  let touch := fun (stat : Stat) => { stat with atime := times.1, mtime := times.2 }
  match t.nodes.get? path with
  | some (.directory stat) => .ok () { t with nodes := t.nodes.set path (.directory (touch stat)) }
  | some (.file readable symlink stat) =>
    .ok () { t with nodes := t.nodes.set path (.file readable symlink (touch stat)) }
  | none => .error (.osError path) t

/-- The names below a directory, split into directories and files as `os.walk` does. -/
def children (t : SourceTree) (path : RealPath) : List String × List String :=
  let pre := (joinPath path "").data
  t.nodes.items.foldr (fun (p, node) (dirnames, filenames) =>
    let name := p.data.drop pre.length
    if !pre.isPrefixOf p.data || name = [] || '/' ∈ name then (dirnames, filenames)
    else match node with
      | .directory _ => (String.mk name :: dirnames, filenames)
      | .file _ _ _ => (dirnames, String.mk name :: filenames)) ([], [])

/-- `os.walk`, top-down: nothing below a path that is not a directory. -/
def walkWithFuel (t : SourceTree) : Nat → RealPath → List (RealPath × List String × List String)
  | 0, _ => []
  | fuel + 1, path =>
    match t.nodes.get? path with
    | some (.directory _) =>
      let (dirnames, filenames) := t.children path
      (path, dirnames, filenames) :: dirnames.flatMap fun d => t.walkWithFuel fuel (joinPath path d)
    | _ => []

def walk (t : SourceTree) (path : RealPath) : List (RealPath × List String × List String) :=
  t.walkWithFuel (t.nodes.keys.length + 1) path

def getRelativePath (t : SourceTree) (absPath : RealPath) : RealPath :=
  if t.root = "/" then absPath
  else match absPath.drop t.root.length with
    | "" => "/"
    | relPath => relPath

end SourceTree

structure MetaStore where
  values : Dict RealPath Values
  /-- The keys that `set` refuses for a path, as a tag format without them would. -/
  unsettableKeys : RealPath → List String

namespace MetaStore

/-- `get`: an empty `Values` for a path without tags. -/
def get (m : MetaStore) (path : RealPath) : Values := (m.values.get? path).getD Dict.empty

/-- Write `values` key by key over the current ones: an empty list deletes the key. -/
def apply (current values : Values) : Values :=
  values.items.foldl (fun v kv => if kv.2 = [] then v.erase kv.1 else v.set kv.1 kv.2) current

def set (path : RealPath) (values : Values) : EStateM Error MetaStore Unit := fun m =>
  match values.keys.find? (· ∈ m.unsettableKeys path) with
  | some key => .error (.unsettableKeyError key) m
  | none => .ok () { m with values := m.values.set path (apply (m.get path) values) }

end MetaStore

structure Monitor where
  strict : Bool
  watchedFiles : List RealPath
  watchedDirs : List RealPath

namespace Monitor

def addSourceFile (path : RealPath) : EStateM Error Monitor Unit := fun m =>
  if m.strict && path ∈ m.watchedFiles then .error .watchExistsError m
  else .ok () { m with watchedFiles := m.watchedFiles ++ [path] }

def removeSourceFile (path : RealPath) : EStateM Error Monitor Unit := fun m =>
  if m.strict && path ∉ m.watchedFiles then .error .noSuchWatchError m
  else .ok () { m with watchedFiles := m.watchedFiles.erase path }

def addSourceDir (path : RealPath) : EStateM Error Monitor Unit := fun m =>
  if m.strict && path ∈ m.watchedDirs then .error .watchExistsError m
  else .ok () { m with watchedDirs := m.watchedDirs ++ [path] }

def removeSourceDir (path : RealPath) : EStateM Error Monitor Unit := fun m =>
  if m.strict && path ∉ m.watchedDirs then .error .noSuchWatchError m
  else .ok () { m with watchedDirs := m.watchedDirs.erase path }

end Monitor

/-- The keys `STAT` and `ENTRIES` of the cache. -/
inductive CacheKey where
  | stat
  | entries
  deriving DecidableEq, Repr

inductive CacheValue where
  | stat (value : Stat)
  | entries (value : List Seg)
  deriving DecidableEq

/-- `PathPropCache`: per fake path, a dict from key to value. -/
structure PathPropCache where
  d : Dict FakePath (Dict CacheKey CacheValue)

namespace PathPropCache

def put (c : PathPropCache) (path : FakePath) (key : CacheKey) (value : CacheValue) : PathPropCache :=
  ⟨c.d.set path (((c.d.get? path).getD Dict.empty).set key value)⟩

def get (c : PathPropCache) (path : FakePath) (key : CacheKey) : Option CacheValue :=
  (c.d.get? path).bind (·.get? key)

/-- `prune(path, key)`, `KeyError` when there is nothing to delete. -/
def prune (path : FakePath) (key : Option CacheKey) : EStateM Error PathPropCache Unit := fun c =>
  match c.d.get? path, key with
  | none, _ => .error .keyError c
  | some pathD, some key =>
    if pathD.contains key then .ok () ⟨c.d.set path (pathD.erase key)⟩ else .error .keyError c
  | some _, none => .ok () ⟨c.d.erase path⟩

end PathPropCache

/-- A filter of `_make_filter`: a regex searched in the real or the fake path, maybe negated. -/
structure Filter where
  real : Bool
  negated : Bool
  search : String → Bool

end PyTagsFs
