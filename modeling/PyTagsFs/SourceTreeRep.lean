import PyTagsFs.SourceTree
import PyTagsFs.PathStore

/-! # `SourceTreeRepresentation`

The orchestrator of `pytagsfs.sourcetreerep`: it maps source files to fake paths filled
from their tags, keeps the path store, the monitor and the cache in step with the source
tree, and turns renames of fake paths into tag edits. Fake paths arrive as segment lists,
so `validate_fake_path` holds of every one. An exception that the code logs and swallows is
a branch that returns; every other one propagates, with the state as it was left. -/
namespace PyTagsFs

/-- The path-store metadata of an end point, `{'splitters': splitters}`. -/
structure MetaData where
  splitters : List Splitter

/-- `join_path_abs` of a fake path. -/
def FakePath.toString (p : FakePath) : String := "/" ++ "/".intercalate (p.map Seg.name)

structure Rep where
  metaStore : MetaStore
  substitutionPatterns : List SubstitutionPattern
  pathStore : PyTypesPathStore MetaData
  sourceTree : SourceTree
  monitor : Monitor
  cache : Option PathPropCache
  filters : List Filter

namespace Rep

abbrev M := EStateM Error Rep

def onPathStore {α : Type} : EStateM Error (PyTypesPathStore MetaData) α → M α :=
  zoom pathStore fun s p => { s with pathStore := p }

def onMetaStore {α : Type} : EStateM Error MetaStore α → M α :=
  zoom metaStore fun s m => { s with metaStore := m }

def onSourceTree {α : Type} : EStateM Error SourceTree α → M α :=
  zoom sourceTree fun s t => { s with sourceTree := t }

def onMonitor {α : Type} : EStateM Error Monitor α → M α :=
  zoom monitor fun s m => { s with monitor := m }

/-- Run a monitor call; a failure among `errors` is logged and makes the caller return. -/
def tryMonitor (call : EStateM Error Monitor Unit) (errors : Error → Bool) : M Bool := do
  tryCatch (do onMonitor call; pure true) fun e => if errors e then pure false else throw e

/-! ## Paths -/

/-- `fill_path`: one segment per pattern; a fill error, an empty segment or a slash makes the
path unrepresentable. -/
def fillPath (s : Rep) (substitutions : Substitutions) : Except Error FakePath :=
  s.substitutionPatterns.mapM fun substitutionPattern =>
    match substitutionPattern.fill substitutions with
    | .error (.fillError expression _) => throw (.unrepresentablePath ("failed to fill expression " ++ expression))
    | .error e => throw e
    | .ok fakePathPart =>
      if h₁ : fakePathPart = "" then
        throw (.unrepresentablePath "fake path would have a path segment with length zero")
      else if h₂ : '/' ∈ fakePathPart.data then
        throw (.unrepresentablePath "fake path would have a path segment with a slash")
      else pure ⟨fakePathPart, h₁, h₂⟩

/-- `_create_splitters`: the splitters of the patterns down to the path's depth. -/
def createSplitters (s : Rep) (fakePath : FakePath) (values : Substitutions) : Except Error (List Splitter) :=
  (s.substitutionPatterns.take fakePath.length).mapM fun sp => sp.getSplitter values

def setSplitters (fakePath : FakePath) (splitters : List Splitter) : M Unit :=
  onPathStore (PyTypesPathStore.setMetaData fakePath ⟨splitters⟩)

def filterPath (s : Rep) (realPath : RealPath) (fakePath : String) : Bool :=
  s.filters.all fun f => f.negated != f.search (if f.real then realPath else fakePath)

/-! ## The cache -/

def cachePut (fakePath : FakePath) (key : CacheKey) (value : CacheValue) : M Unit :=
  modify fun s => { s with cache := s.cache.map (·.put fakePath key value) }

def cacheGet (s : Rep) (fakePath : FakePath) (key : CacheKey) : Option CacheValue :=
  s.cache.bind (·.get fakePath key)

/-- `_cache_prune_branch_to`: the path and each ancestor up to `/`; a `KeyError` is ignored. -/
def cachePruneBranchTo (fakePath : FakePath) (key : Option CacheKey) : M Unit :=
  modify fun s => { s with cache := s.cache.map fun c =>
    fakePath.inits.reverse.foldl (fun c p => stateOf (PathPropCache.prune p key c)) c }

/-! ## Path store queries -/

def getRealPath (fakePath : FakePath) : M RealPath := do liftExcept ((← get).pathStore.getRealPath fakePath)
def getFakePaths (realPath : RealPath) : M (List FakePath) := do
  liftExcept ((← get).pathStore.getFakePaths realPath)
def isFile (fakePath : FakePath) : M Bool := do pure ((← get).pathStore.isFile fakePath)
def isDir (fakePath : FakePath) : M Bool := do pure ((← get).pathStore.isDir fakePath)

def getEntries (fakePath : FakePath) : M (List Seg) := do
  match (← get).cacheGet fakePath .entries with
  | some (.entries entries) => pure entries
  | _ =>
    let entries ← liftExcept ((← get).pathStore.getEntries fakePath)
    cachePut fakePath .entries (.entries entries)
    pure entries

def isEmptyDir (fakePath : FakePath) : M Bool := do
  if ← isDir fakePath then pure (← getEntries fakePath).isEmpty else pure false

/-! ## Source files and directories -/

def removeSourceFile (realPath : RealPath) : M Unit := do
  match (← get).pathStore.getFakePaths realPath with
  | .error e => if e.isPathNotFound then return else throw e
  | .ok fakePaths =>
    fakePaths.forM fun fakePath => do
      tryCatch (onPathStore (PyTypesPathStore.remove fakePath (some realPath)))
        fun e => if e.isPathNotFound then pure () else throw e
      cachePruneBranchTo fakePath none
    let _ ← tryMonitor (Monitor.removeSourceFile realPath) fun e =>
      e = .noSuchWatchError || e = .sourceTreeMonitorError

/-- The permutation loop of `add_source_file`: the distinct fake paths in order, each with
the splitters of the first permutation that gave it; `none` when one is unrepresentable. -/
def collectFakePaths (s : Rep) (collected : List (FakePath × List Splitter)) :
    List Substitutions → Except Error (Option (List (FakePath × List Splitter)))
  | [] => pure (some collected)
  | substitutions :: rest =>
    match s.fillPath substitutions with
    | .error (.unrepresentablePath _) => pure none
    | .error e => throw e
    | .ok fakePath =>
      if fakePath ∈ collected.map Prod.fst then collectFakePaths s collected rest
      else do
        let splitters ← s.createSplitters fakePath substitutions
        collectFakePaths s (collected ++ [(fakePath, splitters)]) rest

/-- The loop that registers the collected fake paths; a filter or a monitor failure stops it. -/
def registerFakePaths (realPath : RealPath) : List (FakePath × List Splitter) → M Unit
  | [] => pure ()
  | (fakePath, splitters) :: rest => do
    let s ← get
    if !s.filterPath (s.sourceTree.getRelativePath realPath) fakePath.toString then return
    if !(← tryMonitor (Monitor.addSourceFile realPath) fun e =>
        e.isPathNotFound || e matches .notADirectory _ || e = .watchExistsError || e = .sourceTreeMonitorError) then
      return
    onPathStore (PyTypesPathStore.addFile fakePath realPath)
    setSplitters fakePath splitters
    cachePruneBranchTo fakePath none
    registerFakePaths realPath rest

def addSourceFile (realPath : RealPath) : M Unit := do
  let s ← get
  if !s.sourceTree.isreadable realPath then return
  if s.sourceTree.issymlink realPath then return
  tryCatch (removeSourceFile realPath) fun e => if e.isPathNotFound then pure () else throw e
  let s ← get
  let values := s.metaStore.get realPath
  let some collected ← liftExcept (s.collectFakePaths [] values.iterPermutations) | return
  let fresh := match s.pathStore.getFakePaths realPath with
    | .ok existing => collected.filter fun p => p.1 ∉ existing
    | .error _ => collected
  registerFakePaths realPath fresh

def removeSourceDir (realPath : RealPath) : M Unit := do
  let subpaths ← liftExcept ((← get).pathStore.getRealSubpaths realPath)
  subpaths.forM removeSourceFile
  let _ ← tryMonitor (Monitor.removeSourceDir realPath) fun e =>
    e = .noSuchWatchError || e = .sourceTreeMonitorError

/-- The children of the first `walk` entries, while each entry's path is the `real_path`
that the previous entry's loops left behind: the loops rebind `real_path`. -/
def walkTopLevel (current : RealPath) :
    List (RealPath × List String × List String) → List (Bool × RealPath)
  | [] => []
  | (dirpath, dirnames, filenames) :: rest =>
    if dirpath ≠ current then []
    else
      let children := dirnames.map (fun d => (true, joinPath dirpath d)) ++
        filenames.map fun f => (false, joinPath dirpath f)
      children ++ walkTopLevel ((children.getLast?.map (·.2)).getD current) rest

/-- `add_source_dir`, with fuel for the depth of the source tree. -/
def addSourceDirWithFuel : Nat → RealPath → M Unit
  | 0, _ => pure ()
  | fuel + 1, realPath => do
    tryCatch (removeSourceDir realPath) fun e => if e.isPathNotFound then pure () else throw e
    if !(← tryMonitor (Monitor.addSourceDir realPath) fun e =>
        e.isPathNotFound || e matches .notADirectory _ || e = .watchExistsError || e = .sourceTreeMonitorError) then
      return
    let s ← get
    (walkTopLevel realPath (s.sourceTree.walk realPath)).forM fun (isDir, path) =>
      if isDir then addSourceDirWithFuel fuel path else addSourceFile path

def addSourceDir (realPath : RealPath) : M Unit := do
  addSourceDirWithFuel ((← get).sourceTree.nodes.keys.length + 1) realPath

def updateSourceFile (realPath : RealPath) : M Unit := addSourceFile realPath

def addSourcePath (realPath : RealPath) : M Unit := do
  addSourceFile realPath
  addSourceDir realPath

def removeSourcePath (realPath : RealPath) : M Unit := do
  removeSourceFile realPath
  removeSourceDir realPath

def updateSourcePath (realPath : RealPath) : M Unit := updateSourceFile realPath

def populate : M Unit := do addSourceDir (← get).sourceTree.root

/-- `decode(event_path).rstrip('/')`. -/
def stripSeparators (path : RealPath) : RealPath := String.mk (path.data.reverse.dropWhile (· = '/')).reverse

def addCb (eventPath : RealPath) (isDir : Option Bool) : M Unit :=
  let realPath := stripSeparators eventPath
  match isDir with
  | none => addSourcePath realPath
  | some true => addSourceDir realPath
  | some false => addSourceFile realPath

def removeCb (eventPath : RealPath) (isDir : Option Bool) : M Unit :=
  let realPath := stripSeparators eventPath
  match isDir with
  | none => removeSourcePath realPath
  | some true => removeSourceDir realPath
  | some false => removeSourceFile realPath

def updateCb (eventPath : RealPath) (isDir : Option Bool) : M Unit :=
  let realPath := stripSeparators eventPath
  match isDir with
  | none => updateSourcePath realPath
  | some true => pure ()
  | some false => updateSourceFile realPath

/-! ## Directories made and removed through the file system -/

def addDirectory (fakePath : FakePath) : M Unit := do
  if fakePath = [] then throw .valueError
  let s ← get
  if fakePath.length ≥ s.substitutionPatterns.length then throw .invalidArgument
  let splitters ← liftExcept (s.createSplitters fakePath Dict.empty)
  let some splitter := splitters.getLast? | throw .indexError
  let some part := fakePath.getLast? | throw .indexError
  match splitter.split part.name with
  | .error e => if e.isPatternError then throw .invalidArgument else throw e
  | .ok _ => pure ()
  onPathStore (PyTypesPathStore.addDirectory fakePath)
  setSplitters fakePath splitters
  cachePruneBranchTo fakePath none

def removeDirectory (fakePath : FakePath) : M Unit := do
  onPathStore (PyTypesPathStore.remove fakePath none)
  cachePruneBranchTo fakePath none

/-- `add_directory_with_parents`: each missing prefix, from the top. -/
def addDirectoryWithParents (fakePath : FakePath) : M Unit := do
  if fakePath = [] then throw .valueError
  (fakePath.inits.drop 1).forM fun path => do
    if !(← isDir path) then addDirectory path

/-! ## Renames -/

/-- The first segment index where two paths of one depth differ, and the two segments
there; the last index when they do not differ. -/
def firstDifference : List Seg → List Seg → Nat → Option (Nat × Seg × Seg)
  | [a], [b], i => some (i, a, b)
  | a :: as, b :: bs, i => if a ≠ b then some (i, a, b) else firstDifference as bs (i + 1)
  | _, _, _ => none

/-- Step 2 of `rename_path`: each directory end point is removed and made again, with the
new segment at the index that changed. -/
def moveDirectoryEndPoints (index : Nat) (newPathPart : Seg) (directoryEndPoints : List FakePath) : M Unit :=
  directoryEndPoints.forM fun endPoint => do
    removeDirectory endPoint
    addDirectoryWithParents (endPoint.set index newPathPart)

/-- The old and the new `Values` of one file end point, read back with its splitter. -/
def endPointValues (s : Rep) (index : Nat) (oldPathPart newPathPart : Seg) (endPoint : FakePath) :
    Except Error (Values × Values) := do
  let metaData ← s.pathStore.getMetaData endPoint
  let some splitter := metaData.splitters.get? index | throw .indexError
  let oldValues := Values.fromFlatDict (← splitter.split oldPathPart.name)
  let newValues ← match splitter.split newPathPart.name with
    | .ok m => pure (Values.fromFlatDict m)
    | .error e => if e.isPatternError then throw .invalidArgument else throw e
  pure (oldValues, newValues)

/-- Step 3a: the old and the new values of every file end point. -/
def valuesByEndPoint (s : Rep) (index : Nat) (oldPathPart newPathPart : Seg) (fileEndPoints : List FakePath) :
    Except Error (Dict FakePath (Values × Values)) :=
  fileEndPoints.foldlM (fun d e => do pure (d.set e (← s.endPointValues index oldPathPart newPathPart e))) Dict.empty

/-- Step 3b: the file end points grouped by real path, in order of first appearance. -/
def groupByRealPath (s : Rep) (fileEndPoints : List FakePath) : Except Error (Dict RealPath (List FakePath)) :=
  fileEndPoints.foldlM (fun groups endPoint => do
    let realPath ← s.pathStore.getRealPath endPoint
    pure (groups.set realPath ((groups.get? realPath).getD [] ++ [endPoint]))) Dict.empty

/-- Step 3c: per real path, the `diff3` of its current values with the combined old and new
values of its end points, written to the meta store one real path at a time. -/
def applyValuesByRealPath (valuesByEndPoint : Dict FakePath (Values × Values)) :
    List (RealPath × List FakePath) → M Unit
  | [] => pure ()
  | (realPath, endPoints) :: rest => do
    let pick := fun (f : Values × Values → Values) =>
      Values.combine (endPoints.filterMap fun e => (valuesByEndPoint.get? e).map f)
    let currentValues := (← get).metaStore.get realPath
    let applyValues ← liftExcept (Values.diff3 currentValues (pick Prod.fst) (pick Prod.snd))
    tryCatch (onMetaStore (MetaStore.set realPath applyValues))
      fun e => if e matches .unsettableKeyError _ then throw .invalidArgument else throw e
    applyValuesByRealPath valuesByEndPoint rest

def renamePath (oldFakePath newFakePath : FakePath) : M Unit := do
  if oldFakePath = [] ∨ newFakePath = [] then throw .valueError
  if oldFakePath.length ≠ newFakePath.length then throw .invalidArgument
  let some (index, oldPathPart, newPathPart) := firstDifference oldFakePath newFakePath 0 | throw .nameError
  let endPoints ← liftExcept ((← get).pathStore.getEndPoints oldFakePath)
  let s ← get
  let fileEndPoints := endPoints.filter s.pathStore.isFile
  moveDirectoryEndPoints index newPathPart (endPoints.filter fun p => !s.pathStore.isFile p)
  let s ← get
  let values ← liftExcept (s.valuesByEndPoint index oldPathPart newPathPart fileEndPoints)
  let groups ← liftExcept (s.groupByRealPath fileEndPoints)
  applyValuesByRealPath values groups.items

/-! ## Attributes -/

inductive TimeAttr where
  | atime
  | mtime
  | ctime

def TimeAttr.of (attr : TimeAttr) (stat : Stat) : Nat :=
  match attr with
  | .atime => stat.atime
  | .mtime => stat.mtime
  | .ctime => stat.ctime

/-- `stat.S_IFDIR | stat.S_IMODE(mode)`. -/
def directoryMode (mode : Nat) : Nat := 0o40000 ||| (mode &&& 0o7777)

mutual
/-- `getattr`: the cached stat, or `_getattr` and a `cache_put`. -/
def getattrWithFuel : Nat → FakePath → M Stat
  | 0, _ => throw .assertionError
  | fuel + 1, fakePath => do
    match (← get).cacheGet fakePath .stat with
    | some (.stat stat) => pure stat
    | _ =>
      let stat ← getattrUncached fuel fakePath
      cachePut fakePath .stat (.stat stat)
      pure stat

/-- `_getattr`: a file's source stat; a directory takes the source root's mode and owner,
and the latest time below it, or the root's when there is none. -/
def getattrUncached : Nat → FakePath → M Stat
  | 0, _ => throw .assertionError
  | fuel + 1, fakePath => do
    match (← get).pathStore.getRealPath fakePath with
    | .ok realPath => liftExcept ((← get).sourceTree.lstat realPath)
    | .error e =>
      if !(e matches .isADirectory _) && !e.isPathNotFound then throw e
      let entries ← getEntries fakePath
      let s ← get
      let subdirs := entries.filter fun entry => s.pathStore.isDir (fakePath ++ [entry])
      let root ← liftExcept (s.sourceTree.lstat s.sourceTree.root)
      let atime ← directoryTimeAttr fuel fakePath .atime
      let mtime ← directoryTimeAttr fuel fakePath .mtime
      let ctime ← directoryTimeAttr fuel fakePath .ctime
      pure { mode := directoryMode root.mode, ino := 0, dev := 0, nlink := 2 + subdirs.length, uid := root.uid,
             gid := root.gid, size := 0, atime := if atime = 0 then root.atime else atime,
             mtime := if mtime = 0 then root.mtime else mtime, ctime := if ctime = 0 then root.ctime else ctime }

/-- `_get_directory_time_attr`: the latest time of the subdirectories and files; an
`OSError` leaves an entry out; zero when there is nothing. -/
def directoryTimeAttr : Nat → FakePath → TimeAttr → M Nat
  | 0, _, _ => throw .assertionError
  | fuel + 1, fakePath, attr => do
    let entries ← getEntries fakePath
    let s ← get
    let paths := entries.map fun e => fakePath ++ [e]
    let subdirs := paths.filter s.pathStore.isDir
    let files := paths.filter s.pathStore.isFile
    let skipOSError := fun (x : M Nat) => tryCatch (do pure [← x]) fun e =>
      if e matches .osError _ then pure [] else throw e
    let subdirTimes ← subdirs.mapM fun p => skipOSError (directoryTimeAttr fuel p attr)
    let fileTimes ← files.mapM fun p => skipOSError (do pure (attr.of (← getattrWithFuel fuel p)))
    pure ((subdirTimes.flatten ++ fileTimes.flatten).foldl max 0)
end

/-- The fuel for `getattr`: three calls per level of a path store at most one deeper than
its patterns. -/
def getattr (fakePath : FakePath) : M Stat := do
  getattrWithFuel (3 * ((← get).substitutionPatterns.length + 2)) fakePath

/-- `utime`: a file's source; for an empty directory the source root, whose times every
empty directory reports; otherwise each end point below. -/
def utimeWithFuel : Nat → FakePath → Nat × Nat → M Unit
  | 0, _, _ => pure ()
  | fuel + 1, fakePath, times => do
    if ← isFile fakePath then
      let realPath ← getRealPath fakePath
      onSourceTree (SourceTree.utime realPath times)
      cachePruneBranchTo fakePath (some .stat)
    else if ← isEmptyDir fakePath then
      onSourceTree (SourceTree.utime (← get).sourceTree.root times)
    else
      let endPoints ← liftExcept ((← get).pathStore.getEndPoints fakePath)
      endPoints.forM fun endPoint => utimeWithFuel fuel endPoint times

def utime (fakePath : FakePath) (times : Nat × Nat) : M Unit := utimeWithFuel 2 fakePath times

end Rep

end PyTagsFs
