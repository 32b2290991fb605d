import PyTagsFs.Basic

/-! # The path store of `pytagsfs.pathstore.pytypes`

`PathMapping` holds the fake-to-real stacks and their reverse; `EntryStore` maps each
directory to its entry list, where a name occurs once per end point below it (or once
for an empty directory end point). End point metadata of type `μ` lives on the entry
objects, so it moves with the occurrence that `_locate_entry` picks: the last one. -/
namespace PyTagsFs

/-- Run a computation on one field of the state, as a method mutates a sub-object. -/
def zoom {ε σ τ α : Type} (view : σ → τ) (update : σ → τ → σ) (x : EStateM ε τ α) :
    EStateM ε σ α := fun s =>
  match x (view s) with
  | .ok a t => .ok a (update s t)
  | .error e t => .error e (update s t)

/-- Raise the error of a check that mutates nothing. -/
def liftExcept {ε σ α : Type} : Except ε α → EStateM ε σ α
  | .ok a => pure a
  | .error e => throw e

section Run
variable {ε σ τ α β : Type}

@[simp] theorem liftExcept_bind_run (x : Except ε α) (f : α → EStateM ε σ β) (s : σ) :
    EStateM.bind (liftExcept x) f s = match x with | .ok a => f a s | .error e => .error e s := by
  cases x <;> rfl

@[simp] theorem pure_bind_run (a : α) (f : α → EStateM ε σ β) (s : σ) :
    EStateM.bind (pure a) f s = f a s := rfl

@[simp] theorem get_bind_run (f : σ → EStateM ε σ β) (s : σ) : EStateM.bind get f s = f s s := rfl

@[simp] theorem ite_throw_apply (c : Prop) [Decidable c] (e₁ e₂ : ε) (s : σ) :
    (if c then throw e₁ else throw e₂ : EStateM ε σ α) s = .error (if c then e₁ else e₂) s := by
  split <;> rfl

/-- A zoomed call raises with the state its field was left in. -/
theorem zoom_error {view : σ → τ} {update : σ → τ → σ} {x : EStateM ε τ α} {s s' : σ} {e : ε}
    (h : zoom view update x s = .error e s') : ∃ t, x (view s) = .error e t ∧ s' = update s t := by
  unfold zoom at h
  split at h
  · cases h
  · rename_i t ht
    cases h
    exact ⟨t, ht, rfl⟩

end Run

/-- The `(directory, entry)` pair of `os.path.split`, for a path other than `/`. -/
def splitLast (p : FakePath) : Option (FakePath × Seg) := p.getLast?.map fun e => (p.dropLast, e)

/-- `iter_directories_and_entries_recursive`: every proper ancestor with the next segment. -/
def iterDirectoriesAndEntries : FakePath → FakePath → List (FakePath × Seg)
  | _, [] => []
  | pre, e :: rest => (pre, e) :: iterDirectoriesAndEntries (pre ++ [e]) rest

abbrev DictList (κ ν : Type) [DecidableEq κ] := Dict κ (List ν)

namespace DictList
variable {κ ν : Type} [DecidableEq κ] [DecidableEq ν]

/-- `get_or_set_and_get(k).append(v)`. -/
def append (d : DictList κ ν) (k : κ) (v : ν) : DictList κ ν := d.set k ((d.get? k).getD [] ++ [v])

/-- `clean`: drop the key of an empty list. -/
def clean (k : κ) : EStateM Error (DictList κ ν) Unit := fun d =>
  match d.get? k with
  | none => .error .keyError d
  | some [] => .ok () (d.erase k)
  | some (_ :: _) => .ok () d

/-- `pop_and_clean`: `self[k].pop()`, then `clean` in its `finally`. -/
def popAndClean (k : κ) : EStateM Error (DictList κ ν) ν := fun d =>
  match d.get? k with
  | none => .error .keyError d
  | some l => match l.getLast? with
    | none => .error .indexError (d.erase k)
    | some v =>
      let d := d.set k l.dropLast
      .ok v (if l.dropLast = [] then d.erase k else d)

/-- `self[k].remove(v)`: the first occurrence. -/
def remove (k : κ) (v : ν) : EStateM Error (DictList κ ν) Unit := fun d =>
  match d.get? k with
  | none => .error .keyError d
  | some l => if v ∈ l then .ok () (d.set k (l.erase v)) else .error .valueError d

end DictList

structure PathMapping where
  forwardMapping : DictList FakePath RealPath
  reverseMapping : DictList RealPath FakePath

namespace PathMapping

def empty : PathMapping := ⟨Dict.empty, Dict.empty⟩

def addRealPath (m : PathMapping) (fakePath : FakePath) (realPath : RealPath) : PathMapping :=
  ⟨m.forwardMapping.append fakePath realPath, m.reverseMapping.append realPath fakePath⟩

def onForward {α : Type} : EStateM Error (DictList FakePath RealPath) α → EStateM Error PathMapping α :=
  zoom forwardMapping fun m d => { m with forwardMapping := d }

def onReverse {α : Type} : EStateM Error (DictList RealPath FakePath) α → EStateM Error PathMapping α :=
  zoom reverseMapping fun m d => { m with reverseMapping := d }

/-- `remove_real_path`; a failure on the reverse side re-appends the real path. -/
def removeRealPath (fakePath : FakePath) (realPath : Option RealPath) :
    EStateM Error PathMapping Unit := do
  let realPath ← match realPath with
    | none => onForward (DictList.popAndClean fakePath)
    | some r => do
      onForward (DictList.remove fakePath r)
      onForward (DictList.clean fakePath)
      pure r
  tryCatch (do
      onReverse (DictList.remove realPath fakePath)
      onReverse (DictList.clean realPath))
    fun e => do
      modify fun m => { m with forwardMapping := m.forwardMapping.append fakePath realPath }
      throw e

def getRealPath (m : PathMapping) (fakePath : FakePath) : Option RealPath :=
  (m.forwardMapping.get? fakePath).bind List.getLast?

def getFakePaths (m : PathMapping) (realPath : RealPath) : Option (List FakePath) :=
  m.reverseMapping.get? realPath

def getReverseKeys (m : PathMapping) : List RealPath := m.reverseMapping.keys

end PathMapping

/-- An `Entry`: a name and, once `set_meta_data` ran on it, its metadata. -/
structure Entry (μ : Type) where
  name : Seg
  metaData : Option μ

structure EntryStore (μ : Type) where
  entries : Dict FakePath (List (Entry μ))

namespace EntryStore
variable {μ : Type}

def initial : EntryStore μ := ⟨Dict.empty.set [] []⟩

def addDirectory (directory : FakePath) : EStateM Error (EntryStore μ) Unit := fun s =>
  if s.entries.contains directory then .error (.directoryAlreadyExistsInEntryStore directory) s
  else .ok () ⟨s.entries.set directory []⟩

def removeDirectory (directory : FakePath) : EStateM Error (EntryStore μ) Unit := fun s =>
  if directory = [] then .error .valueError s
  else if s.entries.contains directory then .ok () ⟨s.entries.erase directory⟩
  else .error .keyError s

def getAllEntries (s : EntryStore μ) (directory : FakePath) : Except Error (List (Entry μ)) :=
  match s.entries.get? directory with
  | some l => .ok l
  | none => .error (.directoryDoesNotExistInEntryStore directory)

def addEntry (directory : FakePath) (entry : Entry μ) : EStateM Error (EntryStore μ) Unit := fun s =>
  match s.entries.get? directory with
  | some l => .ok () ⟨s.entries.set directory (l ++ [entry])⟩
  | none => .error (.directoryDoesNotExistInEntryStore directory) s

def addEntries (directory : FakePath) (entries : List (Entry μ)) : EStateM Error (EntryStore μ) Unit :=
  entries.forM (addEntry directory)

/-- `_locate_entry`: the index of the last entry of that name, found in the reversed
list and turned back by `len - reverse_index - 1`. -/
def locateEntry (s : EntryStore μ) (directory : FakePath) (entry : Seg) : Except Error Nat := do
  let entries ← s.getAllEntries directory
  match entries.reverse.findIdx? (·.name = entry) with
  | some reverseIndex => pure (entries.length - reverseIndex - 1)
  | none => throw .valueError

def removeEntry (directory : FakePath) (entry : Seg) : EStateM Error (EntryStore μ) Unit := do
  let index ← liftExcept ((← get).locateEntry directory entry)
  modify fun s => ⟨s.entries.set directory (((s.entries.get? directory).getD []).eraseIdx index)⟩

/-- `get_entries`: one name per end point group, placed by its last occurrence. -/
def getEntries (s : EntryStore μ) (directory : FakePath) : Except Error (List Seg) :=
  (s.getAllEntries directory).map fun l => lastUnique (l.map Entry.name)

/-- `_locate_entry_by_fake_path`: `/` ends in the separator and is refused. -/
def locateEntryByFakePath (s : EntryStore μ) (fakePath : FakePath) : Except Error (FakePath × Nat) :=
  match splitLast fakePath with
  | none => .error .valueError
  | some (directory, entry) => (s.locateEntry directory entry).map fun i => (directory, i)

def getEntry (s : EntryStore μ) (fakePath : FakePath) : Except Error (Entry μ) := do
  let (directory, index) ← s.locateEntryByFakePath fakePath
  let entries ← s.getAllEntries directory
  match entries.get? index with
  | some e => pure e
  | none => throw .indexError

/-- Mutate the entry object at a located position. -/
def updateEntry (directory : FakePath) (index : Nat) (f : Entry μ → Entry μ) :
    EStateM Error (EntryStore μ) Unit :=
  modify fun s => ⟨s.entries.set directory (((s.entries.get? directory).getD []).modify f index)⟩

def replaceEntry (directory : FakePath) (entry newEntry : Seg) : EStateM Error (EntryStore μ) Unit := do
  let index ← liftExcept ((← get).locateEntry directory entry)
  updateEntry directory index fun _ => ⟨newEntry, none⟩

/-- The body of the second loop of `remove_entries_and_directories_recursive`. -/
def removeDirectoryIfEmpty (directory : FakePath) : EStateM Error (EntryStore μ) Unit := do
  let entries ← liftExcept ((← get).getAllEntries directory)
  if entries.isEmpty ∧ directory ≠ [] then removeDirectory directory

/-- `remove_entries_and_directories_recursive`: drop one occurrence at every level,
bottom-up, then every emptied ancestor but `/`, top-down. -/
def removeEntriesAndDirectoriesRecursive (fakePath : FakePath) : EStateM Error (EntryStore μ) Unit := do
  if fakePath = [] then throw .valueError
  let steps := iterDirectoriesAndEntries [] fakePath
  steps.reverse.forM fun (directory, entry) => removeEntry directory entry
  steps.forM fun (directory, _) => removeDirectoryIfEmpty directory

/-- The loop body of `add_entries_and_directories_recursive`: create a missing directory,
retire an empty directory end point (it stops being one), add one occurrence. -/
def addEntryAndDirectory (directory : FakePath) (entry : Seg) : EStateM Error (EntryStore μ) Unit := do
  match (← get).getAllEntries directory with
  | .error _ => addDirectory directory
  | .ok entries => if directory ≠ [] ∧ entries.isEmpty then removeEntriesAndDirectoriesRecursive directory
  addEntry directory ⟨entry, none⟩

def addEntriesAndDirectoriesRecursive (fakePath : FakePath) : EStateM Error (EntryStore μ) Unit := do
  if fakePath = [] then throw .valueError
  (iterDirectoriesAndEntries [] fakePath).forM fun (directory, entry) => addEntryAndDirectory directory entry

end EntryStore

structure PyTypesPathStore (μ : Type) where
  pathMapping : PathMapping
  entries : EntryStore μ

namespace PyTypesPathStore
variable {μ : Type}

def initial : PyTypesPathStore μ := ⟨PathMapping.empty, EntryStore.initial⟩

def onMapping {α : Type} : EStateM Error PathMapping α → EStateM Error (PyTypesPathStore μ) α :=
  zoom pathMapping fun s m => { s with pathMapping := m }

def onEntries {α : Type} : EStateM Error (EntryStore μ) α → EStateM Error (PyTypesPathStore μ) α :=
  zoom entries fun s e => { s with entries := e }

def isFile (s : PyTypesPathStore μ) (fakePath : FakePath) : Bool :=
  (s.pathMapping.getRealPath fakePath).isSome

def isDir (s : PyTypesPathStore μ) (fakePath : FakePath) : Bool := s.entries.entries.contains fakePath

def isEmptyDir (s : PyTypesPathStore μ) (fakePath : FakePath) : Bool :=
  s.isDir fakePath && ((s.entries.entries.get? fakePath).getD []).isEmpty

def pathExists (s : PyTypesPathStore μ) (fakePath : FakePath) : Bool := s.isFile fakePath || s.isDir fakePath

def mustExist (s : PyTypesPathStore μ) (fakePath : FakePath) : Except Error Unit :=
  if s.pathExists fakePath then pure () else throw (.fakePathNotFound fakePath)

def mustNotExist (s : PyTypesPathStore μ) (fakePath : FakePath) : Except Error Unit :=
  if s.pathExists fakePath then throw (.pathExists fakePath) else pure ()

def mustBeDir (s : PyTypesPathStore μ) (fakePath : FakePath) : Except Error Unit := do
  s.mustExist fakePath
  if !s.isDir fakePath then throw (.notADirectory fakePath)

def mustBeEmptyDirectory (s : PyTypesPathStore μ) (fakePath : FakePath) : Except Error Unit := do
  s.mustExist fakePath
  if s.isEmptyDir fakePath then return
  if s.isFile fakePath then throw (.notADirectory fakePath)
  throw (.notAnEndPoint fakePath)

def mustBeEndPoint (s : PyTypesPathStore μ) (fakePath : FakePath) : Except Error Unit := do
  s.mustExist fakePath
  if s.isFile fakePath then return
  if s.isEmptyDir fakePath then return
  throw (.notAnEndPoint fakePath)

def assertNotRoot (fakePath : FakePath) : Except Error Unit :=
  if fakePath = [] then throw .assertionError else pure ()

def getRealPath (s : PyTypesPathStore μ) (fakePath : FakePath) : Except Error RealPath :=
  match s.pathMapping.getRealPath fakePath with
  | some r => pure r
  | none => if s.isDir fakePath then throw (.isADirectory fakePath) else throw (.fakePathNotFound fakePath)

def getFakePaths (s : PyTypesPathStore μ) (realPath : RealPath) : Except Error (List FakePath) :=
  match s.pathMapping.getFakePaths realPath with
  | some l => pure l
  | none => throw (.realPathNotFound realPath)

def getRealSubpaths (s : PyTypesPathStore μ) (realPath : RealPath) : Except Error (List RealPath) :=
  if realPath.data.getLast? = some '/' then throw .valueError
  else pure (s.pathMapping.getReverseKeys.filter fun p => (realPath ++ "/").data.isPrefixOf p.data)

def getEntries (s : PyTypesPathStore μ) (fakePath : FakePath) : Except Error (List Seg) := do
  s.mustBeDir fakePath
  s.entries.getEntries fakePath

def getMetaData (s : PyTypesPathStore μ) (fakePath : FakePath) : Except Error μ := do
  s.mustBeEndPoint fakePath
  let entry ← s.entries.getEntry fakePath
  match entry.metaData with
  | some m => pure m
  | none => throw (.noMetaDataExists entry.name)

def addFile (fakePath : FakePath) (realPath : RealPath) : EStateM Error (PyTypesPathStore μ) Unit := do
  let s ← get
  if s.isDir fakePath then throw (.pathExists fakePath)
  match s.getRealPath fakePath with
  | .ok r => if realPath = r then throw .valueError
  | .error e => if !e.isPathNotFound then throw e
  modify fun s => { s with pathMapping := s.pathMapping.addRealPath fakePath realPath }
  onEntries (EntryStore.addEntriesAndDirectoriesRecursive fakePath)

def addDirectory (fakePath : FakePath) : EStateM Error (PyTypesPathStore μ) Unit := do
  liftExcept ((← get).mustNotExist fakePath)
  onEntries (EntryStore.addEntriesAndDirectoriesRecursive fakePath)
  onEntries (EntryStore.addDirectory fakePath)

/-- `_verify_rename`, returning the `os.path.split` of both paths that follows it. -/
def verifyRename (oldFakePath newFakePath : FakePath) :
    Except Error ((FakePath × Seg) × (FakePath × Seg)) :=
  if oldFakePath = newFakePath then throw .valueError
  else match splitLast oldFakePath, splitLast newFakePath with
    | some o, some n => pure (o, n)
    | _, _ => throw .valueError

def removeFile (fakePath : FakePath) (realPath : Option RealPath) :
    EStateM Error (PyTypesPathStore μ) Unit := do
  onMapping (PathMapping.removeRealPath fakePath realPath)
  onEntries (EntryStore.removeEntriesAndDirectoriesRecursive fakePath)

def removeDirectory (fakePath : FakePath) : EStateM Error (PyTypesPathStore μ) Unit := do
  liftExcept (assertNotRoot fakePath)
  liftExcept ((← get).mustBeEmptyDirectory fakePath)
  onEntries (EntryStore.removeDirectory fakePath)
  onEntries (EntryStore.removeEntriesAndDirectoriesRecursive fakePath)

def renameFile (oldFakePath newFakePath : FakePath) : EStateM Error (PyTypesPathStore μ) Unit := do
  let realPath ← liftExcept ((← get).getRealPath oldFakePath)
  let ((oldDir, oldEntry), (newDir, newEntry)) ← liftExcept (verifyRename oldFakePath newFakePath)
  if oldDir = newDir then
    onEntries (EntryStore.replaceEntry oldDir oldEntry newEntry)
    onMapping (PathMapping.removeRealPath oldFakePath (some realPath))
    modify fun s => { s with pathMapping := s.pathMapping.addRealPath newFakePath realPath }
  else
    removeFile oldFakePath (some realPath)
    addFile newFakePath realPath

def renameDirectory (oldFakePath newFakePath : FakePath) : EStateM Error (PyTypesPathStore μ) Unit := do
  liftExcept ((← get).mustBeEmptyDirectory oldFakePath)
  liftExcept (assertNotRoot oldFakePath)
  liftExcept (assertNotRoot newFakePath)
  let ((oldDir, oldEntry), (newDir, newEntry)) ← liftExcept (verifyRename oldFakePath newFakePath)
  let entries ← liftExcept ((← get).entries.getAllEntries oldFakePath)
  if oldDir = newDir then
    onEntries (EntryStore.removeDirectory oldFakePath)
    onEntries (EntryStore.replaceEntry oldDir oldEntry newEntry)
    onEntries (EntryStore.addDirectory newFakePath)
  else
    removeDirectory oldFakePath
    addDirectory newFakePath
  onEntries (EntryStore.addEntries newFakePath entries)

def rename (oldFakePath newFakePath : FakePath) : EStateM Error (PyTypesPathStore μ) Unit := do
  let s ← get
  if s.isDir oldFakePath then return ← renameDirectory oldFakePath newFakePath
  if s.isFile oldFakePath then return ← renameFile oldFakePath newFakePath
  throw (.fakePathNotFound oldFakePath)

def remove (fakePath : FakePath) (realPath : Option RealPath) : EStateM Error (PyTypesPathStore μ) Unit := do
  let s ← get
  if s.isDir fakePath then
    if realPath.isSome then throw (.isADirectory fakePath)
    if s.isEmptyDir fakePath then return ← removeDirectory fakePath
    throw (.directoryNotEmpty fakePath)
  if s.isFile fakePath then return ← removeFile fakePath realPath
  throw (.fakePathNotFound fakePath)

def setMetaData (fakePath : FakePath) (metaData : μ) : EStateM Error (PyTypesPathStore μ) Unit := do
  liftExcept ((← get).mustBeEndPoint fakePath)
  let (directory, index) ← liftExcept ((← get).entries.locateEntryByFakePath fakePath)
  let _ ← liftExcept ((← get).entries.getEntry fakePath)
  onEntries (EntryStore.updateEntry directory index fun e => { e with metaData := some metaData })

def unsetMetaData (fakePath : FakePath) : EStateM Error (PyTypesPathStore μ) Unit := do
  liftExcept ((← get).mustBeEndPoint fakePath)
  let (directory, index) ← liftExcept ((← get).entries.locateEntryByFakePath fakePath)
  let entry ← liftExcept ((← get).entries.getEntry fakePath)
  if entry.metaData.isNone then throw (.noMetaDataExists entry.name)
  onEntries (EntryStore.updateEntry directory index fun e => { e with metaData := none })

/-- `PathStore.get_end_points`: the files and empty directories at or below a path. The
fuel bounds the depth of the recursion; `endPoints` gives one more than the number of
directories, and each call descends into a directory. -/
def getEndPointsWithFuel (s : PyTypesPathStore μ) : Nat → FakePath → Except Error (List FakePath)
  | 0, _ => throw .assertionError
  | fuel + 1, fakePath =>
    if s.isFile fakePath then pure [fakePath]
    else do
      let entries ← s.getEntries fakePath
      if entries = [] then pure [fakePath]
      else do
        let endPoints ← entries.mapM fun entry => s.getEndPointsWithFuel fuel (fakePath ++ [entry])
        pure endPoints.flatten

def getEndPoints (s : PyTypesPathStore μ) (fakePath : FakePath) : Except Error (List FakePath) :=
  s.getEndPointsWithFuel (s.entries.entries.keys.length + 1) fakePath

end PyTypesPathStore

end PyTagsFs
