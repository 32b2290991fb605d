import PyTagsFs.Basic
import Mathlib.Logic.Function.Basic

/-! # The open-file table of `FileSystemMappingToRealFiles`

`open`, `release` and `truncate` keep `open_files`, `frozen_path_mappings`,
`read_only_files_by_fake_path`, `truncated_paths` and each `File`'s `truncate_to`.
`open_file` gives the global token up around `os.open`, so `Reachable` interleaves the two
parts of `open`; `SeqReachable` is the single-threaded mount (`-s`). Calls into the
representation and the OS appear only through what they raise, given as arguments. -/

namespace PyTagsFs.OpenFiles

/-- The exceptions of the open-file table: those raised by the calls it makes, and those
Python raises on its own containers and attributes. -/
inductive FsError where
  /-- Raised by `get_real_path`, `os.open`, `ftruncate` or closing the file. -/
  | call (e : Error)
  | keyError
  | valueError
  | indexError
  | attributeError
  | assertionError (message : String)
  deriving DecidableEq

/-- `os.O_WRONLY` as Linux defines it. -/
def oWronly : Nat := 1
/-- `os.O_RDWR` as Linux defines it. -/
def oRdwr : Nat := 2

/-- `(os.O_RDWR | os.O_WRONLY) & flags`, read as a truth value. -/
def isWritable (flags : Nat) : Bool := (oRdwr ||| oWronly) &&& flags != 0

def maxOpenFiles : Nat := 1024

structure FrozenPath where
  realPath : RealPath
  count : Nat
  deriving DecidableEq

def FrozenPath.increment (f : FrozenPath) : FrozenPath := { f with count := f.count + 1 }

def FrozenPath.decrement (f : FrozenPath) : Except FsError FrozenPath :=
  if f.count = 0 then .error (.assertionError "Will not decrement count below zero.")
  else .ok { f with count := f.count - 1 }

/-- A `File` instance: its identity, and the attributes `File.__init__` sets once and
nothing changes afterwards. `truncate_to` lives in `Fs.truncateTo`. -/
structure File where
  id : Nat
  fakePath : FakePath
  realPath : RealPath
  flags : Nat
  deriving DecidableEq

structure Fs where
  truncatedPaths : Dict FakePath Nat
  frozenPathMappings : Dict FakePath FrozenPath
  openFiles : List (Option File)
  /-- The identities of the instances in each list. -/
  readOnlyFilesByFakePath : Dict FakePath (List Nat)
  /-- The `truncate_to` attribute of each instance, by identity. It is `none` once `del`
  has removed it; reading it then finds the class attribute `None`. -/
  truncateTo : Nat → Option (Option Nat)
  /-- The identities given to instances so far. -/
  nextId : Nat

/-- The tables as `FileSystemMappingToRealFiles.__init__` leaves them. -/
def Fs.init : Fs where
  truncatedPaths := .empty
  frozenPathMappings := .empty
  openFiles := List.replicate (maxOpenFiles + 1) none
  readOnlyFilesByFakePath := .empty
  truncateTo := fun _ => none
  nextId := 0

abbrev FsM := EStateM FsError Fs

def liftCall {α : Type} : Except Error α → FsM α
  | .ok a => pure a
  | .error e => throw (.call e)

def Fs.getNextFh : FsM Nat := do
  match (← get).openFiles.findIdx? Option.isNone with
  | some fh => pure fh
  | none => throw .valueError

/-- The locals of an `open` while `open_file` waits in `os.open` without the global token:
the instance is built, but no other operation can reach it yet. -/
structure Opening where
  fakePath : FakePath
  flags : Nat
  truncateTo : Option Nat
  realPath : RealPath
  deriving DecidableEq

/-- `File.del_truncate_to`: `del self.truncate_to`. -/
def delTruncateTo (id : Nat) : FsM Unit := do
  let s ← get
  match s.truncateTo id with
  | none => throw .attributeError
  | some _ => set { s with truncateTo := Function.update s.truncateTo id none }

/-- `File.set_truncate_to`. -/
def setTruncateTo (len id : Nat) : FsM Unit :=
  modify fun s => { s with truncateTo := Function.update s.truncateTo id (some (some len)) }

/-- The instance `open` builds from its locals. -/
def Opening.toFile (o : Opening) (id : Nat) : File := ⟨id, o.fakePath, o.realPath, o.flags⟩

/-- `self.open_files[fh] = file_instance`. -/
def Fs.register (s : Fs) (fh : Nat) (o : Opening) : Fs :=
  { s with
    openFiles := s.openFiles.set fh (some (o.toFile s.nextId))
    truncateTo := Function.update s.truncateTo s.nextId (some o.truncateTo)
    nextId := s.nextId + 1 }

/-- Freeze the path unless it is frozen, and count one more writer on it. -/
def Fs.freeze (s : Fs) (fakePath : FakePath) (realPath : RealPath) : Fs :=
  let frozenPath := (s.frozenPathMappings.get? fakePath).getD ⟨realPath, 0⟩
  { s with frozenPathMappings := s.frozenPathMappings.set fakePath frozenPath.increment }

/-- `read_only_files_by_fake_path.get(fake_path, ())`. -/
def Fs.readOnlyFiles (s : Fs) (fakePath : FakePath) : List Nat :=
  (s.readOnlyFilesByFakePath.get? fakePath).getD []

/-- `read_only_files_by_fake_path.setdefault(fake_path, []).append(file_instance)`. -/
def Fs.addReadOnly (s : Fs) (fakePath : FakePath) (id : Nat) : Fs :=
  { s with readOnlyFilesByFakePath :=
      s.readOnlyFilesByFakePath.set fakePath (s.readOnlyFiles fakePath ++ [id]) }

/-- The end of `open`: the instance goes into the free slot `fh`, then a writer freezes
its path and a reader joins the list of its path. -/
def Fs.install (s : Fs) (fh : Nat) (o : Opening) : Fs :=
  if isWritable o.flags then (s.register fh o).freeze o.fakePath o.realPath
  else (s.register fh o).addReadOnly o.fakePath s.nextId

/-- `open` up to `os.open`: a writer pops the truncation length, a reader reads it, and
`File.__init__` asks the representation for the real path. -/
def Fs.openBegin (fakePath : FakePath) (flags : Nat) (realPath : Except Error RealPath) :
    FsM Opening := do
  let s ← get
  let truncateTo := s.truncatedPaths.get? fakePath
  if isWritable flags then set { s with truncatedPaths := s.truncatedPaths.erase fakePath }
  let realPath ← liftCall realPath
  pure ⟨fakePath, flags, truncateTo, realPath⟩

/-- `fh = self.get_next_fh()` and the rest of `open` from there. -/
def Fs.installNext (o : Opening) : FsM Nat := do
  let fh ← Fs.getNextFh
  modify (·.install fh o)
  pure fh

/-- `open` from the return of `os.open` (and `os.ftruncate` for a writer) on. -/
def Fs.openFinish (o : Opening) (osOpen : Except Error Unit) : FsM Nat := do
  liftCall osOpen
  if isWritable o.flags && o.truncateTo.isSome then
    ((← get).readOnlyFiles o.fakePath).forM delTruncateTo
  Fs.installNext o

def Fs.open (fakePath : FakePath) (flags : Nat) (realPath : Except Error RealPath)
    (osOpen : Except Error Unit) : FsM Nat := do
  let o ← Fs.openBegin fakePath flags realPath
  Fs.openFinish o osOpen

def Fs.release (fakePath : FakePath) (flags fh : Nat) (closed : Except Error Unit) :
    FsM Unit := do
  let s ← get
  let some fileInstance := s.openFiles[fh]? | throw .indexError
  set { s with openFiles := s.openFiles.set fh none }
  if isWritable flags then
    -- the debug log reads `file_instance.real_path`
    let some _ := fileInstance | throw .attributeError
    let some frozenPath := s.frozenPathMappings.get? fakePath | throw .keyError
    match frozenPath.decrement with
    | .error e => throw e
    | .ok frozenPath =>
      modify fun s => { s with frozenPathMappings :=
        if frozenPath.count = 0 then s.frozenPathMappings.erase fakePath
        else s.frozenPathMappings.set fakePath frozenPath }
  else
    let some files := s.readOnlyFilesByFakePath.get? fakePath | throw .keyError
    -- `list.remove` finds neither `None` nor an instance the list does not hold
    let some file := fileInstance | throw .valueError
    if file.id ∉ files then throw .valueError
    let files := files.erase file.id
    modify fun s => { s with readOnlyFilesByFakePath :=
      if files.isEmpty then s.readOnlyFilesByFakePath.erase fakePath
      else s.readOnlyFilesByFakePath.set fakePath files }
  -- `file_instance.release(flags)`
  let some _ := fileInstance | throw .attributeError
  liftCall closed

def Fs.truncate (fakePath : FakePath) (len : Nat) (ftruncated : Except Error Unit) :
    FsM Unit := do
  let s ← get
  if s.frozenPathMappings.contains fakePath then
    -- `ftruncate_path(real_path_encoded, len)` with the global token released
    liftCall ftruncated
  else if (s.truncatedPaths.get? fakePath).all fun t => decide (len < t) then
    set { s with truncatedPaths := s.truncatedPaths.set fakePath len }
    (s.readOnlyFiles fakePath).forM (setTruncateTo len)

/-- FUSE releases each handle it opened once, with the path and the flags of its `open`. -/
def Fs.validRelease (s : Fs) (fakePath : FakePath) (flags fh : Nat) : Bool :=
  match s.openFiles[fh]? with
  | some (some f) => decide (f.fakePath = fakePath) && isWritable f.flags == isWritable flags
  | _ => false

/-- `if st_size > truncate_to: st_size = truncate_to`, written once for `getattr` and
for `ReadOnlyFile.fgetattr`. -/
def truncatedSize (truncateTo : Option Nat) (stSize : Nat) : Nat :=
  match truncateTo with
  | some t => if stSize > t then t else stSize
  | none => stSize

/-- `st_size` of `getattr`: the frozen source file's own size, or the representation's
size cut to a pending truncation. -/
def Fs.getattrSize (s : Fs) (fakePath : FakePath) (stSize : Nat) : Nat :=
  if s.frozenPathMappings.contains fakePath then stSize
  else truncatedSize (s.truncatedPaths.get? fakePath) stSize

/-- `st_size` of `fgetattr` through the handle `fh`: `ReadWriteFile` reports `os.fstat`
as it is, `ReadOnlyFile` cuts it to its `truncate_to`. -/
def Fs.fgetattrSize (s : Fs) (fh stSize : Nat) : Except FsError Nat :=
  match s.openFiles[fh]? with
  | none => .error .indexError
  | some none => .error .attributeError
  | some (some f) =>
    .ok (if isWritable f.flags then stSize else truncatedSize ((s.truncateTo f.id).getD none) stSize)

/-! ## What one call does -/

section Run
variable {s : Fs}

@[simp] theorem liftCall_ok {α : Type} (a : α) (s : Fs) : (liftCall (.ok a) : FsM α) s = .ok a s :=
  rfl
@[simp] theorem liftCall_error {α : Type} (e : Error) (s : Fs) :
    (liftCall (.error e) : FsM α) s = .error (.call e) s := rfl

theorem getNextFh_eq (s : Fs) : Fs.getNextFh s =
    match s.openFiles.findIdx? Option.isNone with
    | some fh => .ok fh s
    | none => .error .valueError s := by
  simp only [Fs.getNextFh, bind_apply, EStateM.bind, get_apply]
  cases s.openFiles.findIdx? Option.isNone <;> rfl

/-- `get_next_fh` hands out a free slot. -/
theorem getElem?_of_findIdx? {l : List (Option File)} {fh : Nat}
    (h : l.findIdx? Option.isNone = some fh) : l[fh]? = some none := by
  obtain ⟨hlt, hfree, -⟩ := List.findIdx?_eq_some_iff_getElem.mp h
  simpa [List.getElem?_eq_getElem hlt] using hfree

/-- `get_next_fh` raises only when every slot is taken. -/
theorem findIdx?_isNone_eq_none {l : List (Option File)} :
    l.findIdx? Option.isNone = none ↔ none ∉ l := by
  rw [List.findIdx?_eq_none_iff]
  exact ⟨fun h hn => by simpa using h none hn, fun h x hx => by cases x <;> simp_all⟩

theorem forM_setTruncateTo (len : Nat) (l : List Nat) (s : Fs) :
    l.forM (setTruncateTo len) s =
      .ok () { s with truncateTo := fun k => if k ∈ l then some (some len) else s.truncateTo k } := by
  induction l generalizing s with
  | nil => rfl
  | cons k l ih =>
    simp only [List.forM_cons', setTruncateTo, bind_apply, EStateM.bind, modify_apply, ih]
    congr; funext k'
    by_cases h : k' = k <;> simp [h, Function.update]

theorem installNext_eq (o : Opening) (s : Fs) : Fs.installNext o s =
    match s.openFiles.findIdx? Option.isNone with
    | some fh => .ok fh (s.install fh o)
    | none => .error .valueError s := by
  simp only [Fs.installNext, bind_apply, EStateM.bind, getNextFh_eq]
  cases s.openFiles.findIdx? Option.isNone <;> rfl

/-- Deleting attributes changes only the attributes of the instances deleted from, and
raises only when one of them has none left. -/
theorem forM_delTruncateTo_frame (l : List Nat) (s : Fs) : ∃ t, (∀ k ∉ l, t k = s.truncateTo k) ∧
    (l.forM delTruncateTo s = .ok () { s with truncateTo := t } ∨
      l.forM delTruncateTo s = .error .attributeError { s with truncateTo := t } ∧
        ¬ (l.Nodup ∧ ∀ k ∈ l, s.truncateTo k ≠ none)) := by
  induction l generalizing s with
  | nil => exact ⟨s.truncateTo, fun _ _ => rfl, .inl rfl⟩
  | cons k l ih =>
    simp only [List.forM_cons', delTruncateTo, bind_apply, EStateM.bind, get_apply]
    cases hk : s.truncateTo k with
    | none => exact ⟨s.truncateTo, fun _ _ => rfl, .inr ⟨rfl, fun h => h.2 k (List.mem_cons_self k l) hk⟩⟩
    | some a =>
      obtain ⟨t, ht, hr⟩ := ih { s with truncateTo := Function.update s.truncateTo k none }
      have hkeep : ∀ k' ≠ k, Function.update s.truncateTo k none k' = s.truncateTo k' :=
        fun k' h => Function.update_noteq h _ _
      refine ⟨t, fun k' hk' => ?_, ?_⟩
      · rw [ht k' fun h => hk' (List.mem_cons_of_mem k h)]
        exact hkeep k' fun h => hk' (h ▸ List.mem_cons_self k l)
      · rcases hr with hr | ⟨hr, hbad⟩
        · exact .inl hr
        · refine .inr ⟨hr, fun ⟨hnd, hall⟩ => hbad ⟨(List.nodup_cons.mp hnd).2, fun k' hk' => ?_⟩⟩
          show Function.update s.truncateTo k none k' ≠ none
          rw [hkeep k' (ne_of_mem_of_not_mem hk' (List.nodup_cons.mp hnd).1)]
          exact hall k' (List.mem_cons_of_mem k hk')

/-- What the second part of `open` can raise: what `os.open` or `os.ftruncate` raised, a
`ValueError` on a full table, or an `AttributeError` when some reader of a writer's path has
no attribute left. -/
def FinishError (o : Opening) (s : Fs) (e : FsError) : Prop :=
  (∃ e', e = .call e') ∨ (e = .valueError ∧ none ∉ s.openFiles) ∨
    (e = .attributeError ∧ o.truncateTo.isSome ∧ ¬ ((s.readOnlyFiles o.fakePath).Nodup ∧
      ∀ k ∈ s.readOnlyFiles o.fakePath, s.truncateTo k ≠ none))

/-- How the second part of `open` on `s` ends, once the attributes are `t`: it raises a
`FinishError`, or files the instance into a free slot. -/
def FinishOutcome (o : Opening) (s : Fs) (t : Nat → Option (Option Nat))
    (r : EStateM.Result FsError Fs Nat) : Prop :=
  (∃ e, r = .error e { s with truncateTo := t } ∧ FinishError o s e) ∨
    ∃ fh, s.openFiles[fh]? = some none ∧ r = .ok fh ({ s with truncateTo := t }.install fh o)

theorem installNext_outcome (o : Opening) (s : Fs) (t : Nat → Option (Option Nat)) :
    FinishOutcome o s t (Fs.installNext o { s with truncateTo := t }) := by
  rw [installNext_eq]
  cases h : s.openFiles.findIdx? Option.isNone with
  | none => exact .inl ⟨_, by simp [h], .inr (.inl ⟨rfl, findIdx?_isNone_eq_none.mp h⟩)⟩
  | some fh => exact .inr ⟨fh, getElem?_of_findIdx? h, by simp [h]⟩

/-- Everything the second part of `open` can do. It deletes attributes, but only those of
the readers of a writer's path, and then ends as `FinishOutcome` says. -/
theorem openFinish_cases (o : Opening) (osOpen : Except Error Unit) (s : Fs) :
    ∃ t, (∀ k, t k = s.truncateTo k ∨ (k ∈ s.readOnlyFiles o.fakePath ∧ isWritable o.flags = true)) ∧
      FinishOutcome o s t (Fs.openFinish o osOpen s) := by
  cases osOpen with
  | error e => exact ⟨s.truncateTo, fun _ => .inl rfl, .inl ⟨_, rfl, .inl ⟨e, rfl⟩⟩⟩
  | ok u =>
    by_cases hc : (isWritable o.flags && o.truncateTo.isSome) = true
    · have hrun : Fs.openFinish o (.ok u) s = EStateM.bind
          ((s.readOnlyFiles o.fakePath).forM delTruncateTo) (fun _ => Fs.installNext o) s := by
        simp only [Fs.openFinish, hc]; rfl
      simp only [Bool.and_eq_true] at hc
      obtain ⟨t, ht, hr⟩ := forM_delTruncateTo_frame (s.readOnlyFiles o.fakePath) s
      refine ⟨t, fun k => ?_, ?_⟩
      · by_cases hk : k ∈ s.readOnlyFiles o.fakePath
        · exact .inr ⟨hk, hc.1⟩
        · exact .inl (ht k hk)
      rw [hrun]
      rcases hr with hr | ⟨hr, hbad⟩ <;> simp only [EStateM.bind, hr]
      · exact installNext_outcome o s t
      · exact .inl ⟨_, rfl, .inr (.inr ⟨rfl, hc.2, hbad⟩)⟩
    · have hrun : Fs.openFinish o (.ok u) s = Fs.installNext o s := by
        simp only [Fs.openFinish, hc]; rfl
      rw [hrun]
      exact ⟨s.truncateTo, fun _ => .inl rfl, installNext_outcome o s s.truncateTo⟩

theorem openBegin_eq (fakePath : FakePath) (flags : Nat) (realPath : Except Error RealPath) (s : Fs) :
    Fs.openBegin fakePath flags realPath s =
      liftCall (realPath.map fun r => (⟨fakePath, flags, s.truncatedPaths.get? fakePath, r⟩ : Opening))
        (if isWritable flags then { s with truncatedPaths := s.truncatedPaths.erase fakePath } else s) := by
  unfold Fs.openBegin
  cases isWritable flags <;> cases realPath <;> rfl

theorem truncate_eq (fakePath : FakePath) (len : Nat) (ftruncated : Except Error Unit) (s : Fs) :
    Fs.truncate fakePath len ftruncated s =
      if s.frozenPathMappings.contains fakePath then liftCall ftruncated s
      else if (s.truncatedPaths.get? fakePath).all fun t => decide (len < t) then
        .ok () { s with
          truncatedPaths := s.truncatedPaths.set fakePath len
          truncateTo := fun k => if k ∈ s.readOnlyFiles fakePath then some (some len) else s.truncateTo k }
      else .ok () s := by
  simp only [Fs.truncate, bind_apply, EStateM.bind, get_apply]
  split_ifs <;> simp [forM_setTruncateTo]

theorem release_of_reader {s : Fs} {p : FakePath} {flags fh : Nat} {g : File} {l : List Nat}
    (hfh : s.openFiles[fh]? = some (some g)) (hw : isWritable flags = false)
    (hl : s.readOnlyFilesByFakePath.get? p = some l) (hmem : g.id ∈ l) (closed : Except Error Unit) :
    Fs.release p flags fh closed s = liftCall closed { s with
      openFiles := s.openFiles.set fh none
      readOnlyFilesByFakePath := if (l.erase g.id).isEmpty then s.readOnlyFilesByFakePath.erase p
        else s.readOnlyFilesByFakePath.set p (l.erase g.id) } := by
  simp only [Fs.release, bind_apply, EStateM.bind, get_apply, set_apply, modify_apply, hfh, hw, hl,
    hmem, Bool.false_eq_true, ↓reduceIte, not_true_eq_false]
  rfl

theorem release_of_writer {s : Fs} {p : FakePath} {flags fh : Nat} {g : File} {fp : FrozenPath}
    (hfh : s.openFiles[fh]? = some (some g)) (hw : isWritable flags = true)
    (hfp : s.frozenPathMappings.get? p = some fp) (hpos : fp.count ≠ 0) (closed : Except Error Unit) :
    Fs.release p flags fh closed s = liftCall closed { s with
      openFiles := s.openFiles.set fh none
      frozenPathMappings := if fp.count - 1 = 0 then s.frozenPathMappings.erase p
        else s.frozenPathMappings.set p { fp with count := fp.count - 1 } } := by
  simp only [Fs.release, bind_apply, EStateM.bind, get_apply, set_apply, modify_apply, hfh, hw, hfp,
    FrozenPath.decrement, hpos, ↓reduceIte]

@[simp] theorem stateOf_liftCall {α : Type} (x : Except Error α) (s : Fs) :
    stateOf (liftCall x s) = s := by
  cases x <;> rfl

end Run

/-! ## Handle slots -/

section Slots
variable {l : List (Option File)} {fh i : Nat} {f g : File}

/-- No instance sits in two slots. -/
def IdsUnique (l : List (Option File)) : Prop :=
  ∀ (i j : Nat) (f g : File), l[i]? = some (some f) → l[j]? = some (some g) → f.id = g.id → i = j

theorem getElem?_set_some (h : (l.set fh (some g))[i]? = some (some f)) :
    (i = fh ∧ f = g) ∨ (i ≠ fh ∧ l[i]? = some (some f)) := by
  rw [List.getElem?_set] at h
  split_ifs at h with h₁
  · exact .inl ⟨h₁.symm, by simpa [eq_comm] using h⟩
  · exact .inr ⟨Ne.symm h₁, h⟩

theorem getElem?_set_none (h : (l.set fh none)[i]? = some (some f)) :
    i ≠ fh ∧ l[i]? = some (some f) := by
  rw [List.getElem?_set] at h
  split_ifs at h with h₁ <;> simp_all [eq_comm]

theorem mem_set_of_free (hfh : l[fh]? = some none) :
    some f ∈ l.set fh (some g) ↔ some f ∈ l ∨ f = g := by
  have hlt : fh < l.length := (List.getElem?_eq_some_iff.mp hfh).1
  simp only [List.mem_iff_getElem?]
  constructor
  · rintro ⟨i, hi⟩
    rcases getElem?_set_some hi with ⟨-, rfl⟩ | ⟨-, hi⟩
    · exact .inr rfl
    · exact .inl ⟨i, hi⟩
  · rintro (⟨i, hi⟩ | rfl)
    · refine ⟨i, ?_⟩
      rwa [List.getElem?_set_ne]
      rintro rfl; simp [hfh] at hi
    · exact ⟨fh, by simp [hlt]⟩

theorem mem_set_none (hu : IdsUnique l) (hfh : l[fh]? = some (some g)) :
    some f ∈ l.set fh none ↔ some f ∈ l ∧ f.id ≠ g.id := by
  simp only [List.mem_iff_getElem?]
  constructor
  · rintro ⟨i, hi⟩
    obtain ⟨hne, hi⟩ := getElem?_set_none hi
    exact ⟨⟨i, hi⟩, fun he => hne (hu _ _ _ _ hi hfh he)⟩
  · rintro ⟨⟨i, hi⟩, hne⟩
    refine ⟨i, ?_⟩
    rwa [List.getElem?_set_ne]
    rintro rfl; rw [hfh] at hi; cases hi; exact hne rfl

theorem IdsUnique.set_of_free (hu : IdsUnique l) (hfh : l[fh]? = some none)
    (hfresh : ∀ f, some f ∈ l → f.id ≠ g.id) : IdsUnique (l.set fh (some g)) := by
  unfold IdsUnique at hu ⊢
  intro i j f f' hi hj he
  rcases getElem?_set_some hi with ⟨rfl, rfl⟩ | ⟨-, hi'⟩ <;>
    rcases getElem?_set_some hj with ⟨rfl, rfl⟩ | ⟨-, hj'⟩
  · rfl
  · exact absurd he.symm (hfresh f' (List.mem_iff_getElem?.mpr ⟨j, hj'⟩))
  · exact absurd he (hfresh f (List.mem_iff_getElem?.mpr ⟨i, hi'⟩))
  · exact hu _ _ _ _ hi' hj' he

theorem IdsUnique.set_none (hu : IdsUnique l) : IdsUnique (l.set fh none) :=
  fun _ _ _ _ hi hj he => hu _ _ _ _ (getElem?_set_none hi).2 (getElem?_set_none hj).2 he

theorem countP_set_of_free (hfh : l[fh]? = some none) (q : Option File → Bool) (hq : q none = false) :
    (l.set fh (some g)).countP q = l.countP q + if q (some g) then 1 else 0 := by
  obtain ⟨hlt, hget⟩ := List.getElem?_eq_some_iff.mp hfh
  rw [List.countP_set q l fh _ hlt, hget, hq]
  simp

theorem countP_set_none (hfh : l[fh]? = some (some g)) (q : Option File → Bool) (hq : q none = false) :
    (l.set fh none).countP q + (if q (some g) then 1 else 0) = l.countP q := by
  obtain ⟨hlt, hget⟩ := List.getElem?_eq_some_iff.mp hfh
  have hle := List.boole_getElem_le_countP q l fh hlt
  rw [List.countP_set q l fh _ hlt, hget, hq]
  rw [hget] at hle
  simp only [Bool.false_eq_true, ↓reduceIte, Nat.add_zero]
  omega

end Slots

/-! ## The ledgers of the tables -/

/-- Whether a slot holds an instance opened on `fakePath`, for writing or not. -/
def opensOn (fakePath : FakePath) (writable : Bool) : Option File → Bool
  | some f => decide (f.fakePath = fakePath) && isWritable f.flags == writable
  | none => false

/-- The handles open for writing on a path. -/
def Fs.writers (s : Fs) (fakePath : FakePath) : Nat := s.openFiles.countP (opensOn fakePath true)

/-- The writers `frozen_path_mappings` counts on a path. -/
def Fs.frozenCount (s : Fs) (fakePath : FakePath) : Nat :=
  ((s.frozenPathMappings.get? fakePath).map FrozenPath.count).getD 0

/-- What the tables say of the open handles, in every state a mount reaches. -/
structure TableInv (s : Fs) : Prop where
  id_lt : ∀ f, some f ∈ s.openFiles → f.id < s.nextId
  ids_unique : IdsUnique s.openFiles
  frozenCount_eq : ∀ p, s.frozenCount p = s.writers p
  frozen_pos : ∀ p fp, s.frozenPathMappings.get? p = some fp → 0 < fp.count
  mem_readOnlyFiles : ∀ p k, k ∈ s.readOnlyFiles p ↔
    ∃ f, some f ∈ s.openFiles ∧ f.id = k ∧ f.fakePath = p ∧ isWritable f.flags = false
  readOnlyFiles_nodup : ∀ p, (s.readOnlyFiles p).Nodup
  readOnly_ne_nil : ∀ p l, s.readOnlyFilesByFakePath.get? p = some l → l ≠ []

section Admit
variable {s : Fs} {fh : Nat} {o : Opening}

@[simp] theorem install_openFiles :
    (s.install fh o).openFiles = s.openFiles.set fh (some (o.toFile s.nextId)) := by
  unfold Fs.install; split <;> rfl
@[simp] theorem install_nextId : (s.install fh o).nextId = s.nextId + 1 := by
  unfold Fs.install; split <;> rfl
@[simp] theorem install_truncateTo :
    (s.install fh o).truncateTo = Function.update s.truncateTo s.nextId (some o.truncateTo) := by
  unfold Fs.install; split <;> rfl
@[simp] theorem install_truncatedPaths : (s.install fh o).truncatedPaths = s.truncatedPaths := by
  unfold Fs.install; split <;> rfl

theorem install_frozen_get? (q : FakePath) : (s.install fh o).frozenPathMappings.get? q =
    if isWritable o.flags = true ∧ o.fakePath = q then
      some ((s.frozenPathMappings.get? q).getD ⟨o.realPath, 0⟩).increment
    else s.frozenPathMappings.get? q := by
  unfold Fs.install
  split <;> by_cases hq : o.fakePath = q <;> simp_all [Fs.freeze, Fs.addReadOnly, Fs.register]

theorem install_readOnly_get? (q : FakePath) : (s.install fh o).readOnlyFilesByFakePath.get? q =
    if isWritable o.flags = false ∧ o.fakePath = q then some (s.readOnlyFiles q ++ [s.nextId])
    else s.readOnlyFilesByFakePath.get? q := by
  unfold Fs.install
  split <;> by_cases hq : o.fakePath = q <;> simp_all [Fs.freeze, Fs.addReadOnly, Fs.register, Fs.readOnlyFiles]

theorem install_frozenCount (q : FakePath) : (s.install fh o).frozenCount q =
    s.frozenCount q + if isWritable o.flags = true ∧ o.fakePath = q then 1 else 0 := by
  unfold Fs.frozenCount
  rw [install_frozen_get?]
  split_ifs <;> cases s.frozenPathMappings.get? q <;> simp [FrozenPath.increment]

theorem install_readOnlyFiles (q : FakePath) : (s.install fh o).readOnlyFiles q =
    s.readOnlyFiles q ++ if isWritable o.flags = false ∧ o.fakePath = q then [s.nextId] else [] := by
  conv_lhs => unfold Fs.readOnlyFiles
  rw [install_readOnly_get?]
  split_ifs <;> simp [Fs.readOnlyFiles]

end Admit

/-- What a release leaves of the tables: the ledgers hold, the truncations stay, and entries
are only removed; a path still frozen keeps its real path. -/
structure ReleaseFrame (s s' : Fs) : Prop where
  tableInv : TableInv s'
  truncatedPaths_eq : s'.truncatedPaths = s.truncatedPaths
  truncateTo_eq : s'.truncateTo = s.truncateTo
  readOnlyFiles_subset : ∀ q, s'.readOnlyFiles q ⊆ s.readOnlyFiles q
  openFiles_subset : ∀ f, some f ∈ s'.openFiles → some f ∈ s.openFiles
  frozen_realPath : ∀ q fp, s'.frozenPathMappings.get? q = some fp →
    ∃ fp₀, s.frozenPathMappings.get? q = some fp₀ ∧ fp₀.realPath = fp.realPath

theorem ReleaseFrame.frozen_contains {s s' : Fs} (hf : ReleaseFrame s s') {q : FakePath}
    (hq : s'.frozenPathMappings.contains q = true) : s.frozenPathMappings.contains q = true := by
  obtain ⟨fp, hfp⟩ := Dict.exists_of_contains hq
  obtain ⟨fp₀, h₀, -⟩ := hf.frozen_realPath q fp hfp
  simp [Dict.contains_eq_isSome, h₀]

namespace TableInv
variable {s t : Fs} {p q : FakePath} {fh k : Nat} {f g : File}

theorem init : TableInv Fs.init where
  id_lt f hf := by simp [Fs.init] at hf
  ids_unique i j f g hi := by simp [Fs.init, List.getElem?_replicate] at hi
  frozenCount_eq p := by
    simp [Fs.init, Fs.frozenCount, Fs.writers, List.countP_replicate, opensOn]
  frozen_pos p fp h := by simp [Fs.init] at h
  mem_readOnlyFiles p k := by simp [Fs.init, Fs.readOnlyFiles]
  readOnlyFiles_nodup p := by simp [Fs.init, Fs.readOnlyFiles]
  readOnly_ne_nil p l h := by simp [Fs.init] at h

/-- The ledgers read only the slots, the identities, the frozen paths and the reader lists. -/
theorem congr (h : TableInv s) (h₁ : t.openFiles = s.openFiles) (h₂ : t.nextId = s.nextId)
    (h₃ : t.frozenPathMappings = s.frozenPathMappings)
    (h₄ : t.readOnlyFilesByFakePath = s.readOnlyFilesByFakePath) : TableInv t := by
  obtain ⟨a, b, c, d, e, f, g⟩ := h
  constructor <;> simp only [Fs.writers, Fs.frozenCount, Fs.readOnlyFiles, h₁, h₂, h₃, h₄] <;>
    assumption

theorem eq_of_id_eq (h : TableInv s) (hg : s.openFiles[fh]? = some (some g))
    (hf : some f ∈ s.openFiles) (he : f.id = g.id) : f = g := by
  obtain ⟨i, hi⟩ := List.mem_iff_getElem?.mp hf
  obtain rfl := h.ids_unique _ _ _ _ hi hg he
  rw [hg] at hi
  exact (Option.some.inj (Option.some.inj hi)).symm

theorem readOnlyFiles_lt (h : TableInv s) (hk : k ∈ s.readOnlyFiles p) : k < s.nextId := by
  obtain ⟨f, hf, rfl, -⟩ := (h.mem_readOnlyFiles p k).mp hk
  exact h.id_lt f hf

/-- An instance is on the list of one path only. -/
theorem readOnlyFiles_disjoint (h : TableInv s) (hp : k ∈ s.readOnlyFiles p)
    (hq : k ∈ s.readOnlyFiles q) : p = q := by
  obtain ⟨f, hf, rfl, rfl, -⟩ := (h.mem_readOnlyFiles p k).mp hp
  obtain ⟨g, hg, hid, rfl, -⟩ := (h.mem_readOnlyFiles q _).mp hq
  obtain ⟨j, hj⟩ := List.mem_iff_getElem?.mp hg
  rw [h.eq_of_id_eq hj hf hid.symm]

/-- Filing a new instance into a free slot keeps the ledgers. -/
theorem install (h : TableInv s) (hfh : s.openFiles[fh]? = some none) (o : Opening) :
    TableInv (s.install fh o) where
  id_lt f hf := by
    rw [install_openFiles, mem_set_of_free hfh] at hf
    rcases hf with hf | rfl
    · simpa using Nat.lt_succ_of_lt (h.id_lt f hf)
    · simp [Opening.toFile]
  ids_unique := by
    rw [install_openFiles]
    exact h.ids_unique.set_of_free hfh fun f hf => (h.id_lt f hf).ne
  frozenCount_eq q := by
    rw [install_frozenCount, h.frozenCount_eq, Fs.writers, Fs.writers, install_openFiles,
      countP_set_of_free hfh _ rfl]
    simp [opensOn, Opening.toFile, and_comm]
  frozen_pos q fp hq := by
    rw [install_frozen_get?] at hq
    split_ifs at hq
    · cases hq; simp [FrozenPath.increment]
    · exact h.frozen_pos q fp hq
  mem_readOnlyFiles q k := by
    rw [install_readOnlyFiles, install_openFiles, List.mem_append, h.mem_readOnlyFiles]
    simp only [mem_set_of_free hfh, or_and_right, exists_or, exists_eq_left, Opening.toFile]
    refine or_congr_right ?_
    split_ifs with hc
    · rw [List.mem_singleton, hc.1, hc.2]; simp [eq_comm]
    · simp only [List.not_mem_nil, false_iff]
      rintro ⟨-, h₁, h₂⟩
      exact hc ⟨h₂, h₁⟩
  readOnlyFiles_nodup q := by
    rw [install_readOnlyFiles]
    split_ifs
    · exact (h.readOnlyFiles_nodup q).append (List.nodup_singleton _) fun a ha hb => by
        simp only [List.mem_singleton] at hb
        exact (h.readOnlyFiles_lt ha).ne hb
    · simpa using h.readOnlyFiles_nodup q
  readOnly_ne_nil q l hq := by
    rw [install_readOnly_get?] at hq
    split_ifs at hq
    · cases hq; simp
    · exact h.readOnly_ne_nil q l hq

/-- A path is frozen exactly while a handle is open for writing on it. -/
theorem frozen_contains_iff (h : TableInv s) (p : FakePath) :
    s.frozenPathMappings.contains p = true ↔ 0 < s.writers p := by
  rw [Dict.contains_iff, Dict.mem_keys_iff, ← h.frozenCount_eq p, Fs.frozenCount]
  cases hp : s.frozenPathMappings.get? p with
  | none => simp
  | some fp => simpa using h.frozen_pos p fp hp

/-- The readers left once slot `fh` is freed are those other than its file. -/
theorem readers_set_none (h : TableInv s) (hfh : s.openFiles[fh]? = some (some g)) (q : FakePath)
    (k : Nat) : (∃ f, some f ∈ s.openFiles.set fh none ∧ f.id = k ∧ f.fakePath = q ∧
      isWritable f.flags = false) ↔ k ∈ s.readOnlyFiles q ∧ k ≠ g.id := by
  rw [h.mem_readOnlyFiles]
  simp only [mem_set_none h.ids_unique hfh]
  constructor
  · rintro ⟨f, ⟨hf, hne⟩, rfl, hq, hw⟩; exact ⟨⟨f, hf, rfl, hq, hw⟩, hne⟩
  · rintro ⟨⟨f, hf, rfl, hq, hw⟩, hne⟩; exact ⟨f, ⟨hf, hne⟩, rfl, hq, hw⟩

/-- Only a reader's id is on a reader list, and only on its own path's. -/
theorem of_id_mem_readOnlyFiles (h : TableInv s) (hfh : s.openFiles[fh]? = some (some g))
    (hk : g.id ∈ s.readOnlyFiles q) : q = g.fakePath ∧ isWritable g.flags = false := by
  obtain ⟨f, hf, he, rfl, hw⟩ := (h.mem_readOnlyFiles q g.id).mp hk
  obtain rfl := h.eq_of_id_eq hfh hf he
  exact ⟨rfl, hw⟩

theorem writers_set_none (hfh : s.openFiles[fh]? = some (some g)) (q : FakePath) :
    (s.openFiles.set fh none).countP (opensOn q true) +
      (if g.fakePath = q ∧ isWritable g.flags = true then 1 else 0) = s.writers q := by
  have := countP_set_none hfh (opensOn q true) rfl
  simp only [opensOn, Bool.and_eq_true, decide_eq_true_eq, beq_iff_eq] at this
  simpa only [Fs.writers] using this

/-- A reader's release takes its instance off its path's list, which goes when it empties. -/
theorem release_reader (h : TableInv s) (hfh : s.openFiles[fh]? = some (some g))
    (hgp : g.fakePath = p) (hgw : isWritable g.flags = false) {flags : Nat}
    (hw : isWritable flags = false) (closed : Except Error Unit) :
    ∃ s', Fs.release p flags fh closed s = liftCall closed s' ∧ ReleaseFrame s s' := by
  have hmem : g.id ∈ s.readOnlyFiles p :=
    (h.mem_readOnlyFiles p g.id).mpr ⟨g, List.mem_iff_getElem?.mpr ⟨fh, hfh⟩, rfl, hgp, hgw⟩
  obtain ⟨l, hl⟩ : ∃ l, s.readOnlyFilesByFakePath.get? p = some l := by
    cases hq : s.readOnlyFilesByFakePath.get? p with
    | none => simp [Fs.readOnlyFiles, hq] at hmem
    | some l => exact ⟨l, rfl⟩
  have hlro : s.readOnlyFiles p = l := by simp [Fs.readOnlyFiles, hl]
  let s' : Fs := { s with
    openFiles := s.openFiles.set fh none
    readOnlyFilesByFakePath := if (l.erase g.id).isEmpty then s.readOnlyFilesByFakePath.erase p
      else s.readOnlyFilesByFakePath.set p (l.erase g.id) }
  have hro : ∀ q, s'.readOnlyFiles q = if p = q then l.erase g.id else s.readOnlyFiles q := by
    intro q
    by_cases hpq : p = q
    · subst hpq
      simp only [s', Fs.readOnlyFiles]
      split_ifs with he
      · simpa using (List.isEmpty_iff.mp he).symm
      · simp
    · simp only [s', Fs.readOnlyFiles, hpq, ↓reduceIte]
      split_ifs <;> simp [hpq]
  have hslots : ∀ f, some f ∈ s'.openFiles → some f ∈ s.openFiles :=
    fun f hf => ((mem_set_none h.ids_unique hfh).mp hf).1
  refine ⟨s', release_of_reader hfh hw hl (hlro ▸ hmem) closed,
    ⟨?_, rfl, rfl, fun q => ?_, hslots, fun q fp hq => ⟨fp, hq, rfl⟩⟩⟩
  · exact {
      id_lt := fun f hf => h.id_lt f (hslots f hf)
      ids_unique := h.ids_unique.set_none
      frozenCount_eq := fun q => by
        have hc := writers_set_none hfh q
        simp only [hgw, Bool.false_eq_true, and_false, ↓reduceIte, Nat.add_zero] at hc
        exact (h.frozenCount_eq q).trans hc.symm
      frozen_pos := h.frozen_pos
      mem_readOnlyFiles := fun q k => by
        rw [show s'.openFiles = s.openFiles.set fh none from rfl, h.readers_set_none hfh, hro]
        split_ifs with hq
        · subst hq
          rw [← hlro, (h.readOnlyFiles_nodup p).mem_erase_iff, and_comm]
        · refine ⟨fun hk => ⟨hk, fun he => ?_⟩, And.left⟩
          subst he
          exact hq ((h.of_id_mem_readOnlyFiles hfh hk).1.trans hgp).symm
      readOnlyFiles_nodup := fun q => by
        rw [hro]; split_ifs
        · exact hlro ▸ (h.readOnlyFiles_nodup p).erase _
        · exact h.readOnlyFiles_nodup q
      readOnly_ne_nil := fun q l' hq => by
        simp only [s'] at hq
        split_ifs at hq with he <;> simp only [Dict.get?_erase, Dict.get?_set] at hq
        · split_ifs at hq; exact h.readOnly_ne_nil q l' hq
        · split_ifs at hq
          · cases hq; simpa [List.isEmpty_iff] using he
          · exact h.readOnly_ne_nil q l' hq }
  · rw [hro]; split_ifs with hq
    · subst hq; rw [← hlro]; exact List.erase_subset _ _
    · exact List.Subset.refl _

/-- A writer's release counts its path's freeze down, and thaws it at none. -/
theorem release_writer (h : TableInv s) (hfh : s.openFiles[fh]? = some (some g))
    (hgp : g.fakePath = p) (hgw : isWritable g.flags = true) {flags : Nat}
    (hw : isWritable flags = true) (closed : Except Error Unit) :
    ∃ s', Fs.release p flags fh closed s = liftCall closed s' ∧ ReleaseFrame s s' := by
  have hpos : 0 < s.writers p :=
    List.countP_pos_iff.mpr ⟨some g, List.mem_iff_getElem?.mpr ⟨fh, hfh⟩, by simp [opensOn, hgp, hgw]⟩
  obtain ⟨fp, hfp⟩ := Dict.exists_of_contains ((h.frozen_contains_iff p).mpr hpos)
  have hfc : fp.count = s.writers p := by simpa [Fs.frozenCount, hfp] using h.frozenCount_eq p
  let s' : Fs := { s with
    openFiles := s.openFiles.set fh none
    frozenPathMappings := if fp.count - 1 = 0 then s.frozenPathMappings.erase p
      else s.frozenPathMappings.set p { fp with count := fp.count - 1 } }
  have hslots : ∀ f, some f ∈ s'.openFiles → some f ∈ s.openFiles :=
    fun f hf => ((mem_set_none h.ids_unique hfh).mp hf).1
  refine ⟨s', release_of_writer hfh hw hfp (hfc ▸ hpos.ne') closed,
    ⟨?_, rfl, rfl, fun q => List.Subset.refl _, hslots, fun q fp' hq => ?_⟩⟩
  · exact {
      id_lt := fun f hf => h.id_lt f (hslots f hf)
      ids_unique := h.ids_unique.set_none
      frozenCount_eq := fun q => by
        have hc := writers_set_none hfh q
        rw [hgp, hgw, ← h.frozenCount_eq q] at hc
        simp only [s', Fs.frozenCount, Fs.writers] at hc ⊢
        by_cases hq : p = q
        · subst hq; simp only [hfp, and_true, ↓reduceIte, Option.map_some', Option.getD_some] at hc
          split_ifs <;> simp <;> omega
        · simp only [hq, and_true, ↓reduceIte, Nat.add_zero] at hc
          rw [hc]; split_ifs <;> simp [hq]
      frozen_pos := fun q fp' hq => by
        simp only [s'] at hq
        split_ifs at hq with he <;> simp only [Dict.get?_erase, Dict.get?_set] at hq <;>
          split_ifs at hq
        · exact h.frozen_pos q fp' hq
        · cases hq; simp only; omega
        · exact h.frozen_pos q fp' hq
      mem_readOnlyFiles := fun q k => by
        rw [show s'.openFiles = s.openFiles.set fh none from rfl, h.readers_set_none hfh]
        refine ⟨fun hk => ⟨hk, fun he => ?_⟩, And.left⟩
        subst he
        exact Bool.false_ne_true ((h.of_id_mem_readOnlyFiles hfh hk).2.symm.trans hgw)
      readOnlyFiles_nodup := h.readOnlyFiles_nodup
      readOnly_ne_nil := h.readOnly_ne_nil }
  · simp only [s'] at hq
    by_cases hpq : p = q
    · subst hpq
      split_ifs at hq <;> simp only [Dict.get?_erase, Dict.get?_set, ↓reduceIte] at hq
      · cases hq
      · exact ⟨fp, hfp, by cases hq; rfl⟩
    · refine ⟨fp', ?_, rfl⟩
      split_ifs at hq <;> simpa [hpq] using hq

theorem validRelease_iff {fakePath : FakePath} {flags : Nat} :
    s.validRelease fakePath flags fh = true ↔ ∃ g, s.openFiles[fh]? = some (some g) ∧
      g.fakePath = fakePath ∧ isWritable g.flags = isWritable flags := by
  unfold Fs.validRelease
  split <;> simp_all

/-- Everything a release FUSE issues does: it raises nothing but what closing the file
raises, and leaves the tables as `ReleaseFrame` says. -/
theorem release_cases (h : TableInv s) {flags : Nat} (hv : s.validRelease p flags fh = true)
    (closed : Except Error Unit) :
    ∃ s', Fs.release p flags fh closed s = liftCall closed s' ∧ ReleaseFrame s s' := by
  obtain ⟨g, hfh, hgp, hgw⟩ := validRelease_iff.mp hv
  cases hw : isWritable flags
  · exact h.release_reader hfh hgp (hgw.trans hw) hw closed
  · exact h.release_writer hfh hgp (hgw.trans hw) hw closed

end TableInv

namespace TableInv
variable {s : Fs} {p : FakePath}

theorem of_openBegin (h : TableInv s) (flags : Nat) (realPath : Except Error RealPath) :
    TableInv (stateOf (Fs.openBegin p flags realPath s)) := by
  rw [openBegin_eq, stateOf_liftCall]
  split_ifs
  · exact h.congr rfl rfl rfl rfl
  · exact h

theorem of_openFinish (h : TableInv s) (o : Opening) (osOpen : Except Error Unit) :
    TableInv (stateOf (Fs.openFinish o osOpen s)) := by
  obtain ⟨t, -, ⟨e, he, -⟩ | ⟨fh, hfh, he⟩⟩ := openFinish_cases o osOpen s <;> rw [he]
  · exact h.congr rfl rfl rfl rfl
  · have h' : TableInv { s with truncateTo := t } := h.congr rfl rfl rfl rfl
    exact h'.install hfh o

theorem of_release (h : TableInv s) {flags fh : Nat} (hv : s.validRelease p flags fh = true)
    (closed : Except Error Unit) : TableInv (stateOf (Fs.release p flags fh closed s)) := by
  obtain ⟨s', he, hf⟩ := h.release_cases hv closed
  rw [he, stateOf_liftCall]
  exact hf.tableInv

theorem of_truncate (h : TableInv s) (len : Nat) (ftruncated : Except Error Unit) :
    TableInv (stateOf (Fs.truncate p len ftruncated s)) := by
  rw [truncate_eq]
  split_ifs
  · rw [stateOf_liftCall]; exact h
  · exact h.congr rfl rfl rfl rfl
  · exact h

end TableInv

/-! ## Runs of a mount -/

/-- The states of a multithreaded mount, with the opens waiting in `os.open`. Between the
two parts of an `open`, any other operation may run. -/
inductive Reachable : Fs → List Opening → Prop where
  | init : Reachable Fs.init []
  | begun {s os} (fakePath : FakePath) (flags : Nat) (realPath : Except Error RealPath) :
      Reachable s os →
      Reachable (stateOf (Fs.openBegin fakePath flags realPath s))
        ((valueOf (Fs.openBegin fakePath flags realPath s)).toList ++ os)
  | finished {s os} (o : Opening) (osOpen : Except Error Unit) : Reachable s os → o ∈ os →
      Reachable (stateOf (Fs.openFinish o osOpen s)) (os.erase o)
  | released {s os} (fakePath : FakePath) (flags fh : Nat) (closed : Except Error Unit) :
      Reachable s os → s.validRelease fakePath flags fh = true →
      Reachable (stateOf (Fs.release fakePath flags fh closed s)) os
  | truncated {s os} (fakePath : FakePath) (len : Nat) (ftruncated : Except Error Unit) :
      Reachable s os → Reachable (stateOf (Fs.truncate fakePath len ftruncated s)) os

/-- The states of a single-threaded mount (`-s`), where each `open` runs whole. -/
inductive SeqReachable : Fs → Prop where
  | init : SeqReachable Fs.init
  | opened {s} (fakePath : FakePath) (flags : Nat) (realPath : Except Error RealPath)
      (osOpen : Except Error Unit) : SeqReachable s →
      SeqReachable (stateOf (Fs.open fakePath flags realPath osOpen s))
  | released {s} (fakePath : FakePath) (flags fh : Nat) (closed : Except Error Unit) :
      SeqReachable s → s.validRelease fakePath flags fh = true →
      SeqReachable (stateOf (Fs.release fakePath flags fh closed s))
  | truncated {s} (fakePath : FakePath) (len : Nat) (ftruncated : Except Error Unit) :
      SeqReachable s → SeqReachable (stateOf (Fs.truncate fakePath len ftruncated s))

theorem open_eq (fakePath : FakePath) (flags : Nat) (realPath : Except Error RealPath)
    (osOpen : Except Error Unit) (s : Fs) : Fs.open fakePath flags realPath osOpen s =
      match Fs.openBegin fakePath flags realPath s with
      | .ok o s' => Fs.openFinish o osOpen s'
      | .error e s' => .error e s' := by
  simp only [Fs.open, bind_apply, EStateM.bind]
  cases Fs.openBegin fakePath flags realPath s <;> rfl

theorem Reachable.tableInv {s : Fs} {os : List Opening} (hs : Reachable s os) : TableInv s := by
  induction hs with
  | init => exact TableInv.init
  | begun _ flags realPath _ ih => exact ih.of_openBegin flags realPath
  | finished o osOpen _ _ ih => exact ih.of_openFinish o osOpen
  | released _ _ _ closed _ hv ih => exact ih.of_release hv closed
  | truncated _ len ftruncated _ ih => exact ih.of_truncate len ftruncated

/-- Over every interleaving, `frozen_path_mappings` counts the handles open for writing on
each path and holds exactly the paths that have one, and the reader list of a path holds
exactly the read-only instances open on it. -/
theorem open_file_ledgers {s : Fs} {os : List Opening} (hs : Reachable s os) (p : FakePath) :
    s.frozenCount p = s.writers p ∧ (s.frozenPathMappings.contains p = true ↔ 0 < s.writers p) ∧
      ∀ k, k ∈ s.readOnlyFiles p ↔
        ∃ f, some f ∈ s.openFiles ∧ f.id = k ∧ f.fakePath = p ∧ isWritable f.flags = false :=
  ⟨hs.tableInv.frozenCount_eq p, hs.tableInv.frozen_contains_iff p, hs.tableInv.mem_readOnlyFiles p⟩

/-- Over every interleaving, a release FUSE issues raises nothing but what closing the file
raises: no `KeyError`, `ValueError`, `IndexError`, `AttributeError`, and no
`AssertionError` from `FrozenPath.decrement`. -/
theorem release_raises_only_close_errors {s : Fs} {os : List Opening} (hs : Reachable s os)
    {p : FakePath} {flags fh : Nat} (hv : s.validRelease p flags fh = true)
    (closed : Except Error Unit) : ∃ s', Fs.release p flags fh closed s = liftCall closed s' :=
  let ⟨s', he, _⟩ := hs.tableInv.release_cases hv closed
  ⟨s', he⟩

/-! ## Pending truncations on a single-threaded mount -/

/-- What `truncated_paths` and the `truncate_to` attributes say of each other when every
`open` runs whole. -/
structure TruncInv (s : Fs) : Prop where
  frozen_untruncated : ∀ p, s.frozenPathMappings.contains p = true → s.truncatedPaths.get? p = none
  readOnly_truncateTo : ∀ p n k, s.truncatedPaths.get? p = some n → k ∈ s.readOnlyFiles p →
    s.truncateTo k = some (some n)

namespace TruncInv
variable {s : Fs} {p : FakePath}

theorem init : TruncInv Fs.init where
  frozen_untruncated p _ := by simp [Fs.init]
  readOnly_truncateTo p n k h := by simp [Fs.init] at h

/-- Attributes may change on the readers of a path with no pending truncation. -/
theorem withTruncateTo (h : TableInv s) (ht : TruncInv s) (hp : s.truncatedPaths.get? p = none)
    {t : Nat → Option (Option Nat)} (hteq : ∀ k, t k = s.truncateTo k ∨ k ∈ s.readOnlyFiles p) :
    TruncInv { s with truncateTo := t } where
  frozen_untruncated := ht.frozen_untruncated
  readOnly_truncateTo q n k hq hk := by
    rcases hteq k with he | hk'
    · exact he.trans (ht.readOnly_truncateTo q n k hq hk)
    · obtain rfl := h.readOnlyFiles_disjoint hk' hk
      simp [hp] at hq

/-- A writer is filed only on a path with no pending truncation. -/
theorem install_writer (h : TableInv s) (ht : TruncInv s) {fh : Nat} {o : Opening}
    (hw : isWritable o.flags = true) (hp : s.truncatedPaths.get? o.fakePath = none) :
    TruncInv (s.install fh o) where
  frozen_untruncated q hq := by
    rw [install_truncatedPaths]
    by_cases hoq : o.fakePath = q
    · exact hoq ▸ hp
    · simp only [Dict.contains_iff, Dict.mem_keys_iff, install_frozen_get?, hoq, and_false,
        ↓reduceIte] at hq
      exact ht.frozen_untruncated q (by simpa [Dict.contains_iff, Dict.mem_keys_iff] using hq)
  readOnly_truncateTo q n k hq hk := by
    rw [install_truncatedPaths] at hq
    rw [install_readOnlyFiles, hw] at hk
    simp only [Bool.true_eq_false, false_and, ↓reduceIte, List.append_nil] at hk
    rw [install_truncateTo, Function.update_noteq (h.readOnlyFiles_lt hk).ne]
    exact ht.readOnly_truncateTo q n k hq hk

/-- A reader is filed with the truncation pending on its path. -/
theorem install_reader (h : TableInv s) (ht : TruncInv s) {fh : Nat} {o : Opening}
    (hw : isWritable o.flags = false) (ho : o.truncateTo = s.truncatedPaths.get? o.fakePath) :
    TruncInv (s.install fh o) where
  frozen_untruncated q hq := by
    simp only [Dict.contains_iff, Dict.mem_keys_iff, install_frozen_get?, hw, Bool.false_eq_true,
      false_and, ↓reduceIte] at hq
    rw [install_truncatedPaths]
    exact ht.frozen_untruncated q (by simpa [Dict.contains_iff, Dict.mem_keys_iff] using hq)
  readOnly_truncateTo q n k hq hk := by
    rw [install_truncatedPaths] at hq
    rw [install_readOnlyFiles, List.mem_append] at hk
    rw [install_truncateTo]
    rcases hk with hk | hk
    · rw [Function.update_noteq (h.readOnlyFiles_lt hk).ne]
      exact ht.readOnly_truncateTo q n k hq hk
    · split_ifs at hk with hc
      · rw [List.mem_singleton.mp hk, Function.update_same, ho, hc.2, hq]
      · simp at hk

theorem of_open (h : TableInv s) (ht : TruncInv s) (flags : Nat) (realPath : Except Error RealPath)
    (osOpen : Except Error Unit) : TruncInv (stateOf (Fs.open p flags realPath osOpen s)) := by
  rw [open_eq, openBegin_eq]
  cases hw : isWritable flags
  · -- a reader reads the pending truncation and changes nothing before it is filed
    simp only [Bool.false_eq_true, ↓reduceIte]
    cases realPath with
    | error e => exact ht
    | ok r =>
      obtain ⟨t, hteq, ⟨e, he, -⟩ | ⟨fh, hfh, he⟩⟩ := openFinish_cases ⟨p, flags, s.truncatedPaths.get? p, r⟩ osOpen s <;>
        simp only [Except.map, liftCall_ok, he, stateOf] <;>
        have hts : { s with truncateTo := t } = s := by
          congr; funext k; simpa [hw] using hteq k
      · rw [hts]; exact ht
      · rw [hts]; exact ht.install_reader h hw rfl
  · -- a writer pops the pending truncation first
    simp only [↓reduceIte]
    let s₁ : Fs := { s with truncatedPaths := s.truncatedPaths.erase p }
    have h₁ : TableInv s₁ := h.congr rfl rfl rfl rfl
    have hp₁ : s₁.truncatedPaths.get? p = none := by simp [s₁]
    have ht₁ : TruncInv s₁ := {
      frozen_untruncated := fun q hq => by
        simp only [s₁, Dict.get?_erase]; split_ifs
        · rfl
        · exact ht.frozen_untruncated q hq
      readOnly_truncateTo := fun q n k hq hk => by
        simp only [s₁, Dict.get?_erase] at hq; split_ifs at hq
        exact ht.readOnly_truncateTo q n k hq hk }
    cases realPath with
    | error e => exact ht₁
    | ok r =>
      obtain ⟨t, hteq, ⟨e, he, -⟩ | ⟨fh, hfh, he⟩⟩ := openFinish_cases ⟨p, flags, s.truncatedPaths.get? p, r⟩ osOpen s₁ <;>
        simp only [Except.map, liftCall_ok, he, stateOf] <;>
        have ht₂ : TruncInv { s₁ with truncateTo := t } :=
          ht₁.withTruncateTo h₁ hp₁ fun k => (hteq k).imp_right And.left
      · exact ht₂
      · have h₂ : TableInv { s₁ with truncateTo := t } := h₁.congr rfl rfl rfl rfl
        exact ht₂.install_writer h₂ hw hp₁

theorem of_release (h : TableInv s) (ht : TruncInv s) {flags fh : Nat}
    (hv : s.validRelease p flags fh = true) (closed : Except Error Unit) :
    TruncInv (stateOf (Fs.release p flags fh closed s)) := by
  obtain ⟨s', he, hf⟩ := h.release_cases hv closed
  rw [he, stateOf_liftCall]
  exact {
    frozen_untruncated := fun q hq => hf.truncatedPaths_eq ▸ ht.frozen_untruncated q (hf.frozen_contains hq)
    readOnly_truncateTo := fun q n k hq hk => hf.truncateTo_eq ▸
      ht.readOnly_truncateTo q n k (hf.truncatedPaths_eq ▸ hq) (hf.readOnlyFiles_subset q hk) }

theorem of_truncate (h : TableInv s) (ht : TruncInv s) (len : Nat) (ftruncated : Except Error Unit) :
    TruncInv (stateOf (Fs.truncate p len ftruncated s)) := by
  rw [truncate_eq]
  split_ifs with hf
  · rw [stateOf_liftCall]; exact ht
  · rw [stateOf_ok]
    exact {
      frozen_untruncated := fun q hq => by
        simp only [Dict.get?_set]
        split_ifs with hpq
        · exact absurd (hpq ▸ hq) hf
        · exact ht.frozen_untruncated q hq
      readOnly_truncateTo := fun q n k hq hk => by
        simp only [Dict.get?_set] at hq
        split_ifs at hq with hpq
        · subst hpq; cases hq; simp [show k ∈ s.readOnlyFiles p from hk]
        · have hk' : k ∉ s.readOnlyFiles p := fun hk' => hpq (h.readOnlyFiles_disjoint hk' hk)
          simpa [hk'] using ht.readOnly_truncateTo q n k hq hk }
  · exact ht

end TruncInv

theorem SeqReachable.inv {s : Fs} (hs : SeqReachable s) : TableInv s ∧ TruncInv s := by
  induction hs with
  | init => exact ⟨TableInv.init, TruncInv.init⟩
  | @opened s p flags realPath osOpen _ ih =>
    refine ⟨?_, ih.2.of_open ih.1 flags realPath osOpen⟩
    rw [open_eq]
    have hb := ih.1.of_openBegin (p := p) flags realPath
    revert hb
    cases Fs.openBegin p flags realPath s with
    | ok o s' => exact fun hb => hb.of_openFinish o osOpen
    | error e s' => exact id
  | released _ _ _ closed _ hv ih => exact ⟨ih.1.of_release hv closed, ih.2.of_release ih.1 hv closed⟩
  | truncated _ len ftruncated _ ih =>
    exact ⟨ih.1.of_truncate len ftruncated, ih.2.of_truncate ih.1 len ftruncated⟩

/-- On a single-threaded mount `open` raises only what one of its calls raised
(`get_real_path`, `os.open`, `os.ftruncate`), or `ValueError` when every slot is taken:
never the `AttributeError` of a `del_truncate_to` on an instance with no attribute left. -/
theorem open_raises_only_call_errors_or_full_table {s : Fs} (hs : SeqReachable s) {p : FakePath}
    {flags : Nat} {realPath : Except Error RealPath} {osOpen : Except Error Unit} {e : FsError}
    (he : errorOf (Fs.open p flags realPath osOpen s) = some e) :
    (∃ e', e = .call e') ∨ (e = .valueError ∧ none ∉ s.openFiles) := by
  obtain ⟨h, ht⟩ := hs.inv
  rw [open_eq, openBegin_eq] at he
  set s₁ := if isWritable flags then { s with truncatedPaths := s.truncatedPaths.erase p } else s
    with hs₁
  have hfiles : s₁.openFiles = s.openFiles := by rw [hs₁]; split <;> rfl
  have hro : s₁.readOnlyFiles p = s.readOnlyFiles p := by rw [hs₁]; split <;> rfl
  have hattr : s₁.truncateTo = s.truncateTo := by rw [hs₁]; split <;> rfl
  cases realPath with
  | error e' =>
    simp only [Except.map, liftCall_error, errorOf, Option.some.injEq] at he
    exact .inl ⟨e', he.symm⟩
  | ok r =>
    simp only [Except.map, liftCall_ok] at he
    obtain ⟨t, -, ⟨e₁, he₁, hcases⟩ | ⟨fh, -, he₁⟩⟩ :=
      openFinish_cases ⟨p, flags, s.truncatedPaths.get? p, r⟩ osOpen s₁ <;>
      simp only [he₁, errorOf, Option.some.injEq, reduceCtorEq] at he
    subst he
    rcases hcases with hcall | ⟨rfl, hfull⟩ | ⟨rfl, hsome, hbad⟩
    · exact .inl hcall
    · exact .inr ⟨rfl, hfiles ▸ hfull⟩
    · obtain ⟨n, hn⟩ := Option.isSome_iff_exists.mp hsome
      refine absurd ⟨hro ▸ h.readOnlyFiles_nodup p, fun k hk => ?_⟩ hbad
      rw [hattr, ht.readOnly_truncateTo p n k hn (hro ▸ hk)]
      exact Option.some_ne_none _

/-- On a single-threaded mount, while a truncation is pending on a path, no handle is open
for writing on it and every handle on it reports the size `getattr` reports for the path. -/
theorem handles_see_pending_truncation {s : Fs} (hs : SeqReachable s) {p : FakePath}
    {n fh : Nat} {f : File} (ht : s.truncatedPaths.get? p = some n)
    (hfh : s.openFiles[fh]? = some (some f)) (hp : f.fakePath = p) (stSize : Nat) :
    s.writers p = 0 ∧ s.fgetattrSize fh stSize = .ok (s.getattrSize p stSize) := by
  obtain ⟨h, htr⟩ := hs.inv
  have hf : some f ∈ s.openFiles := List.mem_iff_getElem?.mpr ⟨fh, hfh⟩
  have hnf : s.frozenPathMappings.contains p = false := by
    cases hc : s.frozenPathMappings.contains p
    · rfl
    · simp [htr.frozen_untruncated p hc] at ht
  have hw0 : s.writers p = 0 := by
    by_contra hne
    have := (h.frozen_contains_iff p).mpr (Nat.pos_of_ne_zero hne)
    simp [hnf] at this
  refine ⟨hw0, ?_⟩
  cases hw : isWritable f.flags
  · have hk : f.id ∈ s.readOnlyFiles p := (h.mem_readOnlyFiles p f.id).mpr ⟨f, hf, rfl, hp, hw⟩
    simp [Fs.fgetattrSize, hfh, hw, htr.readOnly_truncateTo p n f.id ht hk, Fs.getattrSize, hnf, ht]
  · have : 0 < s.writers p := List.countP_pos_iff.mpr ⟨some f, hf, by simp [opensOn, hp, hw]⟩
    omega

/-! ## Runs on `/song` -/

def song : FakePath := [⟨"song", by decide, by decide⟩]

/-- A writer opens `/song`, both parts of its `open` run back to back. -/
def writerOpening : Opening := ⟨song, 1, none, "a.ogg"⟩
def writerOpen : Fs :=
  stateOf (Fs.openFinish writerOpening (.ok ()) (stateOf (Fs.openBegin song 1 (.ok "a.ogg") Fs.init)))

theorem writerOpen_reachable : Reachable writerOpen [] :=
  Reachable.finished writerOpening (.ok ()) (.begun song 1 (.ok "a.ogg") .init) (by decide)

theorem writerOpen_ledgers : Reachable writerOpen [] ∧
    (writerOpen.frozenCount song = writerOpen.writers song ∧
      (writerOpen.frozenPathMappings.contains song = true ↔ 0 < writerOpen.writers song) ∧
      ∀ k, k ∈ writerOpen.readOnlyFiles song ↔ ∃ f, some f ∈ writerOpen.openFiles ∧ f.id = k ∧
        f.fakePath = song ∧ isWritable f.flags = false) :=
  ⟨writerOpen_reachable, open_file_ledgers writerOpen_reachable song⟩

set_option maxRecDepth 8000 in
theorem writerOpen_release : Reachable writerOpen [] ∧ writerOpen.validRelease song 1 0 = true ∧
    ∃ s', Fs.release song 1 0 (.ok ()) writerOpen = liftCall (.ok ()) s' :=
  ⟨writerOpen_reachable, by decide,
    release_raises_only_close_errors writerOpen_reachable (by decide) (.ok ())⟩

/-- `/song` truncated to 10 bytes, then opened by a reader. -/
def truncatedThenRead : Fs :=
  stateOf (Fs.open song 0 (.ok "a.ogg") (.ok ()) (stateOf (Fs.truncate song 10 (.ok ()) Fs.init)))

theorem truncatedThenRead_reachable : SeqReachable truncatedThenRead :=
  .opened song 0 (.ok "a.ogg") (.ok ()) (.truncated song 10 (.ok ()) .init)

set_option maxRecDepth 8000 in
theorem truncatedThenRead_failed_writer : SeqReachable truncatedThenRead ∧
    errorOf (Fs.open song 1 (.ok "a.ogg") (.error (.osError "a.ogg")) truncatedThenRead) =
      some (.call (.osError "a.ogg")) ∧
    ((∃ e', FsError.call (.osError "a.ogg") = .call e') ∨
      (FsError.call (.osError "a.ogg") = .valueError ∧ none ∉ truncatedThenRead.openFiles)) :=
  have he : errorOf (Fs.open song 1 (.ok "a.ogg") (.error (.osError "a.ogg")) truncatedThenRead) =
      some (.call (.osError "a.ogg")) := by decide
  ⟨truncatedThenRead_reachable, he, open_raises_only_call_errors_or_full_table truncatedThenRead_reachable he⟩

/-- The truncation ledger needs each `open` whole. A reader holds `/song` open under a
truncation to 5 bytes. A writer takes that truncation and waits in `os.open`. A truncation
to 3 bytes runs meanwhile and sets the reader's attribute, which the writer then deletes.
The truncation to 3 bytes stays pending behind a reader with no attribute, and the next
writer's `open` raises `AttributeError`. -/
example : ∃ s os, Reachable s os ∧
    errorOf (Fs.open song 1 (.ok "c.ogg") (.ok ()) s) = some .attributeError :=
  have reader := Reachable.finished ⟨song, 0, some 5, "a.ogg"⟩ (.ok ())
    (.begun song 0 (.ok "a.ogg") (.truncated song 5 (.ok ()) .init)) (by decide)
  have waiting := Reachable.truncated song 3 (.ok ()) (.begun song 1 (.ok "b.ogg") reader)
  ⟨_, _, .finished ⟨song, 1, some 5, "b.ogg"⟩ (.ok ()) waiting (by decide), by decide⟩

set_option maxRecDepth 8000 in
theorem truncatedThenRead_sizes : SeqReachable truncatedThenRead ∧
    truncatedThenRead.truncatedPaths.get? song = some 10 ∧
    truncatedThenRead.openFiles[0]? = some (some ⟨0, song, "a.ogg", 0⟩) ∧
    (truncatedThenRead.writers song = 0 ∧
      truncatedThenRead.fgetattrSize 0 100 = .ok (truncatedThenRead.getattrSize song 100)) :=
  have ht : truncatedThenRead.truncatedPaths.get? song = some 10 := by decide
  have hfh : truncatedThenRead.openFiles[0]? = some (some ⟨0, song, "a.ogg", 0⟩) := by decide
  ⟨truncatedThenRead_reachable, ht, hfh, handles_see_pending_truncation truncatedThenRead_reachable ht hfh rfl 100⟩

end PyTagsFs.OpenFiles
