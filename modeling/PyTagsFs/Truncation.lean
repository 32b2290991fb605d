import PyTagsFs.OpenFiles
import PyTagsFs.PathText

/-! # Virtual truncation

`truncate` of a path nobody has open for writing leaves the source file alone, and the
next `open` for writing cuts it. `Sim` runs the open-file tables beside the bytes of the
source files (`Mount.view`) and a POSIX file system (`Posix`) in which every truncation
happens at once. The mapping from fake to real paths is fixed (`realPathOf`), and
`getattr` stats the source file as it is now (`--nocache`, or a monitor that has reported
every write). -/

namespace PyTagsFs.Truncation

open OpenFiles

abbrev Bytes := List UInt8

/-- `ftruncate(2)`, as `os.ftruncate` and `file.truncate` call it: the file is cut to `len`
bytes, or extended with zero bytes. -/
def ftruncate (c : Bytes) (len : Nat) : Bytes :=
  c.take len ++ List.replicate (len - c.length) 0

/-- A seek to `offset`, then a read of at most `length` bytes. -/
def readAt (c : Bytes) (length offset : Nat) : Bytes := (c.drop offset).take length

/-- A seek to `offset`, then `os.write(fd, buf)`: the bytes from `offset` on are overwritten,
and a gap past the end reads as zero bytes. -/
def writeAt (c buf : Bytes) (offset : Nat) : Bytes :=
  c.take offset ++ List.replicate (offset - c.length) 0 ++ buf ++ c.drop (offset + buf.length)

theorem ftruncate_of_le {c : Bytes} {len : Nat} (h : len ≤ c.length) : ftruncate c len = c.take len := by
  simp [ftruncate, Nat.sub_eq_zero_of_le h]

@[simp] theorem length_ftruncate (c : Bytes) (len : Nat) : (ftruncate c len).length = len := by
  simp only [ftruncate, List.length_append, List.length_take, List.length_replicate]
  omega

/-! ## The `truncate_to` of the readers

On a single-threaded mount the attribute of every `ReadOnlyFile` is its path's pending
truncation, as long as no `open` for writing fails after popping one. -/

/-- The `truncate_to` every `ReadOnlyFile` reads is the pending truncation of its path. -/
def AttrInv (s : Fs) : Prop :=
  ∀ p k, k ∈ s.readOnlyFiles p → (s.truncateTo k).getD none = s.truncatedPaths.get? p

section Attrs
variable {s : Fs} {p : FakePath} {flags : Nat} {r : RealPath}

theorem forM_delTruncateTo_ok {l : List Nat} (hnd : l.Nodup) (hall : ∀ k ∈ l, s.truncateTo k ≠ none) :
    l.forM delTruncateTo s =
      .ok () { s with truncateTo := fun k => if k ∈ l then none else s.truncateTo k } := by
  induction l generalizing s with
  | nil => rfl
  | cons k l ih =>
    obtain ⟨a, ha⟩ := Option.ne_none_iff_exists'.mp (hall k (List.mem_cons_self k l))
    have hk : k ∉ l := (List.nodup_cons.mp hnd).1
    simp only [List.forM_cons', delTruncateTo, bind_apply, EStateM.bind, get_apply, ha, set_apply]
    rw [ih (List.nodup_cons.mp hnd).2 fun k' hk' => by
      show Function.update s.truncateTo k none k' ≠ none
      rw [Function.update_noteq (ne_of_mem_of_not_mem hk' hk)]
      exact hall k' (List.mem_cons_of_mem k hk')]
    congr
    funext k'
    by_cases h₁ : k' = k
    · subst h₁; simp [hk]
    · simp [h₁, Function.update_noteq h₁]

/-- An `open` whose `os.open` fails leaves the tables as its first part left them: a writer
has popped the truncation of its path. -/
theorem open_of_osError (e : Error) :
    stateOf (Fs.open p flags (.ok r) (.error e) s) =
      if isWritable flags then { s with truncatedPaths := s.truncatedPaths.erase p } else s := by
  rw [open_eq, openBegin_eq]
  split_ifs <;> rfl

/-- An `open` whose `os.open` succeeds: a writer pops the truncation of its path and deletes
the attributes of that path's readers, then the instance goes into a free slot. -/
theorem open_of_ok (hnd : (s.readOnlyFiles p).Nodup)
    (hattr : ∀ t, s.truncatedPaths.get? p = some t → ∀ k ∈ s.readOnlyFiles p, s.truncateTo k ≠ none) :
    Fs.open p flags (.ok r) (.ok ()) s = Fs.installNext ⟨p, flags, s.truncatedPaths.get? p, r⟩
      (if isWritable flags then
        { s with
          truncatedPaths := s.truncatedPaths.erase p
          truncateTo := if (s.truncatedPaths.get? p).isSome then
            fun k => if k ∈ s.readOnlyFiles p then none else s.truncateTo k else s.truncateTo }
      else s) := by
  rw [open_eq, openBegin_eq]
  cases hw : isWritable flags
  · simp only [Bool.false_eq_true, ↓reduceIte, Except.map, liftCall_ok, Fs.openFinish, bind_apply,
      EStateM.bind, liftCall_ok, hw, Bool.false_and]
    rfl
  · cases ht : s.truncatedPaths.get? p with
    | none =>
      simp only [↓reduceIte, Except.map, liftCall_ok, Fs.openFinish, bind_apply, EStateM.bind, hw,
        ht, Option.isSome_none, Bool.and_false, Bool.false_eq_true]
      rfl
    | some t =>
      simp only [↓reduceIte, Except.map, liftCall_ok, Fs.openFinish, bind_apply, EStateM.bind, hw,
        ht, Option.isSome_some, Bool.and_self, get_apply]
      rw [show ({ s with truncatedPaths := s.truncatedPaths.erase p } : Fs).readOnlyFiles p =
        s.readOnlyFiles p from rfl,
        forM_delTruncateTo_ok (s := { s with truncatedPaths := s.truncatedPaths.erase p }) hnd (hattr t ht)]

namespace AttrInv

theorem init : AttrInv Fs.init := fun p k hk => by simp [Fs.init, Fs.readOnlyFiles] at hk

/-- Filing an instance keeps the attributes of the readers, if a new reader reads the pending
truncation of its path. -/
theorem install (h : TableInv s) (ha : AttrInv s) {fh : Nat} {o : Opening}
    (ho : isWritable o.flags = false → o.truncateTo = s.truncatedPaths.get? o.fakePath) :
    AttrInv (s.install fh o) := fun q k hk => by
  rw [install_readOnlyFiles, List.mem_append] at hk
  simp only [install_truncateTo, install_truncatedPaths]
  rcases hk with hk | hk
  · rw [Function.update_noteq (h.readOnlyFiles_lt hk).ne]
    exact ha q k hk
  · split_ifs at hk with hr
    · obtain ⟨hw, rfl⟩ := hr
      obtain rfl := List.mem_singleton.mp hk
      simp [ho hw]
    · cases hk

theorem of_truncate (h : TableInv s) (ha : AttrInv s) (len : Nat) (ftruncated : Except Error Unit) :
    AttrInv (stateOf (Fs.truncate p len ftruncated s)) := by
  rw [truncate_eq]
  split_ifs
  · rw [stateOf_liftCall]; exact ha
  · intro q k hk
    simp only [stateOf_ok, Dict.get?_set] at hk ⊢
    by_cases hpq : p = q
    · subst hpq; simp [show k ∈ s.readOnlyFiles p from hk]
    · have hk' : k ∉ s.readOnlyFiles p := fun hk' => hpq (h.readOnlyFiles_disjoint hk' hk)
      simpa [hk', hpq] using ha q k hk
  · exact ha

theorem of_release (h : TableInv s) (ha : AttrInv s) {flags fh : Nat}
    (hv : s.validRelease p flags fh = true) (closed : Except Error Unit) :
    AttrInv (stateOf (Fs.release p flags fh closed s)) := by
  obtain ⟨s', he, hf⟩ := h.release_cases hv closed
  rw [he, stateOf_liftCall]
  intro q k hk
  rw [hf.truncatedPaths_eq, hf.truncateTo_eq]
  exact ha q k (hf.readOnlyFiles_subset q hk)

/-- An `open` whose `os.open` fails keeps the attributes, unless a writer popped a pending
truncation. -/
theorem of_osError (ha : AttrInv s) (e : Error)
    (hok : isWritable flags = false ∨ s.truncatedPaths.get? p = none) :
    AttrInv (stateOf (Fs.open p flags (.ok r) (.error e) s)) := by
  rw [open_of_osError]
  split_ifs with hw
  · intro q k hk
    have := ha q k hk
    simp only [Dict.get?_erase] at this ⊢
    split_ifs with hpq
    · subst hpq; rw [this, hok.resolve_left (by simp [hw])]
    · exact this
  · exact ha

theorem of_ok (h : TableInv s) (ha : AttrInv s) :
    AttrInv (stateOf (Fs.open p flags (.ok r) (.ok ()) s)) := by
  have hattr : ∀ t, s.truncatedPaths.get? p = some t → ∀ k ∈ s.readOnlyFiles p, s.truncateTo k ≠ none :=
    fun t ht k hk hn => by simpa [hn, ht] using ha p k hk
  rw [open_of_ok (h.readOnlyFiles_nodup p) hattr]
  -- filing the instance keeps what the first part left
  have hslot : ∀ s₂ : Fs, TableInv s₂ → AttrInv s₂ →
      (isWritable flags = false → s₂.truncatedPaths.get? p = s.truncatedPaths.get? p) →
      AttrInv (stateOf (Fs.installNext ⟨p, flags, s.truncatedPaths.get? p, r⟩ s₂)) := by
    intro s₂ h₂ ha₂ hr
    rw [installNext_eq]
    split
    · exact ha₂.install h₂ fun hw => (hr hw).symm
    · exact ha₂
  cases hw : isWritable flags
  · exact hslot s h ha fun _ => rfl
  · refine hslot _ (h.congr rfl rfl rfl rfl) (fun q k hk => ?_) (by simp [hw])
    change k ∈ s.readOnlyFiles q at hk
    simp only [Dict.get?_erase, ↓reduceIte]
    by_cases hpq : p = q
    · subst hpq
      cases hs : s.truncatedPaths.get? p with
      | none => simpa [hs] using ha p k hk
      | some t => simp [hk]
    · have hk' : k ∉ s.readOnlyFiles p := fun hk' => hpq (h.readOnlyFiles_disjoint hk' hk)
      split_ifs <;> simp [hpq, hk', ha q k hk]

end AttrInv

variable (realPathOf : FakePath → RealPath) in
/-- Every instance, and every frozen path, is on the source file the representation maps its
fake path to. -/
structure RealInv (s : Fs) : Prop where
  file_realPath : ∀ f, some f ∈ s.openFiles → f.realPath = realPathOf f.fakePath
  frozen_realPath : ∀ p fp, s.frozenPathMappings.get? p = some fp → fp.realPath = realPathOf p

namespace RealInv
variable {realPathOf : FakePath → RealPath}

theorem init : RealInv realPathOf Fs.init where
  file_realPath f hf := by simp [Fs.init] at hf
  frozen_realPath p fp hp := by simp [Fs.init] at hp

theorem congr (h : RealInv realPathOf s) {t : Fs} (h₁ : t.openFiles = s.openFiles)
    (h₂ : t.frozenPathMappings = s.frozenPathMappings) : RealInv realPathOf t :=
  ⟨h₁ ▸ h.file_realPath, h₂ ▸ h.frozen_realPath⟩

theorem install (h : RealInv realPathOf s) {fh : Nat} (hfh : s.openFiles[fh]? = some none) {o : Opening}
    (ho : o.realPath = realPathOf o.fakePath) : RealInv realPathOf (s.install fh o) where
  file_realPath f hf := by
    rw [install_openFiles, mem_set_of_free hfh] at hf
    rcases hf with hf | rfl
    · exact h.file_realPath f hf
    · exact ho
  frozen_realPath q fp hq := by
    rw [install_frozen_get?] at hq
    split_ifs at hq with hw
    · obtain ⟨-, rfl⟩ := hw
      cases hq
      cases hq' : s.frozenPathMappings.get? o.fakePath with
      | none => simpa [hq', FrozenPath.increment] using ho
      | some fp₀ => simpa [hq', FrozenPath.increment] using h.frozen_realPath _ fp₀ hq'
    · exact h.frozen_realPath q fp hq

theorem of_truncate (h : RealInv realPathOf s) (len : Nat) (ftruncated : Except Error Unit) :
    RealInv realPathOf (stateOf (Fs.truncate p len ftruncated s)) := by
  rw [truncate_eq]
  split_ifs
  · rw [stateOf_liftCall]; exact h
  · exact h.congr rfl rfl
  · exact h

theorem of_release (ht : TableInv s) (h : RealInv realPathOf s) {flags fh : Nat}
    (hv : s.validRelease p flags fh = true) (closed : Except Error Unit) :
    RealInv realPathOf (stateOf (Fs.release p flags fh closed s)) := by
  obtain ⟨s', he, hf⟩ := ht.release_cases hv closed
  rw [he, stateOf_liftCall]
  exact ⟨fun f hf' => h.file_realPath f (hf.openFiles_subset f hf'), fun q fp hq => by
    obtain ⟨fp₀, hq₀, hr⟩ := hf.frozen_realPath q fp hq
    exact hr ▸ h.frozen_realPath q fp₀ hq₀⟩

theorem of_open (h : RealInv realPathOf s) (osOpen : Except Error Unit) :
    RealInv realPathOf (stateOf (Fs.open p flags (.ok (realPathOf p)) osOpen s)) := by
  rw [open_eq, openBegin_eq]
  have h₁ : RealInv realPathOf
      (if isWritable flags then { s with truncatedPaths := s.truncatedPaths.erase p } else s) := by
    split_ifs
    · exact h.congr rfl rfl
    · exact h
  obtain ⟨t, -, ⟨e, he, -⟩ | ⟨fh, hfh, he⟩⟩ :=
    openFinish_cases ⟨p, flags, s.truncatedPaths.get? p, realPathOf p⟩ osOpen
      (if isWritable flags then { s with truncatedPaths := s.truncatedPaths.erase p } else s)
  · simp only [Except.map, liftCall_ok, he]
    exact h₁.congr rfl rfl
  · simp only [Except.map, liftCall_ok, he, stateOf_ok]
    have h₂ : RealInv realPathOf { (if isWritable flags then
        { s with truncatedPaths := s.truncatedPaths.erase p } else s) with truncateTo := t } :=
      h₁.congr rfl rfl
    exact h₂.install hfh rfl

end RealInv

/-- `open` changes the pending truncations only by a writer's pop. -/
theorem truncatedPaths_open (osOpen : Except Error Unit) :
    (stateOf (Fs.open p flags (.ok r) osOpen s)).truncatedPaths =
      if isWritable flags then s.truncatedPaths.erase p else s.truncatedPaths := by
  rw [open_eq, openBegin_eq]
  obtain ⟨t, -, ⟨e, he, -⟩ | ⟨fh, -, he⟩⟩ :=
    openFinish_cases ⟨p, flags, s.truncatedPaths.get? p, r⟩ osOpen
      (if isWritable flags then { s with truncatedPaths := s.truncatedPaths.erase p } else s) <;>
  · simp only [Except.map, liftCall_ok, he, stateOf_ok, stateOf_error, install_truncatedPaths]
    split_ifs <;> rfl

theorem frozenPathMappings_truncate (len : Nat) (ftruncated : Except Error Unit) :
    (stateOf (Fs.truncate p len ftruncated s)).frozenPathMappings = s.frozenPathMappings := by
  rw [truncate_eq]
  split_ifs <;> simp

/-- `truncate` on a path that is not frozen keeps a length shorter than the pending one. -/
theorem truncatedPaths_truncate (hp : s.frozenPathMappings.get? p = none) (len : Nat)
    (ftruncated : Except Error Unit) (q : FakePath) :
    (stateOf (Fs.truncate p len ftruncated s)).truncatedPaths.get? q =
      if p = q ∧ (s.truncatedPaths.get? p).all (fun t => decide (len < t)) then some len
      else s.truncatedPaths.get? q := by
  rw [truncate_eq, Dict.contains_eq_isSome, hp]
  by_cases hpq : p = q
  · subst hpq; split_ifs <;> simp_all
  · simp only [hpq, false_and, ↓reduceIte]
    split_ifs <;> simp [hpq]

end Attrs

/-- The source files as the mount should show them: a POSIX file system in which every
truncation happens at once. -/
abbrev Posix := RealPath → Bytes

def Posix.truncate (A : Posix) (r : RealPath) (len : Nat) : Posix :=
  Function.update A r (ftruncate (A r) len)

def Posix.write (A : Posix) (r : RealPath) (buf : Bytes) (offset : Nat) : Posix :=
  Function.update A r (writeAt (A r) buf offset)

/-- The open-file tables and the bytes of the source files. -/
structure Mount where
  fs : Fs
  files : RealPath → Bytes

section Mount
variable (realPathOf : FakePath → RealPath)

/-- `truncate`: the source file of a frozen path is cut at once by `ftruncate_path`, and only
the tables change otherwise. -/
def Mount.truncate (m : Mount) (p : FakePath) (len : Nat) : Mount where
  fs := stateOf (Fs.truncate p len (.ok ()) m.fs)
  files := match m.fs.frozenPathMappings.get? p with
    | some frozenPath =>
      Function.update m.files frozenPath.realPath (ftruncate (m.files frozenPath.realPath) len)
    | none => m.files

/-- `open`, run whole. `File.__init__` asks the representation for the real path. A
`ReadWriteFile` whose `os.open` succeeds cuts its source file to the truncation length it
popped; `osOpen` is what `os.open` and that `os.ftruncate` raise. -/
def Mount.open (m : Mount) (p : FakePath) (flags : Nat) (osOpen : Except Error Unit) : Mount where
  fs := stateOf (Fs.open p flags (.ok (realPathOf p)) osOpen m.fs)
  files := match osOpen, m.fs.truncatedPaths.get? p with
    | .ok (), some truncateTo =>
      if isWritable flags then
        Function.update m.files (realPathOf p) (ftruncate (m.files (realPathOf p)) truncateTo)
      else m.files
    | _, _ => m.files

/-- `release`: closing a file changes no bytes. -/
def Mount.release (m : Mount) (p : FakePath) (flags fh : Nat) : Mount :=
  { m with fs := stateOf (Fs.release p flags fh (.ok ()) m.fs) }

/-- `write`: a `ReadWriteFile` writes its source file, a `ReadOnlyFile` raises
`InvalidArgument`. -/
def Mount.write (m : Mount) (fh : Nat) (buf : Bytes) (offset : Nat) : Except FsError Mount :=
  match m.fs.openFiles[fh]? with
  | none => .error .indexError
  | some none => .error .attributeError
  | some (some f) =>
    if isWritable f.flags then
      .ok { m with files := Function.update m.files f.realPath (writeAt (m.files f.realPath) buf offset) }
    else .error (.call .invalidArgument)

/-- `read`: `ReadWriteFile.read` reads its source file. `ReadOnlyFile.read` does too, but
with a `truncate_to` it reads `truncate_to - offset` bytes (none when that is negative),
whatever `length` asked for. -/
def Mount.read (m : Mount) (fh length offset : Nat) : Except FsError Bytes :=
  match m.fs.openFiles[fh]? with
  | none => .error .indexError
  | some none => .error .attributeError
  | some (some f) =>
    if isWritable f.flags then .ok (readAt (m.files f.realPath) length offset)
    else
      let length := match (m.fs.truncateTo f.id).getD none with
        | some truncateTo => truncateTo - offset
        | none => length
      .ok (readAt (m.files f.realPath) length offset)

/-- `st_size` of `getattr`: `os.lstat` of a frozen path's source file, or the representation's
stat of the path's source file, cut to a pending truncation. -/
def Mount.getattrSize (m : Mount) (p : FakePath) : Nat :=
  let realPath := match m.fs.frozenPathMappings.get? p with
    | some frozenPath => frozenPath.realPath
    | none => realPathOf p
  m.fs.getattrSize p (m.files realPath).length

/-- What a fake path shows: its source file, cut to a pending truncation. -/
def Mount.view (m : Mount) (p : FakePath) : Bytes :=
  match m.fs.truncatedPaths.get? p with
  | some t => (m.files (realPathOf p)).take t
  | none => m.files (realPathOf p)

/-- Single-threaded runs of the mount beside the POSIX file system they should look like.
Each truncation of a path that is not frozen shrinks what the path shows, and an `open`
for writing on a path with a pending truncation succeeds. FUSE releases each handle once,
with the path and flags of its `open`. `ftruncate` through a handle, and an `open` whose
`get_real_path` raises, are not steps. -/
inductive Sim : Mount → Posix → Prop where
  | init (files : RealPath → Bytes) : Sim ⟨Fs.init, files⟩ files
  | truncated {m A} (p : FakePath) (len : Nat) : Sim m A →
      m.fs.frozenPathMappings.contains p = true ∨ len ≤ (m.view realPathOf p).length →
      Sim (m.truncate p len) (A.truncate (realPathOf p) len)
  | opened {m A} (p : FakePath) (flags : Nat) (osOpen : Except Error Unit) : Sim m A →
      osOpen = .ok () ∨ isWritable flags = false ∨ m.fs.truncatedPaths.get? p = none →
      Sim (m.open realPathOf p flags osOpen) A
  | released {m A} (p : FakePath) (flags fh : Nat) : Sim m A →
      m.fs.validRelease p flags fh = true → Sim (m.release p flags fh) A
  | written {m m' A} (fh : Nat) (f : File) (buf : Bytes) (offset : Nat) : Sim m A →
      m.fs.openFiles[fh]? = some (some f) → m.write fh buf offset = .ok m' →
      Sim m' (A.write f.realPath buf offset)

end Mount

/-! ## What each operation does to what the paths show -/

section View
variable {realPathOf : FakePath → RealPath} {m : Mount} {p q : FakePath}

theorem view_of_none (h : m.fs.truncatedPaths.get? p = none) :
    m.view realPathOf p = m.files (realPathOf p) := by
  simp [Mount.view, h]

theorem view_of_some {t : Nat} (h : m.fs.truncatedPaths.get? p = some t) :
    m.view realPathOf p = (m.files (realPathOf p)).take t := by
  simp [Mount.view, h]

theorem length_view_le : (m.view realPathOf p).length ≤ (m.files (realPathOf p)).length := by
  unfold Mount.view
  split <;> simp

/-- Bytes written to another source file do not change what a path shows. -/
theorem view_update_of_ne {r : RealPath} {c : Bytes} (h : realPathOf q ≠ r) :
    (⟨m.fs, Function.update m.files r c⟩ : Mount).view realPathOf q = m.view realPathOf q := by
  simp [Mount.view, Function.update_noteq h]

/-- A truncation of a path that is not frozen cuts what it shows, and never lengthens it. -/
theorem view_truncate_self (hp : m.fs.frozenPathMappings.get? p = none) (len : Nat) :
    (m.truncate p len).view realPathOf p = (m.view realPathOf p).take len := by
  simp only [Mount.view, Mount.truncate, hp, truncatedPaths_truncate hp, true_and]
  cases ht : m.fs.truncatedPaths.get? p with
  | none => simp
  | some t =>
    by_cases hlt : len < t
    · simp [hlt, List.take_take, Nat.min_eq_left hlt.le]
    · simp [hlt, List.take_take, Nat.min_eq_right (Nat.le_of_not_lt hlt)]

/-- `open` pops the pending truncation of a writer's path, and keeps the others. -/
theorem truncatedPaths_get?_open {flags : Nat} (osOpen : Except Error Unit) (q : FakePath) :
    (m.open realPathOf p flags osOpen).fs.truncatedPaths.get? q =
      if isWritable flags = true ∧ p = q then none else m.fs.truncatedPaths.get? q := by
  show (stateOf (Fs.open p flags (.ok (realPathOf p)) osOpen m.fs)).truncatedPaths.get? q = _
  rw [truncatedPaths_open]
  cases isWritable flags <;> simp

theorem view_truncate_other (hp : m.fs.frozenPathMappings.get? p = none) (hpq : p ≠ q) (len : Nat) :
    (m.truncate p len).view realPathOf q = m.view realPathOf q := by
  simp [Mount.view, Mount.truncate, hp, truncatedPaths_truncate hp, hpq]

end View

/-! ## The refinement -/

variable (realPathOf : FakePath → RealPath) in
/-- What every run of `Sim` keeps: the tables of a single-threaded mount with the real paths
and attributes they hold, pending truncations no longer than their source files, and each
path showing the POSIX file of its source file. -/
structure SimInv (m : Mount) (A : Posix) : Prop where
  seq : SeqReachable m.fs
  real : RealInv realPathOf m.fs
  attr : AttrInv m.fs
  pending_le : ∀ p t, m.fs.truncatedPaths.get? p = some t → t ≤ (m.files (realPathOf p)).length
  view_eq : ∀ p, m.view realPathOf p = A (realPathOf p)

namespace SimInv
variable {realPathOf : FakePath → RealPath} {m m' : Mount} {A : Posix} {p : FakePath}

theorem init (files : RealPath → Bytes) : SimInv realPathOf ⟨Fs.init, files⟩ files where
  seq := .init
  real := .init
  attr := AttrInv.init
  pending_le p t h := by simp [Fs.init] at h
  view_eq p := by simp [Mount.view, Fs.init]

/-- A frozen path has no pending truncation. -/
theorem untruncated_of_frozen (h : SimInv realPathOf m A) {fp : FrozenPath}
    (hfp : m.fs.frozenPathMappings.get? p = some fp) : m.fs.truncatedPaths.get? p = none :=
  h.seq.inv.2.frozen_untruncated p (by simp [Dict.contains_eq_isSome, hfp])

/-- The path of an instance open for writing is frozen. -/
theorem frozen_of_writer (h : SimInv realPathOf m A) {f : File} (hf : some f ∈ m.fs.openFiles)
    (hw : isWritable f.flags = true) : ∃ fp, m.fs.frozenPathMappings.get? f.fakePath = some fp := by
  have hpos : 0 < m.fs.writers f.fakePath :=
    List.countP_pos_iff.mpr ⟨some f, hf, by simp [opensOn, hw]⟩
  have hc := (h.seq.inv.1.frozen_contains_iff f.fakePath).mpr hpos
  rw [Dict.contains_eq_isSome] at hc
  exact Option.isSome_iff_exists.mp hc

theorem released (h : SimInv realPathOf m A) {flags fh : Nat} (hv : m.fs.validRelease p flags fh = true) :
    SimInv realPathOf (m.release p flags fh) A := by
  have ht := h.seq.inv
  obtain ⟨s', he, hf⟩ := ht.1.release_cases hv (.ok ())
  have hfs : (m.release p flags fh).fs.truncatedPaths = m.fs.truncatedPaths := by
    simp [Mount.release, he, hf.truncatedPaths_eq]
  have hview : ∀ q, (m.release p flags fh).view realPathOf q = m.view realPathOf q := fun q => by
    simp only [Mount.view, hfs]
    rfl
  exact ⟨h.seq.released p flags fh (.ok ()) hv, h.real.of_release ht.1 hv (.ok ()),
    h.attr.of_release ht.1 hv (.ok ()), fun q t hq => h.pending_le q t (hfs ▸ hq),
    fun q => (hview q).trans (h.view_eq q)⟩

/-- An `open` that cuts no source file, because no writer pops a pending truncation, changes
nothing any path shows. -/
theorem opened_keep (h : SimInv realPathOf m A) {flags : Nat} (osOpen : Except Error Unit)
    (hnone : isWritable flags = true → m.fs.truncatedPaths.get? p = none) :
    SimInv realPathOf (m.open realPathOf p flags osOpen) A := by
  have hfiles : (m.open realPathOf p flags osOpen).files = m.files := by
    simp only [Mount.open]
    split
    · next t hpt => exact if_neg fun hw => by simp [hnone hw] at hpt
    · rfl
  have htp : ∀ q, (m.open realPathOf p flags osOpen).fs.truncatedPaths.get? q =
      m.fs.truncatedPaths.get? q := fun q => by
    rw [truncatedPaths_get?_open]
    split_ifs with hq
    · obtain ⟨hw, rfl⟩ := hq
      exact (hnone hw).symm
    · rfl
  have hview : ∀ q, (m.open realPathOf p flags osOpen).view realPathOf q = m.view realPathOf q :=
    fun q => by simp only [Mount.view, htp, hfiles]
  have hreal : RealInv realPathOf (m.open realPathOf p flags osOpen).fs := h.real.of_open osOpen
  refine ⟨h.seq.opened p flags _ osOpen, hreal, ?_,
    fun q t hq => by rw [hfiles]; exact h.pending_le q t (htp q ▸ hq), fun q => (hview q).trans (h.view_eq q)⟩
  cases osOpen with
  | ok => exact h.attr.of_ok h.seq.inv.1
  | error e => exact h.attr.of_osError e ((Bool.eq_false_or_eq_true _).imp hnone id).symm

variable (hinj : Function.Injective realPathOf)
include hinj

/-- On a frozen path `truncate` cuts the source file at once. -/
theorem truncated_frozen (h : SimInv realPathOf m A) (len : Nat) {fp : FrozenPath}
    (hfp : m.fs.frozenPathMappings.get? p = some fp) :
    SimInv realPathOf (m.truncate p len) (A.truncate (realPathOf p) len) := by
  have hnone := h.untruncated_of_frozen hfp
  have hm : m.truncate p len =
      ⟨m.fs, Function.update m.files (realPathOf p) (ftruncate (m.files (realPathOf p)) len)⟩ := by
    have hc : m.fs.frozenPathMappings.contains p = true := by simp [Dict.contains_eq_isSome, hfp]
    simp [Mount.truncate, hfp, h.real.frozen_realPath p fp hfp, truncate_eq, hc]
  rw [hm]
  refine ⟨h.seq, h.real, h.attr, fun q t hq => ?_, fun q => ?_⟩
  · have hqp : q ≠ p := by rintro rfl; simp [hnone] at hq
    simpa [Function.update_noteq (hinj.ne hqp)] using h.pending_le q t hq
  · by_cases hqp : q = p
    · subst hqp
      simp [Mount.view, hnone, Posix.truncate, ← h.view_eq, view_of_none hnone]
    · rw [view_update_of_ne (hinj.ne hqp), h.view_eq, Posix.truncate,
        Function.update_noteq (hinj.ne hqp)]

/-- Elsewhere only the tables change, and what the path shows is cut to `len`. -/
theorem truncated_virtual (h : SimInv realPathOf m A) {len : Nat}
    (hfp : m.fs.frozenPathMappings.get? p = none) (hshrink : len ≤ (m.view realPathOf p).length) :
    SimInv realPathOf (m.truncate p len) (A.truncate (realPathOf p) len) := by
  refine ⟨h.seq.truncated p len (.ok ()), h.real.of_truncate len (.ok ()),
    h.attr.of_truncate h.seq.inv.1 len (.ok ()), fun q t hq => ?_, fun q => ?_⟩
  · have hfiles : (m.truncate p len).files = m.files := by simp [Mount.truncate, hfp]
    simp only [Mount.truncate, truncatedPaths_truncate hfp] at hq
    rw [hfiles]
    split_ifs at hq with hq'
    · obtain ⟨rfl, -⟩ := hq'
      cases hq
      exact hshrink.trans length_view_le
    · exact h.pending_le q t hq
  · by_cases hqp : p = q
    · subst hqp
      rw [view_truncate_self hfp, Posix.truncate, Function.update_same, ← h.view_eq,
        ftruncate_of_le hshrink]
    · rw [view_truncate_other hfp hqp, h.view_eq, Posix.truncate,
        Function.update_noteq (hinj.ne (Ne.symm hqp))]

theorem truncated (h : SimInv realPathOf m A) (len : Nat)
    (hshrink : m.fs.frozenPathMappings.contains p = true ∨ len ≤ (m.view realPathOf p).length) :
    SimInv realPathOf (m.truncate p len) (A.truncate (realPathOf p) len) := by
  cases hfp : m.fs.frozenPathMappings.get? p with
  | some fp => exact h.truncated_frozen hinj len hfp
  | none =>
    exact h.truncated_virtual hinj hfp (hshrink.resolve_left (by simp [Dict.contains_eq_isSome, hfp]))

/-- A writer whose `os.open` succeeds pops its path's truncation and cuts the source file to it. -/
theorem opened_pop (h : SimInv realPathOf m A) {flags : Nat} (hw : isWritable flags = true) {t : Nat}
    (hpt : m.fs.truncatedPaths.get? p = some t) :
    SimInv realPathOf (m.open realPathOf p flags (.ok ())) A := by
  have hfiles : (m.open realPathOf p flags (.ok ())).files =
      Function.update m.files (realPathOf p) ((m.files (realPathOf p)).take t) := by
    simp [Mount.open, hpt, hw, ftruncate_of_le (h.pending_le p t hpt)]
  have hreal : RealInv realPathOf (m.open realPathOf p flags (.ok ())).fs := h.real.of_open (.ok ())
  refine ⟨h.seq.opened p flags _ _, hreal, h.attr.of_ok h.seq.inv.1, fun q t' hq => ?_, fun q => ?_⟩
  · rw [truncatedPaths_get?_open] at hq
    split_ifs at hq with hpq
    have hpq : p ≠ q := fun he => hpq ⟨hw, he⟩
    rw [hfiles, Function.update_noteq (hinj.ne hpq.symm)]
    exact h.pending_le q t' hq
  · by_cases hpq : p = q
    · subst hpq
      rw [view_of_none (by rw [truncatedPaths_get?_open]; simp [hw]), hfiles, Function.update_same,
        ← view_of_some hpt, h.view_eq]
    · have hne : realPathOf q ≠ realPathOf p := hinj.ne (Ne.symm hpq)
      simp only [Mount.view, truncatedPaths_get?_open, hpq, and_false, ↓reduceIte, hfiles,
        Function.update_noteq hne]
      exact h.view_eq q

theorem opened (h : SimInv realPathOf m A) (flags : Nat) (osOpen : Except Error Unit)
    (hok : osOpen = .ok () ∨ isWritable flags = false ∨ m.fs.truncatedPaths.get? p = none) :
    SimInv realPathOf (m.open realPathOf p flags osOpen) A := by
  by_cases hcut : osOpen = .ok () ∧ isWritable flags = true ∧ ∃ t, m.fs.truncatedPaths.get? p = some t
  · obtain ⟨rfl, hw, t, hpt⟩ := hcut
    exact h.opened_pop hinj hw hpt
  · refine h.opened_keep osOpen fun hw => ?_
    cases hpt : m.fs.truncatedPaths.get? p with
    | none => rfl
    | some t =>
      rcases hok with rfl | hr | hr
      · exact absurd ⟨rfl, hw, t, hpt⟩ hcut
      · simp [hw] at hr
      · simp [hr] at hpt

theorem written (h : SimInv realPathOf m A) {fh : Nat} {f : File} {buf : Bytes} {offset : Nat}
    (hfh : m.fs.openFiles[fh]? = some (some f)) (hwr : m.write fh buf offset = .ok m') :
    SimInv realPathOf m' (A.write f.realPath buf offset) := by
  have hf : some f ∈ m.fs.openFiles := List.mem_iff_getElem?.mpr ⟨fh, hfh⟩
  have hr := h.real.file_realPath f hf
  simp only [Mount.write, hfh] at hwr
  split_ifs at hwr with hw
  cases hwr
  obtain ⟨fp, hfp⟩ := h.frozen_of_writer hf hw
  have hnone := h.untruncated_of_frozen hfp
  refine ⟨h.seq, h.real, h.attr, fun q t hq => ?_, fun q => ?_⟩
  · have hqp : q ≠ f.fakePath := by rintro rfl; simp [hnone] at hq
    have hne : realPathOf q ≠ f.realPath := hr ▸ hinj.ne hqp
    simpa [Function.update_noteq hne] using h.pending_le q t hq
  · by_cases hqp : q = f.fakePath
    · subst hqp
      have hA : A (realPathOf f.fakePath) = m.files (realPathOf f.fakePath) := by
        rw [← h.view_eq, view_of_none hnone]
      simp only [Mount.view, hnone, Posix.write]
      rw [hr, Function.update_same, Function.update_same, hA]
    · have hne : realPathOf q ≠ f.realPath := hr ▸ hinj.ne hqp
      rw [view_update_of_ne hne, h.view_eq, Posix.write, Function.update_noteq hne]

end SimInv

/-- Every run of `Sim` keeps `SimInv`. -/
theorem Sim.inv {realPathOf : FakePath → RealPath} (hinj : Function.Injective realPathOf) {m : Mount}
    {A : Posix} (hs : Sim realPathOf m A) : SimInv realPathOf m A := by
  induction hs with
  | init files => exact .init files
  | truncated p len _ hshrink ih => exact ih.truncated hinj len hshrink
  | opened p flags osOpen _ hok ih => exact ih.opened hinj flags osOpen hok
  | released p flags fh _ hv ih => exact ih.released hv
  | written fh f buf offset _ hfh hwr ih => exact ih.written hinj hfh hwr

/-! ## What the mount reports -/

section Observe
variable {realPathOf : FakePath → RealPath} {m : Mount} {A : Posix} {p : FakePath}

/-- On a path that is not frozen, `getattr` reports the size of what the path shows. -/
theorem getattrSize_of_not_frozen (hfp : m.fs.frozenPathMappings.get? p = none) :
    m.getattrSize realPathOf p = (m.view realPathOf p).length := by
  simp only [Mount.getattrSize, Fs.getattrSize, Dict.contains_eq_isSome, hfp, Option.isSome_none,
    Bool.false_eq_true, ↓reduceIte]
  cases ht : m.fs.truncatedPaths.get? p with
  | none => simp [truncatedSize, view_of_none ht]
  | some t =>
    simp only [truncatedSize, view_of_some ht, List.length_take]
    split_ifs <;> omega

/-- With no pending truncation, `getattr` reports the size of the source file, frozen or not. -/
theorem getattrSize_of_untruncated (hreal : RealInv realPathOf m.fs)
    (hnone : m.fs.truncatedPaths.get? p = none) :
    m.getattrSize realPathOf p = (m.files (realPathOf p)).length := by
  cases hfp : m.fs.frozenPathMappings.get? p with
  | none => rw [getattrSize_of_not_frozen hfp, view_of_none hnone]
  | some fp =>
    simp [Mount.getattrSize, Fs.getattrSize, Dict.contains_eq_isSome, hfp, hreal.frozen_realPath p fp hfp]

theorem SimInv.getattrSize_eq (h : SimInv realPathOf m A) (p : FakePath) :
    m.getattrSize realPathOf p = (m.view realPathOf p).length := by
  cases hfp : m.fs.frozenPathMappings.get? p with
  | none => exact getattrSize_of_not_frozen hfp
  | some fp =>
    have hnone := h.untruncated_of_frozen hfp
    rw [getattrSize_of_untruncated h.real hnone, view_of_none hnone]

/-- The `truncate_to` of a `ReadOnlyFile` is the pending truncation of its path. -/
theorem SimInv.truncateTo_eq (h : SimInv realPathOf m A) {f : File} (hf : some f ∈ m.fs.openFiles)
    (hw : isWritable f.flags = false) :
    (m.fs.truncateTo f.id).getD none = m.fs.truncatedPaths.get? f.fakePath :=
  h.attr _ _ ((h.seq.inv.1.mem_readOnlyFiles _ _).mpr ⟨f, hf, rfl, rfl, hw⟩)

/-- With no pending truncation, a read returns what the path shows at the offset. -/
theorem SimInv.read_of_untruncated (h : SimInv realPathOf m A) {fh : Nat} {f : File}
    (hfh : m.fs.openFiles[fh]? = some (some f)) (hnone : m.fs.truncatedPaths.get? f.fakePath = none)
    (length offset : Nat) :
    m.read fh length offset = .ok (readAt (m.view realPathOf f.fakePath) length offset) := by
  have hf : some f ∈ m.fs.openFiles := List.mem_iff_getElem?.mpr ⟨fh, hfh⟩
  rw [view_of_none hnone, ← h.real.file_realPath f hf]
  cases hw : isWritable f.flags
  · simp [Mount.read, hfh, hw, h.truncateTo_eq hf hw, hnone]
  · simp [Mount.read, hfh, hw]

/-- Under a pending truncation, a read returns all that the path shows from the offset on. -/
theorem SimInv.read_of_truncated (h : SimInv realPathOf m A) {fh : Nat} {f : File}
    (hfh : m.fs.openFiles[fh]? = some (some f)) {t : Nat}
    (ht : m.fs.truncatedPaths.get? f.fakePath = some t) (length offset : Nat) :
    m.read fh length offset = .ok ((m.view realPathOf f.fakePath).drop offset) := by
  have hf : some f ∈ m.fs.openFiles := List.mem_iff_getElem?.mpr ⟨fh, hfh⟩
  have hw : isWritable f.flags = false := by
    cases hw : isWritable f.flags
    · rfl
    · obtain ⟨fp, hfp⟩ := h.frozen_of_writer hf hw
      simp [h.untruncated_of_frozen hfp] at ht
  rw [view_of_some ht, ← h.real.file_realPath f hf, List.drop_take]
  simp [Mount.read, hfh, hw, h.truncateTo_eq hf hw, ht, readAt]

end Observe

/-! ## A run

The source files sit where the fake tree puts them, each holding the bytes `1` to `8`. A
truncation cuts `/song` to 3 bytes, and a reader opens it. -/

/-- A layout of the source tree that mirrors the fake tree. -/
def srcPath (p : FakePath) : RealPath := String.mk (joinPathAbs (segNames p))

theorem srcPath_injective : Function.Injective srcPath := fun p q h => by
  have hj : joinPathAbs (segNames p) = joinPathAbs (segNames q) := congrArg String.data h
  have hn := congrArg components hj
  rw [components_joinPathAbs, components_joinPathAbs] at hn
  refine List.map_injective_iff.mpr (fun a b hab => ?_) hn
  obtain ⟨a, _, _⟩ := a
  obtain ⟨b, _, _⟩ := b
  simpa using String.ext hab

def songBytes : Posix := fun _ => [1, 2, 3, 4, 5, 6, 7, 8]

def cutSong : Mount := (⟨Fs.init, songBytes⟩ : Mount).truncate song 3

def cutSongPosix : Posix := songBytes.truncate (srcPath song) 3

theorem cutSong_sim : Sim srcPath cutSong cutSongPosix :=
  .truncated song 3 (.init songBytes) (.inr (by decide))

def cutSongRead : Mount := cutSong.open srcPath song 0 (.ok ())

theorem cutSongRead_sim : Sim srcPath cutSongRead cutSongPosix :=
  .opened song 0 (.ok ()) cutSong_sim (.inl rfl)

section Extras
variable {realPathOf : FakePath → RealPath} {m : Mount} {A : Posix}

/-- On every run where each truncation of a path nobody writes to shrinks it and no `open`
for writing fails on a path with a pending truncation, the mount looks like the POSIX file
system: `getattr` reports its sizes, and a read returns its bytes unless a `ReadOnlyFile` under
a truncation asks for less than the rest of the file. -/
theorem virtual_truncation_refines_posix (hinj : Function.Injective realPathOf) (hs : Sim realPathOf m A) :
    (∀ p, m.getattrSize realPathOf p = (A (realPathOf p)).length) ∧
      ∀ fh f, m.fs.openFiles[fh]? = some (some f) → ∀ length offset,
        (m.fs.truncatedPaths.get? f.fakePath = none ∨
          (A (realPathOf f.fakePath)).length ≤ offset + length) →
        m.read fh length offset = .ok (readAt (A (realPathOf f.fakePath)) length offset) := by
  have h := hs.inv hinj
  refine ⟨fun p => by rw [h.getattrSize_eq, h.view_eq], fun fh f hfh length offset hcase => ?_⟩
  cases ht : m.fs.truncatedPaths.get? f.fakePath with
  | none => rw [h.read_of_untruncated hfh ht, h.view_eq]
  | some t =>
    have hlen := hcase.resolve_left (by simp [ht])
    rw [h.read_of_truncated hfh ht, h.view_eq, readAt, List.take_of_length_le (by simp; omega)]

theorem cutSongRead_refines : Sim srcPath cutSongRead cutSongPosix ∧
    ((∀ p, cutSongRead.getattrSize srcPath p = (cutSongPosix (srcPath p)).length) ∧
      ∀ fh f, cutSongRead.fs.openFiles[fh]? = some (some f) → ∀ length offset,
        (cutSongRead.fs.truncatedPaths.get? f.fakePath = none ∨
          (cutSongPosix (srcPath f.fakePath)).length ≤ offset + length) →
        cutSongRead.read fh length offset = .ok (readAt (cutSongPosix (srcPath f.fakePath)) length offset)) :=
  ⟨cutSongRead_sim, virtual_truncation_refines_posix srcPath_injective cutSongRead_sim⟩

/-- A `ReadOnlyFile` under a truncation returns the whole rest of the file, whatever length is
asked for: more bytes than asked whenever the request ends before the file does. -/
theorem reader_read_ignores_length (hinj : Function.Injective realPathOf) (hs : Sim realPathOf m A)
    {fh : Nat} {f : File} (hfh : m.fs.openFiles[fh]? = some (some f)) {t : Nat}
    (ht : m.fs.truncatedPaths.get? f.fakePath = some t) (length offset : Nat) :
    m.read fh length offset = .ok ((A (realPathOf f.fakePath)).drop offset) ∧
      ((A (realPathOf f.fakePath)).drop offset = readAt (A (realPathOf f.fakePath)) length offset ↔
        (A (realPathOf f.fakePath)).length ≤ offset + length) := by
  have h := hs.inv hinj
  refine ⟨by rw [h.read_of_truncated hfh ht, h.view_eq], ?_⟩
  rw [readAt, eq_comm, List.take_eq_self_iff, List.length_drop]
  omega

set_option maxRecDepth 8000 in
theorem cutSongRead_reads_rest : cutSongRead.fs.openFiles[0]? = some (some ⟨0, song, srcPath song, 0⟩) ∧
    cutSongRead.fs.truncatedPaths.get? song = some 3 ∧
    (cutSongRead.read 0 1 0 = .ok ((cutSongPosix (srcPath song)).drop 0) ∧
      ((cutSongPosix (srcPath song)).drop 0 = readAt (cutSongPosix (srcPath song)) 1 0 ↔
        (cutSongPosix (srcPath song)).length ≤ 0 + 1)) :=
  have hfh : cutSongRead.fs.openFiles[0]? = some (some ⟨0, song, srcPath song, 0⟩) := by decide
  have ht : cutSongRead.fs.truncatedPaths.get? song = some 3 := by decide
  ⟨hfh, ht, reader_read_ignores_length srcPath_injective cutSongRead_sim hfh ht 1 0⟩

/-- A truncation that would lengthen a file nobody writes to leaves its size as it was; the
next `open` for writing then grows the source file to the length asked. -/
theorem lengthening_truncate_waits_for_writer (hinj : Function.Injective realPathOf)
    (hs : Sim realPathOf m A) {p : FakePath} {len flags : Nat}
    (hfree : m.fs.frozenPathMappings.get? p = none) (hnone : m.fs.truncatedPaths.get? p = none)
    (hlong : (A (realPathOf p)).length < len) (hw : isWritable flags = true) :
    (m.truncate p len).getattrSize realPathOf p = (A (realPathOf p)).length ∧
      ((m.truncate p len).open realPathOf p flags (.ok ())).getattrSize realPathOf p = len := by
  have h := hs.inv hinj
  have hview : (m.view realPathOf p).length < len := h.view_eq p ▸ hlong
  have htr : (m.truncate p len).fs.truncatedPaths.get? p = some len := by
    simp [Mount.truncate, truncatedPaths_truncate hfree, hnone]
  refine ⟨?_, ?_⟩
  · rw [getattrSize_of_not_frozen ((frozenPathMappings_truncate len (.ok ())).symm ▸ hfree),
      view_truncate_self hfree, List.take_of_length_le hview.le, h.view_eq]
  · have hreal : RealInv realPathOf ((m.truncate p len).open realPathOf p flags (.ok ())).fs :=
      (h.real.of_truncate len (.ok ())).of_open (.ok ())
    rw [getattrSize_of_untruncated hreal (by rw [truncatedPaths_get?_open]; simp [hw])]
    simp [Mount.open, htr, hw]

theorem songBytes_grows_at_writer_open : (Fs.init.frozenPathMappings.get? song = none ∧
    Fs.init.truncatedPaths.get? song = none ∧ (songBytes (srcPath song)).length < 20 ∧ isWritable 1 = true) ∧
    ((⟨Fs.init, songBytes⟩ : Mount).truncate song 20).getattrSize srcPath song =
      (songBytes (srcPath song)).length ∧
    ((((⟨Fs.init, songBytes⟩ : Mount).truncate song 20).open srcPath song 1 (.ok ())).getattrSize
      srcPath song = 20) :=
  have hfree : Fs.init.frozenPathMappings.get? song = none := rfl
  have hnone : Fs.init.truncatedPaths.get? song = none := rfl
  have hlong : (songBytes (srcPath song)).length < 20 := by decide
  have hw : isWritable 1 = true := by decide
  ⟨⟨hfree, hnone, hlong, hw⟩,
    lengthening_truncate_waits_for_writer srcPath_injective (.init songBytes) hfree hnone hlong hw⟩

/-- An `open` for writing that fails on a path with a pending truncation has popped it: the path
shows its whole source file again, the cut bytes included. -/
theorem failed_writer_open_restores_cut_bytes (hinj : Function.Injective realPathOf)
    (hs : Sim realPathOf m A) {p : FakePath} {t flags : Nat} (ht : m.fs.truncatedPaths.get? p = some t)
    (hw : isWritable flags = true) (e : Error) :
    m.getattrSize realPathOf p = t ∧ (A (realPathOf p)).length = t ∧
      (m.open realPathOf p flags (.error e)).view realPathOf p = m.files (realPathOf p) ∧
      (m.open realPathOf p flags (.error e)).getattrSize realPathOf p = (m.files (realPathOf p)).length := by
  have h := hs.inv hinj
  have hlen : (m.view realPathOf p).length = t := by
    rw [view_of_some ht, List.length_take, Nat.min_eq_left (h.pending_le p t ht)]
  have hnone : (m.open realPathOf p flags (.error e)).fs.truncatedPaths.get? p = none := by
    rw [truncatedPaths_get?_open]; simp [hw]
  have hfiles : (m.open realPathOf p flags (.error e)).files = m.files := rfl
  refine ⟨by rw [h.getattrSize_eq, hlen], by rw [← h.view_eq, hlen], ?_, ?_⟩
  · rw [view_of_none hnone, hfiles]
  · rw [getattrSize_of_untruncated (h.real.of_open (.error e)) hnone, hfiles]

theorem cutSong_failed_writer : cutSong.fs.truncatedPaths.get? song = some 3 ∧
    (cutSong.getattrSize srcPath song = 3 ∧ (cutSongPosix (srcPath song)).length = 3 ∧
      (cutSong.open srcPath song 1 (.error (.osError "song"))).view srcPath song =
        cutSong.files (srcPath song) ∧
      (cutSong.open srcPath song 1 (.error (.osError "song"))).getattrSize srcPath song =
        (cutSong.files (srcPath song)).length) :=
  have ht : cutSong.fs.truncatedPaths.get? song = some 3 := by decide
  ⟨ht, failed_writer_open_restores_cut_bytes srcPath_injective cutSong_sim ht (by decide) (.osError "song")⟩

end Extras

end PyTagsFs.Truncation
