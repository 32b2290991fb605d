import PyTagsFs.PathStoreLemmas

/-! # Runs of the path store and its structural invariant

A run applies the public operations of `PyTypesPathStore` one after another; an operation
that raises still leaves behind whatever it changed before raising, and the run goes on
from there. The only caller, `SourceTreeRepresentation`, never adds or renames below a
file, and runs are restricted in the same way. -/
namespace PyTagsFs

/-- The proper ancestors of a path, from `/` down. -/
def properAncestors (p : FakePath) : List FakePath := p.inits.dropLast

namespace PyTypesPathStore
variable {μ : Type}

inductive Op (μ : Type) where
  | addFile (fakePath : FakePath) (realPath : RealPath)
  | addDirectory (fakePath : FakePath)
  | remove (fakePath : FakePath) (realPath : Option RealPath)
  | rename (oldFakePath newFakePath : FakePath)
  | setMetaData (fakePath : FakePath) (metaData : μ)
  | unsetMetaData (fakePath : FakePath)

def Op.run : Op μ → EStateM Error (PyTypesPathStore μ) Unit
  | .addFile f r => PyTypesPathStore.addFile f r
  | .addDirectory f => PyTypesPathStore.addDirectory f
  | .remove f r => PyTypesPathStore.remove f r
  | .rename f g => PyTypesPathStore.rename f g
  | .setMetaData f m => PyTypesPathStore.setMetaData f m
  | .unsetMetaData f => PyTypesPathStore.unsetMetaData f

/-- The paths an operation creates. -/
def Op.targets : Op μ → List FakePath
  | .addFile f _ | .addDirectory f | .rename _ f => [f]
  | _ => []

/-- No target lies below an existing file. -/
def Allowed (s : PyTypesPathStore μ) (op : Op μ) : Prop :=
  ∀ t ∈ op.targets, ∀ a ∈ properAncestors t, s.isFile a = false

instance (s : PyTypesPathStore μ) (op : Op μ) : Decidable (Allowed s op) :=
  inferInstanceAs (Decidable (∀ t ∈ op.targets, ∀ a ∈ properAncestors t, s.isFile a = false))

def next (s : PyTypesPathStore μ) (op : Op μ) : PyTypesPathStore μ := stateOf (op.run s)

inductive Execution : PyTypesPathStore μ → PyTypesPathStore μ → Prop where
  | refl (s) : Execution s s
  | tail {s u op} : Execution s u → Allowed u op → Execution s (next u op)

def Reachable (s : PyTypesPathStore μ) : Prop := Execution initial s

def runTrace (s : PyTypesPathStore μ) : List (Op μ) → PyTypesPathStore μ
  | [] => s
  | op :: ops => runTrace (next s op) ops

def ValidTrace (s : PyTypesPathStore μ) : List (Op μ) → Prop
  | [] => True
  | op :: ops => Allowed s op ∧ ValidTrace (next s op) ops

instance decidableValidTrace : (s : PyTypesPathStore μ) → (ops : List (Op μ)) → Decidable (ValidTrace s ops)
  | _, [] => isTrue trivial
  | s, op :: ops => have := decidableValidTrace (next s op) ops; instDecidableAnd

theorem valid_trace_execution {s : PyTypesPathStore μ} {ops : List (Op μ)} (h : ValidTrace s ops) :
    ∀ u, Execution u s → Execution u (runTrace s ops) := by
  induction ops generalizing s with
  | nil => intro u hu; exact hu
  | cons op ops ih => intro u hu; exact ih h.2 u (.tail hu h.1)

theorem valid_trace_reachable {ops : List (Op μ)} (h : ValidTrace initial ops) :
    Reachable (runTrace initial ops) := valid_trace_execution h initial (.refl _)

/-- The multiplicity with which a path occurs in its parent's entry list: the stack height
of a file, the number of end points below a directory (one for an empty one). -/
def weight (s : PyTypesPathStore μ) (p : FakePath) : Nat :=
  if s.isFile p then ((s.pathMapping.forwardMapping.get? p).getD []).length
  else if s.isDir p then max 1 ((s.entries.entries.get? p).getD []).length
  else 0

structure Invariant (s : PyTypesPathStore μ) : Prop where
  root_dir : s.isDir [] = true
  file_not_dir : ∀ f, s.isFile f = true → s.isDir f = false
  forward_nonempty : ∀ f l, s.pathMapping.forwardMapping.get? f = some l → l ≠ []
  reverse_nonempty : ∀ r l, s.pathMapping.reverseMapping.get? r = some l → l ≠ []
  inverse : ∀ f r, ((s.pathMapping.forwardMapping.get? f).getD []).count r =
    ((s.pathMapping.reverseMapping.get? r).getD []).count f
  file_parent : ∀ f, s.isFile f = true → f ≠ [] ∧ s.isDir f.dropLast = true
  dir_parent : ∀ d, s.isDir d = true → d ≠ [] → s.isDir d.dropLast = true
  occurrences : ∀ d n, s.isDir d = true →
    (EntryStore.names ((s.entries.entries.get? d).getD [])).count n = s.weight (d ++ [n])

theorem initial_invariant : Invariant (initial : PyTypesPathStore μ) where
  occurrences := by rintro d n hd; simp_all [initial, EntryStore.initial, isDir, isFile, PathMapping.getRealPath,
    PathMapping.empty, weight, EntryStore.names]
  file_not_dir := by simp [initial, isFile, PathMapping.getRealPath, PathMapping.empty]
  file_parent := by simp [initial, isFile, PathMapping.getRealPath, PathMapping.empty]
  root_dir := by simp [initial, EntryStore.initial, isDir]
  dir_parent := by simp [initial, EntryStore.initial, isDir]
  forward_nonempty := by simp [initial, PathMapping.empty]
  reverse_nonempty := by simp [initial, PathMapping.empty]
  inverse := by simp [initial, PathMapping.empty]

/-! ## Consequences of the invariant

Directories are closed under prefixes, a path's name occurs in its parent's entry list
while it exists, and a path that is not a directory splits at its deepest directory. -/

theorem weight_pos {s : PyTypesPathStore μ} {p : FakePath} (h : s.isFile p = true ∨ s.isDir p = true) : 0 < s.weight p := by
  by_cases hf : s.isFile p = true
  · have hf' := hf
    simp only [isFile, PathMapping.getRealPath, Option.isSome_iff_exists, Option.bind_eq_some] at hf'
    obtain ⟨r, l, hl, hr⟩ := hf'
    simp only [weight, hf, if_true, hl, Option.getD_some]
    exact List.length_pos.2 (by rintro rfl; simp at hr)
  · simp [weight, hf, h.resolve_left hf]

theorem weight_eq_zero {s : PyTypesPathStore μ} {p : FakePath} (hf : s.isFile p = false) (hd : s.isDir p = false) : s.weight p = 0 := by
  simp [weight, hf, hd]

namespace Invariant
variable {s : PyTypesPathStore μ}

theorem isDir_of_prefix (hs : s.Invariant) {p d : FakePath} (hd : s.isDir d = true) (hp : p <+: d) :
    s.isDir p = true := by
  induction d using List.reverseRecOn with
  | nil => rwa [List.prefix_nil.1 hp]
  | append_singleton d x ih =>
    rcases List.prefix_concat_iff.1 hp with rfl | hp
    · exact hd
    · exact ih (by simpa using hs.dir_parent _ hd (by simp)) hp

theorem isDir_of_prefix_of_isFile (hs : s.Invariant) {p f : FakePath} (hf : s.isFile f = true) (hp : p <+: f)
    (hne : p ≠ f) : s.isDir p = true :=
  hs.isDir_of_prefix (hs.file_parent f hf).2 (prefix_dropLast_of_prefix_ne hp hne)

theorem isFile_eq_false_of_isDir (hs : s.Invariant) {p : FakePath} (hd : s.isDir p = true) : s.isFile p = false := by
  cases hf : s.isFile p
  · rfl
  · simp [hs.file_not_dir p hf] at hd

theorem weight_of_isDir (hs : s.Invariant) {p : FakePath} (hd : s.isDir p = true) :
    s.weight p = max 1 ((s.entries.entries.get? p).getD []).length := by
  simp [weight, hs.isFile_eq_false_of_isDir hd, hd]

theorem mem_names (hs : s.Invariant) {d : FakePath} {n : Seg} (hd : s.isDir d = true)
    (h : s.isFile (d ++ [n]) = true ∨ s.isDir (d ++ [n]) = true) :
    n ∈ EntryStore.names ((s.entries.entries.get? d).getD []) :=
  List.count_pos_iff.1 (by rw [hs.occurrences d n hd]; exact weight_pos h)

theorem names_along (hs : s.Invariant) {q : FakePath} (hq : s.isDir q = true) :
    ∀ st ∈ iterDirectoriesAndEntries [] q, st.2 ∈ EntryStore.names ((s.entries.entries.get? st.1).getD []) := by
  intro st hst
  obtain ⟨d, e, rfl, hde⟩ := (mem_iterDirectoriesAndEntries _ _ _).1 hst
  simp only [List.nil_append]
  exact hs.mem_names (hs.isDir_of_prefix hq ((List.prefix_append _ _).trans hde)) (.inr (hs.isDir_of_prefix hq hde))

/-- Along a file or a directory, every step's name is in its directory's entry list. -/
theorem names_along_endPoint (hs : s.Invariant) {t : FakePath} (ht : s.isFile t = true ∨ s.isDir t = true) :
    ∀ st ∈ iterDirectoriesAndEntries [] t, st.2 ∈ EntryStore.names ((s.entries.entries.get? st.1).getD []) := by
  intro st hst
  obtain ⟨d, e, rfl, hde⟩ := (mem_iterDirectoriesAndEntries _ _ _).1 hst
  have hdir : ∀ p, p <+: t → p ≠ t → s.isDir p = true := fun p hp hne => by
    rcases ht with ht | ht
    · exact hs.isDir_of_prefix_of_isFile ht hp hne
    · exact hs.isDir_of_prefix ht hp
  have hd : s.isDir d = true := hdir d ((List.prefix_append _ _).trans hde) fun e' => by
    subst e'; have := hde.length_le; simp only [List.length_append, List.length_singleton] at this; omega
  simp only [List.nil_append]
  by_cases het : d ++ [e] = t
  · exact hs.mem_names hd (het ▸ ht)
  · exact hs.mem_names hd (.inr (hdir _ hde het))

theorem child_of_not_isDir (hs : s.Invariant) {d : FakePath} (hd : s.isDir d = false) (n : Seg) :
    s.isFile (d ++ [n]) = false ∧ s.isDir (d ++ [n]) = false := by
  constructor
  · cases hf : s.isFile (d ++ [n])
    · rfl
    · simpa [hd] using (hs.file_parent _ hf).2
  · cases hd' : s.isDir (d ++ [n])
    · rfl
    · simpa [hd] using hs.dir_parent _ hd' (by simp)

/-- Every name a directory lists is a file or a directory below it. -/
theorem exists_of_mem_names (hs : s.Invariant) {d : FakePath} {n : Seg}
    (hn : n ∈ EntryStore.names ((s.entries.entries.get? d).getD [])) :
    s.isFile (d ++ [n]) = true ∨ s.isDir (d ++ [n]) = true := by
  cases hd : s.isDir d
  · have hnone : s.entries.entries.get? d = none :=
      Dict.get?_eq_none_of_contains (by simpa using hd)
    simp [hnone, EntryStore.names] at hn
  · have hw : 0 < s.weight (d ++ [n]) := by rw [← hs.occurrences d n hd]; exact List.count_pos_iff.2 hn
    by_contra h
    simp only [not_or, Bool.not_eq_true] at h
    exact Nat.lt_irrefl 0 (weight_eq_zero h.1 h.2 ▸ hw)

theorem weight_child_le (hs : s.Invariant) {d : FakePath} (hd : s.isDir d = true) (n : Seg) :
    s.weight (d ++ [n]) ≤ s.weight d := by
  rw [← hs.occurrences d n hd, hs.weight_of_isDir hd]
  exact (List.count_le_length _ _).trans (by simp [EntryStore.names])

/-- A path that is not a directory splits at its deepest directory prefix `q`. -/
theorem exists_deepest_dir (hs : s.Invariant) {f : FakePath} (hf : f ≠ []) (hnd : s.isDir f = false) :
    ∃ q r₀ r₁, f = q ++ r₀ :: r₁ ∧ s.isDir q = true ∧
      ∀ p, p <+: f → q.length < p.length → s.isDir p = false := by
  induction f using List.reverseRecOn with
  | nil => exact absurd rfl hf
  | append_singleton g x ih =>
    by_cases hg : s.isDir g = true
    · refine ⟨g, x, [], rfl, hg, fun p hp hlen => ?_⟩
      rcases List.prefix_concat_iff.1 hp with rfl | hp
      · exact hnd
      · exact absurd hp.length_le (by omega)
    · have hg0 : g ≠ [] := by rintro rfl; exact hg hs.root_dir
      obtain ⟨q, r₀, r₁, rfl, hq, hdeep⟩ := ih hg0 (by simpa using hg)
      refine ⟨q, r₀, r₁ ++ [x], by simp, hq, fun p hp hlen => ?_⟩
      rcases List.prefix_concat_iff.1 hp with rfl | hp
      · exact hnd
      · exact hdeep p hp hlen

end Invariant

section Counterexamples

def segFoo : Seg := ⟨"foo", by decide, by decide⟩
def segBar : Seg := ⟨"bar", by decide, by decide⟩

/-- An empty directory `/foo` renamed onto the file `/bar` beside it. -/
def directoryOntoFile : PyTypesPathStore Nat :=
  runTrace initial [.addDirectory [segFoo], .addFile [segBar] "/x", .rename [segFoo] [segBar]]

/-- Renaming an empty directory onto a file of the same directory: the target becomes a
file and a directory at once, where `add_file` and `add_directory` refuse an existing target. -/
theorem rename_directory_onto_file_is_both :
    Reachable directoryOntoFile ∧ directoryOntoFile.isFile [segBar] = true ∧
      directoryOntoFile.isDir [segBar] = true :=
  ⟨valid_trace_reachable (by decide), by decide, by decide⟩

/-- A file below `/foo` and an empty directory `/bar`. -/
def fileAndDirectory : PyTypesPathStore Nat :=
  runTrace initial [.addFile [segFoo, segBar] "/x", .addDirectory [segBar]]

/-- Renaming a file into another directory onto an existing directory: `_rename_file` has
already removed the old mapping when `add_file` raises `PathExists`. -/
theorem rename_file_onto_directory_fails_after_removal :
    Reachable fileAndDirectory ∧ fileAndDirectory.isFile [segFoo, segBar] = true ∧
      errorOf (rename [segFoo, segBar] [segBar] fileAndDirectory) = some (.pathExists [segBar]) ∧
      (stateOf (rename [segFoo, segBar] [segBar] fileAndDirectory)).isFile [segFoo, segBar] = false :=
  ⟨valid_trace_reachable (by decide), by decide, by decide, by decide⟩

end Counterexamples

end PyTypesPathStore

end PyTagsFs
