import PyTagsFs.EndPoints

/-! # Renaming within a directory keeps the listing's order

`rename` of a file with one real path, or of an empty directory, to a free name in the same
directory goes through `replace_entry`, which overwrites the last entry of the old name in
the parent's list. Under the structural invariant that name occurs once, so the listing
`get_entries` returns has the new name where the old one stood, and no other directory's
listing changes. -/
namespace PyTagsFs

namespace PyTypesPathStore
variable {μ : Type} {s : PyTypesPathStore μ}

theorem renameFile_in_directory_eq (hs : s.Invariant) {parent : FakePath} {a b : Seg} (hab : a ≠ b)
    {r : RealPath} (hr : s.pathMapping.forwardMapping.get? (parent ++ [a]) = some [r]) :
    ∃ l rl, s.entries.entries.get? parent = some l ∧ a ∈ EntryStore.names l ∧
      s.pathMapping.reverseMapping.get? r = some rl ∧
      rename (parent ++ [a]) (parent ++ [b]) s = .ok () ⟨PathMapping.addRealPath
        ⟨s.pathMapping.forwardMapping.shrink (parent ++ [a]) [],
          s.pathMapping.reverseMapping.shrink r (@List.erase FakePath instBEqOfDecidableEq rl (parent ++ [a]))⟩
        (parent ++ [b]) r, ⟨s.entries.entries.set parent (EntryStore.modifyLast a (fun _ => ⟨b, none⟩) l)⟩⟩ := by
  have hfile : s.isFile (parent ++ [a]) = true := by simp [isFile, PathMapping.getRealPath, hr]
  have hpar : s.isDir parent = true := by simpa using (hs.file_parent _ hfile).2
  obtain ⟨l, hl⟩ := Dict.exists_of_contains hpar
  have ha : a ∈ EntryStore.names l := by simpa [hl] using hs.mem_names hpar (.inl hfile)
  have hcount := hs.inverse (parent ++ [a]) r
  rw [hr] at hcount
  obtain ⟨rl, hrl⟩ : ∃ rl, s.pathMapping.reverseMapping.get? r = some rl := by
    cases h : s.pathMapping.reverseMapping.get? r with
    | none => simp [h] at hcount
    | some rl => exact ⟨rl, rfl⟩
  have hfr : parent ++ [a] ∈ rl := List.count_pos_iff.1 (by simp [hrl] at hcount; omega)
  have hrm := PathMapping.removeRealPath_eq s.pathMapping (parent ++ [a]) (some r) [r] hr (by simp) (by simp) rl hrl hfr
  refine ⟨l, rl, hl, ha, hrl, ?_⟩
  simp [rename, hs.file_not_dir _ hfile, hfile, renameFile, getRealPath, PathMapping.getRealPath, hr, verifyRename, hab,
    onEntries, onMapping, EntryStore.replaceEntry_eq, hl, ha, hrm, PathMapping.removedStack]

theorem renameDirectory_in_directory_eq (hs : s.Invariant) {parent : FakePath} {a b : Seg} (hab : a ≠ b)
    (hempty : s.isEmptyDir (parent ++ [a]) = true) (hnew : s.isDir (parent ++ [b]) = false) :
    ∃ l, s.entries.entries.get? parent = some l ∧ a ∈ EntryStore.names l ∧
      rename (parent ++ [a]) (parent ++ [b]) s = .ok () ⟨s.pathMapping,
        ⟨(((s.entries.entries.erase (parent ++ [a])).set parent
          (EntryStore.modifyLast a (fun _ => ⟨b, none⟩) l)).set (parent ++ [b]) [])⟩⟩ := by
  have hdir : s.isDir (parent ++ [a]) = true := by simp_all [isEmptyDir]
  have hold : s.entries.entries.get? (parent ++ [a]) = some [] := by
    obtain ⟨l, hl⟩ := Dict.exists_of_contains hdir
    simp_all [isEmptyDir]
  have hpar : s.isDir parent = true := by simpa using hs.dir_parent _ hdir (by simp)
  obtain ⟨l, hl⟩ := Dict.exists_of_contains hpar
  have ha : a ∈ EntryStore.names l := by simpa [hl] using hs.mem_names hpar (.inr hdir)
  have hpa : parent ++ [a] ≠ parent := by simp
  have hpb : parent ++ [b] ≠ parent := by simp
  have hab' : parent ++ [a] ≠ parent ++ [b] := by simpa using hab
  have hmem : parent ++ [a] ∈ s.entries.entries.keys := (Dict.contains_iff _ _).1 hdir
  have hnmem : parent ++ [b] ∉ ((s.entries.entries.erase (parent ++ [a])).set parent
      (EntryStore.modifyLast a (fun _ => ⟨b, none⟩) l)).keys := by
    have hnew' : parent ++ [b] ∉ s.entries.entries.keys := fun h => by
      simp [isDir, (Dict.contains_iff _ _).2 h] at hnew
    rw [Dict.mem_keys_set_iff, Dict.mem_keys_iff, Dict.get?_erase, if_neg hab', ← Dict.mem_keys_iff]
    rintro (h | h)
    · exact hpb h.symm
    · exact hnew' h
  refine ⟨l, hl, ha, ?_⟩
  simp [rename, hdir, renameDirectory, mustBeEmptyDirectory, mustExist, pathExists, hempty, assertNotRoot,
    verifyRename, hab, onEntries, EntryStore.getAllEntries, hold, EntryStore.removeDirectory, EntryStore.replaceEntry_eq,
    hl, ha, EntryStore.addDirectory, EntryStore.addEntries, hpa, Ne.symm hpa, hmem, hnmem]

theorem EntryStore.lastUnique_names_modifyLast (l : List (Entry μ)) (a b : Seg)
    (ha : (EntryStore.names l).count a = 1) (hb : b ∉ EntryStore.names l) :
    a ∈ lastUnique (EntryStore.names l) ∧
      lastUnique (EntryStore.names (EntryStore.modifyLast a (fun _ => ⟨b, none⟩) l)) =
        (lastUnique (EntryStore.names l)).set ((lastUnique (EntryStore.names l)).indexOf a) b := by
  have ha' : a ∈ EntryStore.names l := List.count_pos_iff.1 (by omega)
  let f := fun n : Seg => if n = a then b else n
  have hinj : ∀ x ∈ EntryStore.names l, ∀ y ∈ EntryStore.names l, f x = f y → x = y := fun x hx y hy h => by
    by_cases hxa : x = a <;> by_cases hya : y = a <;> simp only [f, hxa, hya, if_true, if_false] at h
    · rw [hxa, hya]
    · exact absurd (h ▸ hy) hb
    · exact absurd (h ▸ hx) hb
    · exact h
  obtain ⟨l₁, x, l₂, rfl, hx, h₂⟩ := EntryStore.exists_last l a ha'
  have h₁ : a ∉ EntryStore.names l₁ := fun h => by
    have := List.count_pos_iff.2 h
    rw [show EntryStore.names (l₁ ++ x :: l₂) = EntryStore.names l₁ ++ a :: EntryStore.names l₂ by
      simp [EntryStore.names, hx], List.count_append, List.count_cons_self] at ha
    omega
  have h₂' : a ∉ EntryStore.names l₂ := fun h => by
    obtain ⟨y, hy, hya⟩ := List.mem_map.1 h
    exact h₂ y hy hya
  have hnames : EntryStore.names (l₁ ++ ⟨b, none⟩ :: l₂) = (EntryStore.names (l₁ ++ x :: l₂)).map f := by
    have hid : ∀ L : List Seg, a ∉ L → L.map f = L := fun L hL =>
      (List.map_congr_left fun n hn => if_neg fun (e : n = a) => hL (e ▸ hn)).trans (List.map_id L)
    simp only [EntryStore.names, List.map_append, List.map_cons] at h₁ h₂' ⊢
    rw [hid _ h₁, hid _ h₂']
    simp [f, hx]
  rw [EntryStore.modifyLast_split _ _ _ _ _ hx h₂, hnames, lastUnique_map f _ hinj,
    map_replace_eq_set a b _ (nodup_lastUnique _) ((mem_lastUnique _ _).2 ha')]
  exact ⟨(mem_lastUnique _ _).2 ha', rfl⟩

theorem isDir_eq_isSome (s : PyTypesPathStore μ) (d : FakePath) : s.isDir d = (s.entries.entries.get? d).isSome := by
  simp [isDir, Dict.contains, Dict.mem_keys_iff]

theorem getEntries_congr {s s' : PyTypesPathStore μ} {d : FakePath} (hf : s'.isFile d = s.isFile d)
    (he : s'.entries.entries.get? d = s.entries.entries.get? d) : s'.getEntries d = s.getEntries d := by
  have hd : s'.isDir d = s.isDir d := by rw [isDir_eq_isSome, isDir_eq_isSome, he]
  simp [getEntries, mustBeDir, mustExist, pathExists, hf, hd, EntryStore.getEntries, EntryStore.getAllEntries, he]

/-- Overwriting the one entry of a name by a name the directory does not list moves the
name in the listing in place. -/
theorem Invariant.getEntries_modifyLast (hs : s.Invariant) {s' : PyTypesPathStore μ} {parent : FakePath}
    {a b : Seg} {l : List (Entry μ)} (hpar : s.isDir parent = true) (hl : s.entries.entries.get? parent = some l)
    (hw : s.weight (parent ++ [a]) = 1) (hb : s.weight (parent ++ [b]) = 0)
    (hl' : s'.entries.entries.get? parent = some (EntryStore.modifyLast a (fun _ => ⟨b, none⟩) l)) :
    ∃ l, s.getEntries parent = .ok l ∧ a ∈ l ∧ s'.getEntries parent = .ok (l.set (l.indexOf a) b) := by
  have hca := hs.occurrences parent a hpar
  have hcb := hs.occurrences parent b hpar
  rw [hl, Option.getD_some] at hca hcb
  obtain ⟨hmem, hset⟩ := EntryStore.lastUnique_names_modifyLast l a b (hca.trans hw)
    (List.count_eq_zero.1 (hcb.trans hb))
  refine ⟨_, by rw [getEntries_of_isDir hpar, hl]; rfl, hmem, ?_⟩
  rw [getEntries_of_isDir (by rw [isDir_eq_isSome, hl']; rfl), hl', Option.getD_some, hset]

/-- A rename within one directory, of an empty directory or of a file with one real path,
to a name that does not exist: it returns, the parent's listing has the new name at the old
one's index, every other directory lists what it listed, and the new path is an end point
of the same kind, a file keeping its real path. -/
theorem rename_in_directory_keeps_entry_order (s : PyTypesPathStore μ) (hs : s.Invariant) (parent : FakePath)
    (a b : Seg) (hab : a ≠ b)
    (hold : s.isEmptyDir (parent ++ [a]) = true ∨ ∃ r, s.pathMapping.forwardMapping.get? (parent ++ [a]) = some [r])
    (hnew : s.pathExists (parent ++ [b]) = false) :
    ∃ s', rename (parent ++ [a]) (parent ++ [b]) s = .ok () s' ∧
      (∃ l, s.getEntries parent = .ok l ∧ a ∈ l ∧ s'.getEntries parent = .ok (l.set (l.indexOf a) b)) ∧
      (∀ d, d ≠ parent → d ≠ parent ++ [a] → d ≠ parent ++ [b] → s'.getEntries d = s.getEntries d) ∧
      (s.isEmptyDir (parent ++ [a]) = true → s'.isEmptyDir (parent ++ [b]) = true) ∧
      ∀ r, s.pathMapping.forwardMapping.get? (parent ++ [a]) = some [r] →
        s'.pathMapping.getRealPath (parent ++ [b]) = some r := by
  have hnf : s.isFile (parent ++ [b]) = false := by simp_all [pathExists]
  have hnd : s.isDir (parent ++ [b]) = false := by simp_all [pathExists]
  have hpa : parent ++ [a] ≠ parent := by simp
  have hpb : parent ++ [b] ≠ parent := by simp
  have hab' : parent ++ [a] ≠ parent ++ [b] := by simpa using hab
  rcases hold with hempty | ⟨r, hr⟩
  · have hdir : s.isDir (parent ++ [a]) = true := by simp_all [isEmptyDir]
    have hpar : s.isDir parent = true := by simpa using hs.dir_parent _ hdir (by simp)
    have hw : s.weight (parent ++ [a]) = 1 := by
      simp only [isEmptyDir, Bool.and_eq_true, List.isEmpty_iff] at hempty
      simp [hs.weight_of_isDir hdir, hempty.2]
    obtain ⟨l, hl, -, hrun⟩ := renameDirectory_in_directory_eq hs hab hempty hnd
    refine ⟨_, hrun, hs.getEntries_modifyLast hpar hl hw (weight_eq_zero hnf hnd) (by simp [Ne.symm hpb, hpa]),
      fun d h1 h2 h3 => ?_, fun _ => by simp [isEmptyDir, isDir_eq_isSome], fun r hr => ?_⟩
    · exact getEntries_congr rfl (by simp [Ne.symm h1, Ne.symm h2, Ne.symm h3])
    · have : s.isFile (parent ++ [a]) = true := by simp [isFile, PathMapping.getRealPath, hr]
      simp [hs.file_not_dir _ this] at hdir
  · have hfile : s.isFile (parent ++ [a]) = true := by simp [isFile, PathMapping.getRealPath, hr]
    have hpar : s.isDir parent = true := by simpa using (hs.file_parent _ hfile).2
    have hw : s.weight (parent ++ [a]) = 1 := by simp [weight, hfile, hr]
    have hfwd : s.pathMapping.forwardMapping.get? (parent ++ [b]) = none := by
      cases h : s.pathMapping.forwardMapping.get? (parent ++ [b]) with
      | none => rfl
      | some l =>
        obtain ⟨x, hx⟩ := List.exists_mem_of_ne_nil _ (hs.forward_nonempty _ _ h)
        simp [isFile, PathMapping.getRealPath, h, List.getLast?_eq_none_iff, List.ne_nil_of_mem hx] at hnf
    obtain ⟨l, rl, hl, -, -, hrun⟩ := renameFile_in_directory_eq hs hab hr
    refine ⟨_, hrun, hs.getEntries_modifyLast hpar hl hw (weight_eq_zero hnf hnd) (by simp),
      fun d h1 h2 h3 => ?_, fun h => ?_, fun r' hr' => ?_⟩
    · refine getEntries_congr ?_ (by simp [Ne.symm h1])
      simp [isFile, PathMapping.getRealPath, PathMapping.addRealPath, DictList.append, Ne.symm h2, Ne.symm h3]
    · simp [isEmptyDir, hs.file_not_dir _ hfile] at h
    · rw [hr] at hr'
      cases hr'
      simp [PathMapping.getRealPath, PathMapping.addRealPath, DictList.append, Ne.symm hab', hfwd]

def segQux : Seg := ⟨"qux", by decide, by decide⟩

/-- The root lists `bar`, `foo` and `baz`; `/foo` is a file with one real path. -/
def renameStore : PyTypesPathStore Nat :=
  runTrace initial [.addDirectory [segBar], .addFile [segFoo] "/x", .addFile [segBaz] "/y"]

theorem renameStore_rename_foo :
    renameStore.Invariant ∧ renameStore.pathExists [segQux] = false ∧
      ∃ s', rename [segFoo] [segQux] renameStore = .ok () s' ∧
        (∃ l, renameStore.getEntries [] = .ok l ∧ segFoo ∈ l ∧ s'.getEntries [] = .ok (l.set (l.indexOf segFoo) segQux)) ∧
        (∀ d, d ≠ [] → d ≠ [segFoo] → d ≠ [segQux] → s'.getEntries d = renameStore.getEntries d) ∧
        (renameStore.isEmptyDir [segFoo] = true → s'.isEmptyDir [segQux] = true) ∧
        ∀ r, renameStore.pathMapping.forwardMapping.get? [segFoo] = some [r] →
          s'.pathMapping.getRealPath [segQux] = some r :=
  have hs : renameStore.Invariant := Invariant.runTrace_invariant _ _ initial_invariant (by decide) (by decide)
  ⟨hs, by decide, rename_in_directory_keeps_entry_order renameStore hs [] segFoo segQux (by decide)
    (.inr ⟨"/x", by decide⟩) (by decide)⟩

example : ((stateOf (rename [segFoo] [segQux] renameStore)).getEntries []).toOption = some [segBar, segQux, segBaz] := by
  decide

end PyTypesPathStore

end PyTagsFs
