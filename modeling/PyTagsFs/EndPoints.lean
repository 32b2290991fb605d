import PyTagsFs.PathStoreRemove
import PyTagsFs.Unique

/-! # `get_end_points` lists each end point below a path once

Under the structural invariant a directory's entry list names exactly its children that
exist, possibly several times over; `get_entries` keeps one of each, so the recursion of
`get_end_points` visits every child once and stops at files and empty directories. It needs
no more fuel than the number of directories at or below the path: each call descends into
a directory, and the directories below a child are fewer. -/
namespace PyTagsFs

theorem mapM_eq_ok_map {α β ε : Type} (f : α → Except ε β) (g : α → β) :
    ∀ l : List α, (∀ a ∈ l, f a = .ok (g a)) → l.mapM f = .ok (l.map g)
  | [], _ => rfl
  | a :: l, h => by
    rw [List.mapM_cons, h a (List.mem_cons_self _ _), mapM_eq_ok_map f g l fun b hb => h b (List.mem_cons_of_mem _ hb)]
    rfl

namespace PyTypesPathStore
variable {μ : Type} {s : PyTypesPathStore μ}

/-- The directories at or below a path. -/
def dirsBelow (s : PyTypesPathStore μ) (p : FakePath) : Nat :=
  (s.entries.entries.keys.filter fun k => p.isPrefixOf k).length

theorem getEntries_of_isDir {p : FakePath} (hp : s.isDir p = true) :
    s.getEntries p = .ok (lastUnique (EntryStore.names ((s.entries.entries.get? p).getD []))) := by
  obtain ⟨l, hl⟩ := Dict.exists_of_contains hp
  simp [getEntries, mustBeDir, mustExist, pathExists, hp, EntryStore.getEntries, EntryStore.getAllEntries, hl,
    EntryStore.names, bind, Except.bind, pure, Except.pure, Except.map]

theorem isEmptyDir_iff {p : FakePath} : s.isEmptyDir p = true ↔
    s.isDir p = true ∧ lastUnique (EntryStore.names ((s.entries.entries.get? p).getD [])) = [] := by
  simp [isEmptyDir, lastUnique_eq_nil_iff, EntryStore.names]

theorem exists_of_leaf {e : FakePath} (he : s.isFile e = true ∨ s.isEmptyDir e = true) :
    s.isFile e = true ∨ s.isDir e = true :=
  he.imp_right fun h => (isEmptyDir_iff.1 h).1

/-- A leaf with no other leaf below it is the one end point at or below itself. -/
theorem endPoints_singleton {p : FakePath} (hp : s.isFile p = true ∨ s.isEmptyDir p = true)
    (hbelow : ∀ e, p <+: e → (s.isFile e = true ∨ s.isEmptyDir e = true) → e = p) :
    [p].Nodup ∧ ∀ e, e ∈ [p] ↔ p <+: e ∧ (s.isFile e = true ∨ s.isEmptyDir e = true) :=
  ⟨List.nodup_singleton p, fun e => by
    rw [List.mem_singleton]
    exact ⟨by rintro rfl; exact ⟨List.prefix_refl _, hp⟩, fun ⟨hpe, he⟩ => hbelow e hpe he⟩⟩

namespace Invariant

/-- Nothing lies below a file. -/
theorem eq_of_prefix_of_isFile (hs : s.Invariant) {f e : FakePath} (hf : s.isFile f = true) (hfe : f <+: e)
    (he : s.isFile e = true ∨ s.isDir e = true) : e = f := by
  by_contra hne
  have hdir : s.isDir f = true := by
    rcases he with he | he
    · exact hs.isDir_of_prefix_of_isFile he hfe (Ne.symm hne)
    · exact hs.isDir_of_prefix he hfe
  simp [hs.file_not_dir f hf] at hdir

/-- A file or directory strictly below a directory lies below one of its named children. -/
theorem exists_child (hs : s.Invariant) {d e : FakePath} (hd : s.isDir d = true) (hde : d <+: e) (hne : e ≠ d)
    (he : s.isFile e = true ∨ s.isDir e = true) :
    ∃ n ∈ EntryStore.names ((s.entries.entries.get? d).getD []), d ++ [n] <+: e := by
  obtain ⟨_ | ⟨n, rest⟩, rfl⟩ := hde
  · exact absurd (List.append_nil d) hne
  · refine ⟨n, hs.mem_names hd ?_, ⟨rest, by simp⟩⟩
    by_cases hrest : rest = []
    · subst hrest; simpa using he
    · have hp : d ++ [n] <+: d ++ n :: rest := ⟨rest, by simp⟩
      have hpne : d ++ [n] ≠ d ++ n :: rest := by simpa using hrest ∘ Eq.symm
      rcases he with he | he
      · exact .inr (hs.isDir_of_prefix_of_isFile he hp hpne)
      · exact .inr (hs.isDir_of_prefix he hp)

/-- A child has fewer directories below it than its parent, which is one of them. -/
theorem dirsBelow_child_lt (hd : s.isDir d = true) (n : Seg) : s.dirsBelow (d ++ [n]) < s.dirsBelow d := by
  have hsub : List.Sublist (s.entries.entries.keys.filter fun k => (d ++ [n]).isPrefixOf k)
      (s.entries.entries.keys.filter fun k => d.isPrefixOf k) :=
    List.monotone_filter_right _ fun k hk => by
      simp only [List.isPrefixOf_iff_prefix] at hk ⊢
      exact (List.prefix_append d [n]).trans hk
  have hmem : d ∈ s.entries.entries.keys.filter fun k => d.isPrefixOf k :=
    List.mem_filter.2 ⟨(Dict.contains_iff _ _).1 hd, by simp⟩
  have hnot : d ∉ s.entries.entries.keys.filter fun k => (d ++ [n]).isPrefixOf k := fun h => by
    have := (List.isPrefixOf_iff_prefix.1 (List.mem_filter.1 h).2).length_le
    simp only [List.length_append, List.length_singleton] at this
    omega
  exact lt_of_le_of_ne hsub.length_le fun h => hnot (hsub.eq_of_length h ▸ hmem)

/-- The end points of a non-empty directory's children, child after child in the listing:
children are distinct, so their end points are, and every end point strictly below the
directory lies below a child. -/
theorem endPoints_flatMap (hs : s.Invariant) {p : FakePath} (hd : s.isDir p = true) (hf : s.isFile p = false)
    (hne : s.isEmptyDir p = false) (E : Seg → List FakePath)
    (hE : ∀ n ∈ lastUnique (EntryStore.names ((s.entries.entries.get? p).getD [])), (E n).Nodup ∧
      ∀ e, e ∈ E n ↔ p ++ [n] <+: e ∧ (s.isFile e = true ∨ s.isEmptyDir e = true)) :
    ((lastUnique (EntryStore.names ((s.entries.entries.get? p).getD []))).flatMap E).Nodup ∧
      ∀ e, e ∈ (lastUnique (EntryStore.names ((s.entries.entries.get? p).getD []))).flatMap E ↔
        p <+: e ∧ (s.isFile e = true ∨ s.isEmptyDir e = true) := by
  refine ⟨List.nodup_flatMap.2 ⟨fun n hn => (hE n hn).1, (nodup_lastUnique _).imp_of_mem ?_⟩, fun e => ?_⟩
  · intro a b ha hb hab e hea heb
    have h := List.prefix_of_prefix_length_le (((hE a ha).2 e).1 hea).1 (((hE b hb).2 e).1 heb).1 (by simp)
    exact hab (by simpa using h)
  rw [List.mem_flatMap]
  constructor
  · rintro ⟨n, hn, he⟩
    obtain ⟨hpe, hleaf⟩ := ((hE n hn).2 e).1 he
    exact ⟨(List.prefix_append p [n]).trans hpe, hleaf⟩
  · rintro ⟨hpe, hleaf⟩
    have hep : e ≠ p := by
      rintro rfl
      rcases hleaf with h | h
      · simp [hf] at h
      · simp [hne] at h
    obtain ⟨n, hn, hne'⟩ := hs.exists_child hd hpe hep (exists_of_leaf hleaf)
    have hn := (mem_lastUnique _ n).2 hn
    exact ⟨n, hn, ((hE n hn).2 e).2 ⟨hne', hleaf⟩⟩

/-- With more fuel than directories at or below an existing path, the recursion returns
each file and empty directory at or below it, once. -/
theorem getEndPointsWithFuel_eq (hs : s.Invariant) :
    ∀ (fuel : Nat) (p : FakePath), s.isFile p = true ∨ s.isDir p = true → s.dirsBelow p < fuel →
      ∃ E, s.getEndPointsWithFuel fuel p = .ok E ∧ E.Nodup ∧
        ∀ e, e ∈ E ↔ p <+: e ∧ (s.isFile e = true ∨ s.isEmptyDir e = true)
  | 0, _, _, h => absurd h (Nat.not_lt_zero _)
  | fuel + 1, p, hp, hfuel => by
    by_cases hf : s.isFile p = true
    · exact ⟨[p], by simp [getEndPointsWithFuel, hf, pure, Except.pure],
        endPoints_singleton (.inl hf) fun e hpe he => hs.eq_of_prefix_of_isFile hf hpe (exists_of_leaf he)⟩
    have hd : s.isDir p = true := hp.resolve_left hf
    rw [Bool.not_eq_true] at hf
    set names := EntryStore.names ((s.entries.entries.get? p).getD []) with hnames
    have hrun := getEntries_of_isDir hd
    by_cases hnil : lastUnique names = []
    · refine ⟨[p], by simp [getEndPointsWithFuel, hf, hrun, ← hnames, hnil, bind, Except.bind, pure, Except.pure],
        endPoints_singleton (.inr (isEmptyDir_iff.2 ⟨hd, hnil⟩)) fun e hpe he => ?_⟩
      by_contra hne
      obtain ⟨n, hn, -⟩ := hs.exists_child hd hpe hne (exists_of_leaf he)
      exact List.not_mem_nil n (hnil ▸ (mem_lastUnique names n).2 hn)
    -- one recursive call per child, each with fewer directories below it
    have hchild : ∀ n ∈ lastUnique names, ∃ E, s.getEndPointsWithFuel fuel (p ++ [n]) = .ok E ∧ E.Nodup ∧
        ∀ e, e ∈ E ↔ p ++ [n] <+: e ∧ (s.isFile e = true ∨ s.isEmptyDir e = true) := fun n hn =>
      getEndPointsWithFuel_eq hs fuel (p ++ [n]) (hs.exists_of_mem_names ((mem_lastUnique names n).1 hn))
        (Nat.lt_of_lt_of_le (dirsBelow_child_lt hd n) (Nat.le_of_lt_succ hfuel))
    let E := fun n => ((s.getEndPointsWithFuel fuel (p ++ [n])).toOption).getD []
    have hE : ∀ n ∈ lastUnique names, s.getEndPointsWithFuel fuel (p ++ [n]) = .ok (E n) ∧ (E n).Nodup ∧
        ∀ e, e ∈ E n ↔ p ++ [n] <+: e ∧ (s.isFile e = true ∨ s.isEmptyDir e = true) := fun n hn => by
      obtain ⟨E', hE', h⟩ := hchild n hn
      simp only [E, hE', Except.toOption, Option.getD_some]
      exact ⟨trivial, h⟩
    refine ⟨(lastUnique names).flatMap E, ?_, hs.endPoints_flatMap hd hf
      (Bool.eq_false_iff.2 fun h => hnil (isEmptyDir_iff.1 h).2) E fun n hn => (hE n hn).2⟩
    simp only [getEndPointsWithFuel, hf, hrun, ← hnames, Bool.false_eq_true, if_false, bind, Except.bind, hnil]
    rw [mapM_eq_ok_map _ E _ fun n hn => (hE n hn).1]
    rfl

end Invariant

/-- Under the structural invariant, `get_end_points` of an existing path returns, without
raising, each file and empty directory at or below it exactly once. -/
theorem getEndPoints_eq_endPoints_below (s : PyTypesPathStore μ) (hs : s.Invariant) (p : FakePath)
    (hp : s.pathExists p = true) :
    ∃ E, s.getEndPoints p = .ok E ∧ E.Nodup ∧
      ∀ e, e ∈ E ↔ p <+: e ∧ (s.isFile e = true ∨ s.isEmptyDir e = true) :=
  hs.getEndPointsWithFuel_eq _ p (by simpa [pathExists] using hp)
    (Nat.lt_succ_of_le (List.length_filter_le _ _))

def segBaz : Seg := ⟨"baz", by decide, by decide⟩

/-- A file stacked twice at `/foo/bar` and an empty directory `/baz`: `/foo` lists `bar` twice. -/
def endPointsStore : PyTypesPathStore Nat :=
  runTrace initial [.addFile [segFoo, segBar] "/x", .addFile [segFoo, segBar] "/y", .addDirectory [segBaz]]

theorem endPointsStore_getEndPoints_root :
    endPointsStore.Invariant ∧ endPointsStore.pathExists [] = true ∧
      ∃ E, endPointsStore.getEndPoints [] = .ok E ∧ E.Nodup ∧
        ∀ e, e ∈ E ↔ [] <+: e ∧ (endPointsStore.isFile e = true ∨ endPointsStore.isEmptyDir e = true) :=
  have hs : endPointsStore.Invariant := Invariant.runTrace_invariant _ _ initial_invariant (by decide) (by decide)
  ⟨hs, by decide, getEndPoints_eq_endPoints_below _ hs [] (by decide)⟩

example : (endPointsStore.getEndPoints []).toOption = some [[segFoo, segBar], [segBaz]] := by decide

end PyTypesPathStore

end PyTagsFs
