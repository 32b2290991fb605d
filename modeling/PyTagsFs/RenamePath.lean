import PyTagsFs.SourceTreeRep

/-! # What a rename leaves behind

`rename_path` works in steps: it moves the empty-directory end points under the old path,
reads old and new values back from each file end point, and writes one delta per real path.
A step that raises keeps the effects of the steps before it, so a failed rename is free of
effects when it fails before the first effect: before it moves an empty-directory end point
and before its first `meta_store.set` returns. -/
namespace PyTagsFs

theorem MetaStore.set_error (path : RealPath) (values : Values) (m m' : MetaStore) (e : Error)
    (h : MetaStore.set path values m = .error e m') : m' = m := by
  unfold MetaStore.set at h
  split at h <;> simp_all

namespace Rep

/-- `meta_store.set` raises before it writes anything. -/
theorem onMetaStore_set_error (realPath : RealPath) (values : Values) (s s' : Rep) (e : Error)
    (h : onMetaStore (MetaStore.set realPath values) s = .error e s') : s' = s := by
  obtain ⟨t, ht, rfl⟩ := zoom_error h
  cases MetaStore.set_error _ _ _ _ _ ht
  rfl

theorem groupByRealPath_keys_of (s : Rep) (l : List FakePath) :
    ∀ (d g : Dict RealPath (List FakePath)), l.foldlM (fun groups endPoint => do
        let realPath ← s.pathStore.getRealPath endPoint
        pure (groups.set realPath ((groups.get? realPath).getD [] ++ [endPoint]))) d = .ok g →
      ∀ k ∈ g.keys, k ∈ d.keys ∨ ∃ p ∈ l, s.pathStore.getRealPath p = .ok k := by
  induction l with
  | nil => intro d g h k hk; cases h; exact .inl hk
  | cons p l ih =>
    intro d g h k hk
    simp only [List.foldlM_cons] at h
    cases hp : s.pathStore.getRealPath p with
    | error e => simp [hp] at h; cases h
    | ok r =>
      simp only [hp] at h
      rcases ih _ g h k hk with hk | ⟨q, hq, hqk⟩
      · rcases (Dict.mem_keys_set_iff _ _ _ _).1 hk with rfl | hk
        · exact .inr ⟨p, List.mem_cons_self _ _, hp⟩
        · exact .inl hk
      · exact .inr ⟨q, List.mem_cons_of_mem _ hq, hqk⟩

/-- Every group is the real path of one of the end points. -/
theorem groupByRealPath_keys (s : Rep) (l : List FakePath) (g : Dict RealPath (List FakePath))
    (h : s.groupByRealPath l = .ok g) : ∀ k ∈ g.keys, ∃ p ∈ l, s.pathStore.getRealPath p = .ok k := by
  intro k hk
  simpa using groupByRealPath_keys_of s l Dict.empty g h k hk

/-- When writing the delta of the first real path raises, writing them all raises in the
state it started in. -/
theorem applyValuesByRealPath_first_error (v : Dict FakePath (Values × Values)) (realPath : RealPath)
    (endPoints : List FakePath) (rest : List (RealPath × List FakePath)) (s s' : Rep) (e : Error)
    (hfirst : errorOf (applyValuesByRealPath v [(realPath, endPoints)] s) ≠ none)
    (h : applyValuesByRealPath v ((realPath, endPoints) :: rest) s = .error e s') : s' = s := by
  simp only [applyValuesByRealPath, bind_apply, get_bind_run, liftExcept_bind_run] at h hfirst
  split at h
  · rename_i applyValues hdiff
    simp only [hdiff, tryCatch_apply, tryCatch_run, EStateM.bind] at h hfirst
    rcases hset : onMetaStore (MetaStore.set realPath applyValues) s with ⟨_, _⟩ | ⟨e', t⟩
    · simp [hset, errorOf] at hfirst
    · cases onMetaStore_set_error _ _ _ _ _ hset
      simp only [hset, ite_throw_apply] at h
      cases h; rfl
  · cases h; rfl

end Rep

/-! ## Renames on small source trees

Source trees under `/src` whose files have the tags of the meta store, mapped by `populate`
or by `add_directory` from a fresh representation with a lenient monitor and no cache. -/

def sourceStat : Stat := ⟨0o755, 0, 0, 0, 0, 0, 0, 1, 1, 1⟩

/-- The pattern `%name`. -/
def variablePattern (name : String) : SubstitutionPattern :=
  ⟨"%" ++ name, [.variableNode ("%" ++ name) none name]⟩

/-- The pattern `%a-%b`, whose text `x-y-z` splits two ways. -/
def dashPattern : SubstitutionPattern :=
  ⟨"%a-%b", [.variableNode "%a" none "a", .textNode "-", .variableNode "%b" none "b"]⟩

/-- A source tree with the files `files` directly below `/src`, all readable or none. -/
def flatTree (readable : Bool) (files : List RealPath) : SourceTree :=
  ⟨"/src", files.foldl (fun d f => d.set f (.file readable false sourceStat))
    (Dict.empty.set "/src" (.directory sourceStat))⟩

/-- A fresh representation of a source tree. -/
def freshRep (metaStore : MetaStore) (patterns : List SubstitutionPattern) (tree : SourceTree) : Rep :=
  { metaStore, substitutionPatterns := patterns, pathStore := .initial, sourceTree := tree,
    monitor := ⟨false, [], []⟩, cache := none, filters := [] }

def segXYZ : Seg := ⟨"x-y-z", by decide, by decide⟩
def segXYW : Seg := ⟨"x-y-w", by decide, by decide⟩
def segXYWNoDash : Seg := ⟨"xyw", by decide, by decide⟩

/-- `/src/f` tagged `a = x-y`, `b = z`, mapped to `/x-y-z` under `%a-%b`. -/
def dashRep : Rep :=
  stateOf (Rep.populate (freshRep ⟨Dict.empty.set "/src/f" ((Dict.empty.set "a" ["x-y"]).set "b" ["z"]), fun _ => []⟩
    [dashPattern] (flatTree true ["/src/f"])))

def segAX : Seg := ⟨"ax", by decide, by decide⟩
def segBX : Seg := ⟨"bx", by decide, by decide⟩
def seg1 : Seg := ⟨"1", by decide, by decide⟩
def segX : Seg := ⟨"x", by decide, by decide⟩
def segY : Seg := ⟨"y", by decide, by decide⟩

/-- The empty directory `/ax` made under the patterns `a%a`, `%b`. -/
def emptyDirectoryRep : Rep :=
  stateOf (Rep.addDirectory [segAX]
    (freshRep ⟨Dict.empty, fun _ => []⟩ [⟨"a%a", [.textNode "a", .variableNode "%a" none "a"]⟩, variablePattern "b"] (flatTree true [])))

/-- `/src/f` and `/src/g` tagged for `%a/%b`; `g` cannot store the key `a`. -/
def twoFileFreshRep : Rep :=
  freshRep
    ⟨(Dict.empty.set "/src/f" ((Dict.empty.set "a" ["x"]).set "b" ["1"])).set "/src/g"
      ((Dict.empty.set "a" ["x"]).set "b" ["2"]), fun p => if p = "/src/g" then ["a"] else []⟩
    [variablePattern "a", variablePattern "b"] (flatTree true ["/src/f", "/src/g"])

/-- `/src/f` and `/src/g` mapped to `/x/1` and `/x/2`. -/
def twoFileRep : Rep := stateOf (Rep.populate twoFileFreshRep)

/-- `/x-y-z` renamed to `/x-y-w` under `%a-%b`: the text `x-y-w` is the pattern's fill of
`a = x`, `b = y-w`, the rename returns, and no permutation of the new tags of `/src/f`
gives it, since `x-y-z` is read back as `a = x`, `b = y-z`. -/
theorem rename_of_ambiguous_segment_misses_new_text :
    dashPattern.fill ((Dict.empty.set "a" "x").set "b" "y-w") = .ok "x-y-w" ∧
      dashRep.pathStore.pathMapping.getRealPath [segXYZ] = some "/src/f" ∧
      errorOf (Rep.renamePath [segXYZ] [segXYW] dashRep) = none ∧
      ((stateOf (Rep.renamePath [segXYZ] [segXYW] dashRep)).metaStore.get "/src/f").iterPermutations.all
        (fun p => (dashRep.fillPath p).toOption ≠ some [segXYW]) := by
  refine ⟨rfl, by decide, by decide, by decide⟩

end PyTagsFs
