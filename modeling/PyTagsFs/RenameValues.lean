import PyTagsFs.ValuesDelta
import PyTagsFs.RenamePath
import PyTagsFs.PathStoreLemmas

/-! # A rename at a segment of one variable

`rename_path` at a segment whose pattern is one variable `%k`, when every end point under
the old path is a file carrying that pattern's splitter: the path store is left as it was,
every real path of an end point has one old value of `k` replaced by the new one, and every
other real path keeps its tags. Each permutation of the old tags then has a counterpart
among the new tags that fills the renamed segment to its new text and every pattern without
`k` as before. The proof follows the steps of `rename_path`: the values of each end point,
their grouping by real path, and one write per group. -/
namespace PyTagsFs

namespace Rep

/-- An end point whose splitter at the index is that of a single variable `k` reads the old
and the new segment back as the one value of `k`. -/
theorem endPointValues_of_single_group (s : Rep) {i : Nat} {o t : Seg} {e : FakePath} {m : MetaData}
    {S : Splitter} {k : String} (hm : s.pathStore.getMetaData e = .ok m) (hS : m.splitters.get? i = some S)
    (hn : S.nodes = [.group k]) (hg : S.groupNames = [k]) (ho : '\n' ∉ o.name.data) (ht : '\n' ∉ t.name.data) :
    s.endPointValues i o t e = .ok (Values.single k [o.name], Values.single k [t.name]) := by
  have hS' : m.splitters[i]? = some S := by simpa using hS
  simp [endPointValues, hm, hS', Splitter.split_of_single_group hn hg o.data_ne_nil ho,
    Splitter.split_of_single_group hn hg t.data_ne_nil ht, Values.fromFlatDict_single, bind, Except.bind,
    pure, Except.pure]

theorem valuesByEndPoint_of_const (s : Rep) (i : Nat) (o t : Seg) (c : Values × Values) :
    ∀ (l : List FakePath) (d : Dict FakePath (Values × Values)), (∀ e ∈ l, s.endPointValues i o t e = .ok c) →
      ∃ v, l.foldlM (fun d e => do pure (d.set e (← s.endPointValues i o t e))) d = .ok v ∧
        ∀ e, v.get? e = if e ∈ l then some c else d.get? e
  | [], d, _ => ⟨d, rfl, fun e => by simp⟩
  | e :: l, d, h => by
    obtain ⟨v, hv, hget⟩ := valuesByEndPoint_of_const s i o t c l (d.set e c) fun e' he' =>
      h e' (List.mem_cons_of_mem _ he')
    refine ⟨v, by simpa [h e (List.mem_cons_self _ _), bind, Except.bind, pure, Except.pure] using hv, fun e' => ?_⟩
    rw [hget, Dict.get?_set]
    by_cases he : e = e' <;> by_cases hl : e' ∈ l <;> simp [he, hl, eq_comm]

/-- Every end point gives the same old and new values. -/
theorem valuesByEndPoint_const (s : Rep) (i : Nat) (o t : Seg) (c : Values × Values) (l : List FakePath)
    (h : ∀ e ∈ l, s.endPointValues i o t e = .ok c) :
    ∃ v, s.valuesByEndPoint i o t l = .ok v ∧ ∀ e ∈ l, v.get? e = some c := by
  obtain ⟨v, hv, hget⟩ := valuesByEndPoint_of_const s i o t c l Dict.empty h
  exact ⟨v, hv, fun e he => by simp [hget, he]⟩

theorem groupByRealPath_groups_of (s : Rep) (A : List FakePath) :
    ∀ (l : List FakePath) (d g : Dict RealPath (List FakePath)), l.foldlM (fun groups endPoint => do
        let realPath ← s.pathStore.getRealPath endPoint
        pure (groups.set realPath ((groups.get? realPath).getD [] ++ [endPoint]))) d = .ok g →
      l ⊆ A → (∀ r X, d.get? r = some X → X ≠ [] ∧ X ⊆ A) →
      (∀ r X, g.get? r = some X → X ≠ [] ∧ X ⊆ A) ∧
        ∀ r, (d.get? r).isSome ∨ (∃ p ∈ l, s.pathStore.getRealPath p = .ok r) → (g.get? r).isSome
  | [], d, g, h, _, hd => by
    cases h
    exact ⟨hd, fun r hr => by simpa using hr⟩
  | p :: l, d, g, h, hl, hd => by
    simp only [List.foldlM_cons] at h
    cases hp : s.pathStore.getRealPath p with
    | error e => simp [hp] at h; cases h
    | ok r0 =>
      simp only [hp] at h
      have hd' : ∀ r X, (d.set r0 ((d.get? r0).getD [] ++ [p])).get? r = some X → X ≠ [] ∧ X ⊆ A := by
        intro r X hX
        rw [Dict.get?_set] at hX
        split_ifs at hX with hr
        · cases hX
          refine ⟨by simp, List.append_subset.2 ⟨?_, List.cons_subset.2 ⟨hl (List.mem_cons_self _ _), List.nil_subset _⟩⟩⟩
          cases hdr : d.get? r0 with
          | none => simp
          | some Y => simpa using (hd r0 Y hdr).2
        · exact hd r X hX
      obtain ⟨h1, h2⟩ := groupByRealPath_groups_of s A l _ g h (fun x hx => hl (List.mem_cons_of_mem _ hx)) hd'
      refine ⟨h1, fun r hr => h2 r ?_⟩
      rcases hr with hr | ⟨q, hq, hqr⟩
      · left; rw [Dict.get?_set]; split_ifs <;> simp [hr]
      · rcases List.mem_cons.1 hq with rfl | hq
        · left; rw [hp] at hqr; cases hqr; simp
        · exact .inr ⟨q, hq, hqr⟩

/-- Each group is a non-empty list of the end points, and every end point's real path has
a group. -/
theorem groupByRealPath_groups (s : Rep) (l : List FakePath) (g : Dict RealPath (List FakePath))
    (h : s.groupByRealPath l = .ok g) :
    (∀ r X, g.get? r = some X → X ≠ [] ∧ X ⊆ l) ∧
      ∀ p ∈ l, ∀ r, s.pathStore.getRealPath p = .ok r → (g.get? r).isSome := by
  obtain ⟨h1, h2⟩ := groupByRealPath_groups_of s l l Dict.empty g h (List.Subset.refl _) (by simp)
  exact ⟨h1, fun p hp r hr => h2 r (.inr ⟨p, hp, hr⟩)⟩

theorem applyValuesByRealPath_cons_ok (v : Dict FakePath (Values × Values)) (k o t : String) (hot : o ≠ t)
    (r : RealPath) (X : List FakePath) (rest : List (RealPath × List FakePath)) (s s' : Rep) (hX : X ≠ [])
    (hv : ∀ e ∈ X, v.get? e = some (Values.single k [o], Values.single k [t]))
    (h : applyValuesByRealPath v ((r, X) :: rest) s = .ok () s') :
    applyValuesByRealPath v rest { s with metaStore := { s.metaStore with
      values := s.metaStore.values.set r ((s.metaStore.get r).replaceValue k o t) } } = .ok () s' := by
  have hpick : ∀ f : Values × Values → Values, X.filterMap (fun e => (v.get? e).map f) =
      X.map fun _ => f (Values.single k [o], Values.single k [t]) := fun f => by
    rw [List.filterMap_congr fun e he => by rw [hv e he]]
    exact congrFun (List.filterMap_eq_map fun _ => f (Values.single k [o], Values.single k [t])) X
  obtain ⟨merged, hm, hitems⟩ := Values.diff3_single (s.metaStore.get r) k o t hot
  simp only [applyValuesByRealPath, bind_apply, get_bind_run, liftExcept_bind_run, hpick, Values.combine_copies _ _ X hX, hm] at h
  have hk : k ∉ s.metaStore.unsettableKeys r := by
    intro hk
    have : MetaStore.set r merged s.metaStore = .error (.unsettableKeyError k) s.metaStore := by
      simp [MetaStore.set, Dict.keys, hitems, hk]
    simp [onMetaStore, zoom_apply, this] at h
  have hset : MetaStore.set r merged s.metaStore = .ok () { s.metaStore with
      values := s.metaStore.values.set r ((s.metaStore.get r).replaceValue k o t) } := by
    simp [MetaStore.set, Dict.keys, hitems, hk, MetaStore.apply, Values.replaceValue]
  simpa [onMetaStore, zoom_apply, hset] using h

theorem applyValuesByRealPath_copies (v : Dict FakePath (Values × Values)) (k o t : String) (hot : o ≠ t) :
    ∀ (l : List (RealPath × List FakePath)) (s s' : Rep), (l.map Prod.fst).Nodup →
      (∀ rX ∈ l, rX.2 ≠ [] ∧ ∀ e ∈ rX.2, v.get? e = some (Values.single k [o], Values.single k [t])) →
      applyValuesByRealPath v l s = .ok () s' →
      s'.pathStore = s.pathStore ∧ ∀ r, s'.metaStore.get r =
        if r ∈ l.map Prod.fst then (s.metaStore.get r).replaceValue k o t else s.metaStore.get r
  | [], s, s', _, _, h => by cases h; simp
  | (r, X) :: rest, s, s', hnd, hl, h => by
    obtain ⟨hX, hv⟩ := hl (r, X) (List.mem_cons_self _ _)
    have hnd' := List.nodup_cons.1 hnd
    obtain ⟨hpath, hget⟩ := applyValuesByRealPath_copies v k o t hot rest _ s' hnd'.2
      (fun rX h => hl rX (List.mem_cons_of_mem _ h)) (applyValuesByRealPath_cons_ok v k o t hot r X rest s s' hX hv h)
    refine ⟨hpath, fun r' => ?_⟩
    rw [hget r']
    by_cases hr : r = r'
    · subst hr
      simp [hnd'.1, MetaStore.get]
    · by_cases hr' : r' ∈ rest.map Prod.fst <;> simp [hr, hr', MetaStore.get, Ne.symm hr]

/-- A rename at a segment whose pattern is the single variable `k`, over file end points
that carry that pattern's splitter: each real path under the old path gets one value `o` of
`k` replaced by `t`, and nothing else changes. -/
theorem renamePath_of_single_variable_segment (s s' : Rep) (old new : FakePath) (i : Nat) (o t : Seg)
    (P : SubstitutionPattern) (ex k : String) (E : List FakePath)
    (hfd : firstDifference old new 0 = some (i, o, t)) (hot : o ≠ t)
    (hP : P.childNodes = [.variableNode ex none k]) (hk : '>' ∉ k.toList) (ho : '\n' ∉ o.name.data)
    (ht : '\n' ∉ t.name.data)
    (hE : s.pathStore.getEndPoints old = .ok E)
    (hfiles : ∀ e ∈ E, (s.pathStore.pathMapping.getRealPath e).isSome ∧
      ∃ m S v, s.pathStore.getMetaData e = .ok m ∧ m.splitters.get? i = some S ∧ P.getSplitter v = .ok S)
    (hrun : renamePath old new s = .ok () s') :
    s'.pathStore = s.pathStore ∧
      (∀ r, (∀ e ∈ E, s.pathStore.pathMapping.getRealPath e ≠ some r) → s'.metaStore.get r = s.metaStore.get r) ∧
      ∀ e ∈ E, ∀ r, s.pathStore.pathMapping.getRealPath e = some r →
        s'.metaStore.get r = (s.metaStore.get r).replaceValue k o.name t.name ∧
        ∀ q ∈ (s.metaStore.get r).iterPermutations, ∃ p ∈ (s'.metaStore.get r).iterPermutations,
          P.fill p = .ok t.name ∧
          ∀ Q : SubstitutionPattern, k ∉ Node.variableNamesAll Q.childNodes → Q.fill p = Q.fill q := by
  unfold renamePath at hrun
  have h0 : ¬(old = [] ∨ new = []) := by
    rintro (rfl | rfl)
    · simp [firstDifference] at hfd
    · rcases old with _ | ⟨a, _ | ⟨b, l⟩⟩ <;> simp [firstDifference] at hfd
  have h1 : ¬old.length ≠ new.length := fun h1 => by simp [h0, h1] at hrun
  rw [if_neg h0, if_neg h1] at hrun
  have hfile : ∀ p ∈ E, s.pathStore.isFile p = true := fun p hp => by
    obtain ⟨r, hr⟩ := Option.isSome_iff_exists.1 (hfiles p hp).1
    simp [PyTypesPathStore.isFile, hr]
  have hdir : E.filter (fun p => !s.pathStore.isFile p) = [] :=
    List.filter_eq_nil_iff.2 (by simpa using hfile)
  simp only [hfd, hE, hdir, List.filter_eq_self.2 hfile, bind_apply, pure_apply, get_bind_run,
    liftExcept_bind_run, pure_bind_run, moveDirectoryEndPoints, List.forM_nil'] at hrun
  have hc : ∀ e ∈ E, s.endPointValues i o t e = .ok (Values.single k [o.name], Values.single k [t.name]) :=
    fun e he => by
      obtain ⟨-, m, S, v, hm, hS, hsp⟩ := hfiles e he
      obtain ⟨hn, hg⟩ := SubstitutionPattern.getSplitter_of_single_variable hP hk hsp
      exact endPointValues_of_single_group s hm hS hn hg ho ht
  obtain ⟨v, hV, hv⟩ := valuesByEndPoint_const s i o t _ E hc
  rcases hg : s.groupByRealPath E with e' | g
  · simp [hV, hg] at hrun
  simp only [hV, hg] at hrun
  obtain ⟨hgroups, hcover⟩ := groupByRealPath_groups s E g hg
  have hot' : o.name ≠ t.name := fun h => hot (by cases o; cases t; simp only at h; subst h; rfl)
  obtain ⟨hpath, hget⟩ := applyValuesByRealPath_copies v k o.name t.name hot' g.items s s' g.nodup
    (fun ⟨r, X⟩ hrX => by
      obtain ⟨hX, hsub⟩ := hgroups r X (Dict.get?_of_mem_items g hrX)
      exact ⟨hX, fun e he => hv e (hsub he)⟩) hrun
  have hreal : ∀ e r, s.pathStore.pathMapping.getRealPath e = some r → s.pathStore.getRealPath e = .ok r :=
    fun e r h => by simp [PyTypesPathStore.getRealPath, h, pure, Except.pure]
  refine ⟨hpath, fun r hr => ?_, fun e he r hr => ?_⟩
  · have hrg : r ∉ g.keys := fun hrg => by
      obtain ⟨p, hp, hpr⟩ := groupByRealPath_keys s E g hg r hrg
      cases hpm : s.pathStore.pathMapping.getRealPath p with
      | none => simp [PyTypesPathStore.getRealPath, hpm] at hpr; split_ifs at hpr
      | some r' =>
        rw [hreal p r' hpm] at hpr
        cases hpr
        exact hr p hp hpm
    rw [hget r]
    exact if_neg hrg
  · have hrg : r ∈ g.keys := (Dict.mem_keys_iff g r).2 (hcover e he r (hreal e r hr))
    have hB : s'.metaStore.get r = (s.metaStore.get r).replaceValue k o.name t.name := by
      rw [hget r]
      exact if_pos hrg
    refine ⟨hB, fun q hq => ?_⟩
    rw [hB]
    exact Values.exists_permutation_of_replaceValue _ k o.name t.name hP hq

end Rep

def seg3 : Seg := ⟨"3", by decide, by decide⟩

/-- `/x/1` renamed to `/x/3` under `%a/%b`: `/src/f` has its `b = 1` replaced by `3`. -/
theorem two_file_rename_replaces_value :
    errorOf (Rep.renamePath [segX, seg1] [segX, seg3] twoFileRep) = none ∧
      (stateOf (Rep.renamePath [segX, seg1] [segX, seg3] twoFileRep)).metaStore.get "/src/f" =
        (twoFileRep.metaStore.get "/src/f").replaceValue "b" "1" "3" := by
  have herr : errorOf (Rep.renamePath [segX, seg1] [segX, seg3] twoFileRep) = none := by decide
  have hrun : Rep.renamePath [segX, seg1] [segX, seg3] twoFileRep =
      .ok () (stateOf (Rep.renamePath [segX, seg1] [segX, seg3] twoFileRep)) := by
    rcases h : Rep.renamePath [segX, seg1] [segX, seg3] twoFileRep with ⟨⟨⟩, s'⟩ | ⟨e, s'⟩
    · rfl
    · rw [h] at herr; cases herr
  have hfiles : ∀ e ∈ [[segX, seg1]], (twoFileRep.pathStore.pathMapping.getRealPath e).isSome ∧
      ∃ m S v, twoFileRep.pathStore.getMetaData e = .ok m ∧ m.splitters.get? 1 = some S ∧
        (variablePattern "b").getSplitter v = .ok S := fun e he => by
    rw [List.mem_singleton] at he
    subst he
    exact ⟨by decide, _, _, Dict.empty, rfl, rfl, rfl⟩
  exact ⟨herr, ((Rep.renamePath_of_single_variable_segment twoFileRep _ [segX, seg1] [segX, seg3] 1 seg1 seg3
    (variablePattern "b") "%b" "b" [[segX, seg1]] rfl (by decide) rfl (by decide) (by decide) (by decide) rfl hfiles
    hrun).2.2 [segX, seg1] (List.mem_singleton_self _) "/src/f" (by decide)).1⟩

end PyTagsFs
