import PyTagsFs.Stratified
import PyTagsFs.RenamePath

/-! # Depth stratification over every run of the orchestrator

`Preserves P x` says that `x` keeps the path store stratified under the patterns `P`,
whether it returns or raises. Combinators for `bind`, `tryCatch`, `forM` and the join
points of `do` blocks carry it through each orchestrator function; the path-store calls
are covered by `PyTypesPathStore.Stratified`, with `add_file` and `add_directory` always
followed by `_set_splitters`. Every state reachable from a fresh representation is then
stratified; `/` is the one end point without metadata. -/
namespace PyTagsFs

theorem mapM_length {γ δ ε : Type} {g : γ → Except ε δ} :
    ∀ {l : List γ} {l' : List δ}, l.mapM g = .ok l' → l'.length = l.length
  | [], l', h => by
    simp only [List.mapM_nil, pure, Except.pure, Except.ok.injEq] at h; subst h; rfl
  | a :: l, l', h => by
    simp only [List.mapM_cons, bind, Except.bind] at h
    split at h
    · cases h
    · split at h
      · cases h
      · next l'' hl => cases h; simp [mapM_length hl]

namespace Rep

theorem fillPath_length {s : Rep} {subs : Substitutions} {f : FakePath} (h : s.fillPath subs = .ok f) :
    f.length = s.substitutionPatterns.length :=
  mapM_length h

theorem createSplitters_length {s : Rep} {f : FakePath} {v : Substitutions} {S : List Splitter}
    (h : s.createSplitters f v = .ok S) : S.length = min f.length s.substitutionPatterns.length := by
  rw [mapM_length h, List.length_take]

/-- The depth invariant of a representation: its patterns are `P`, and its path store is
stratified by their number. -/
structure Stratified (P : List SubstitutionPattern) (s : Rep) : Prop where
  patterns : s.substitutionPatterns = P
  store : s.pathStore.Stratified P.length

/-- `x` keeps `Stratified P`, whether it returns or raises. -/
def Preserves (P : List SubstitutionPattern) {α : Type} (x : M α) : Prop :=
  ∀ s, Stratified P s → Stratified P (stateOf (x s))

namespace Preserves
variable {P : List SubstitutionPattern} {α β : Type}

theorem bind {x : M α} {f : α → M β} (hx : Preserves P x) (hf : ∀ a, Preserves P (f a)) :
    Preserves P (x >>= f) := fun s hs => by
  cases hxs : x s with
  | ok a s' => rw [PyTypesPathStore.bind_of_ok hxs]; exact hf a s' (by simpa [hxs] using hx s hs)
  | error e s' => rw [PyTypesPathStore.bind_of_error hxs]; simpa [hxs] using hx s hs

/-- A computation that leaves the path store and the patterns alone. -/
theorem of_frame {x : M α}
    (h : ∀ s, (stateOf (x s)).pathStore = s.pathStore ∧ (stateOf (x s)).substitutionPatterns = s.substitutionPatterns) :
    Preserves P x := fun s hs => ⟨(h s).2.trans hs.patterns, (h s).1 ▸ hs.store⟩

theorem pure (a : α) : Preserves P (Pure.pure a : M α) := of_frame fun _ => ⟨rfl, rfl⟩

theorem throw (e : Error) : Preserves P (MonadExcept.throw e : M α) := of_frame fun _ => ⟨rfl, rfl⟩

theorem liftExcept (e : Except Error α) : Preserves P (PyTagsFs.liftExcept e : M α) := by
  cases e <;> exact of_frame fun _ => ⟨rfl, rfl⟩

theorem ite {c : Prop} [Decidable c] {x y : M α} (hx : c → Preserves P x) (hy : ¬ c → Preserves P y) :
    Preserves P (if c then x else y) := by
  split
  · exact hx ‹_›
  · exact hy ‹_›

theorem throw_bind (e : Error) {f : α → M β} : Preserves P (MonadExcept.throw e >>= f) := fun _ hs => hs

theorem get_bind {f : Rep → M α} (h : ∀ s, s.substitutionPatterns = P → Preserves P (f s)) :
    Preserves P (get >>= f) := fun s hs => h s hs.patterns s hs

theorem liftExcept_bind {e : Except Error α} {f : α → M β} (h : ∀ a, e = .ok a → Preserves P (f a)) :
    Preserves P (PyTagsFs.liftExcept e >>= f) := fun s hs => by
  cases e with
  | error e' => simpa using hs
  | ok a => simpa using h a rfl s hs

theorem tryCatch {x : M α} {h : Error → M α} (hx : Preserves P x) (hh : ∀ e, Preserves P (h e)) :
    Preserves P (tryCatch x h) := fun s hs => by
  simp only [tryCatch_apply, tryCatch_run]
  cases hxs : x s with
  | ok a s' => simpa [hxs] using hx s hs
  | error e s' => exact hh e s' (by simpa [hxs] using hx s hs)

theorem forM {γ : Type} {l : List γ} {f : γ → M PUnit} (h : ∀ b ∈ l, Preserves P (f b)) :
    Preserves P (l.forM f) := by
  induction l with
  | nil => exact pure _
  | cons b l ih =>
    show Preserves P (f b >>= fun _ => l.forM f)
    exact bind (h b (List.mem_cons_self _ _)) fun _ => ih fun b' hb' => h b' (List.mem_cons_of_mem _ hb')

theorem onPathStore {x : EStateM Error (PyTypesPathStore MetaData) α}
    (hx : ∀ ps, ps.Stratified P.length → (stateOf (x ps)).Stratified P.length) : Preserves P (onPathStore x) :=
  fun s hs => by
    have := hx s.pathStore hs.store
    simp only [Rep.onPathStore, zoom_apply]
    split <;> next h => rw [h] at this; exact ⟨hs.patterns, this⟩

/-- A path-store call followed by a second one keeps the invariant when the pair does. -/
theorem onPathStore_seq {a b : EStateM Error (PyTypesPathStore MetaData) PUnit} {k : PUnit → M β}
    (hab : ∀ ps, ps.Stratified P.length → (stateOf ((a >>= fun _ => b) ps)).Stratified P.length)
    (hk : ∀ u, Preserves P (k u)) : Preserves P (Rep.onPathStore a >>= fun _ => Rep.onPathStore b >>= k) :=
  fun s hs => by
    have := hab s.pathStore hs.store
    cases ha : a s.pathStore with
    | error e ps' =>
      rw [PyTypesPathStore.bind_of_error ha] at this
      simp only [bind_apply, EStateM.bind, Rep.onPathStore, zoom_apply, ha]
      exact ⟨hs.patterns, this⟩
    | ok u ps' =>
      rw [PyTypesPathStore.bind_of_ok ha] at this
      cases hb : b ps' with
      | error e ps'' =>
        rw [hb] at this
        simp only [bind_apply, EStateM.bind, Rep.onPathStore, zoom_apply, ha, hb]
        exact ⟨hs.patterns, this⟩
      | ok v ps'' =>
        rw [hb] at this
        simp only [bind_apply, EStateM.bind, Rep.onPathStore, zoom_apply, ha, hb]
        exact hk v _ ⟨hs.patterns, this⟩

theorem onMetaStore {x : EStateM Error MetaStore α} : Preserves P (Rep.onMetaStore x) :=
  of_frame fun s => by simp only [Rep.onMetaStore, zoom_apply]; split <;> exact ⟨rfl, rfl⟩

theorem onMonitor {x : EStateM Error Monitor α} : Preserves P (Rep.onMonitor x) :=
  of_frame fun s => by simp only [Rep.onMonitor, zoom_apply]; split <;> exact ⟨rfl, rfl⟩

theorem onSourceTree {x : EStateM Error SourceTree α} : Preserves P (Rep.onSourceTree x) :=
  of_frame fun s => by simp only [Rep.onSourceTree, zoom_apply]; split <;> exact ⟨rfl, rfl⟩

theorem cachePut (f : FakePath) (key : CacheKey) (value : CacheValue) : Preserves P (Rep.cachePut f key value) :=
  of_frame fun _ => ⟨rfl, rfl⟩

theorem cachePruneBranchTo (f : FakePath) (key : Option CacheKey) : Preserves P (Rep.cachePruneBranchTo f key) :=
  of_frame fun _ => ⟨rfl, rfl⟩

theorem tryMonitor (call : EStateM Error Monitor Unit) (errors : Error → Bool) :
    Preserves P (Rep.tryMonitor call errors) :=
  tryCatch (bind onMonitor fun _ => pure _) fun _ => ite (fun _ => pure _) fun _ => throw _

end Preserves

section Operations
variable {P : List SubstitutionPattern}

theorem removeDirectory_preserves (f : FakePath) : Preserves P (removeDirectory f) :=
  .bind (.onPathStore fun _ h => h.remove f none) fun _ => .cachePruneBranchTo f none

theorem addDirectory_preserves (f : FakePath) : Preserves P (addDirectory f) := by
  unfold addDirectory
  refine .ite (fun _ => .throw_bind _) fun _ => .bind (.pure _) fun _ => .get_bind fun s hP => ?_
  refine .ite (fun _ => .throw_bind _) fun hlen => .bind (.pure _) fun _ => .liftExcept_bind fun S hS => ?_
  have hlt : f.length < P.length := by rw [← hP]; omega
  have hSlen : S.length = f.length := by rw [createSplitters_length hS, hP]; omega
  split
  · split
    · split
      · exact .ite (fun _ => .throw_bind _) fun _ => .throw_bind _
      · exact .bind (.pure _) fun _ => .onPathStore_seq (fun _ h => h.addDirectory_setMetaData hlt hSlen)
          fun _ => .cachePruneBranchTo f none
    · exact .throw _
  · exact .throw _

theorem isDir_preserves (f : FakePath) : Preserves P (isDir f) := .of_frame fun _ => ⟨rfl, rfl⟩

theorem isFile_preserves (f : FakePath) : Preserves P (isFile f) := .of_frame fun _ => ⟨rfl, rfl⟩

theorem getRealPath_preserves (f : FakePath) : Preserves P (getRealPath f) :=
  .get_bind fun _ _ => .liftExcept _

theorem getEntries_preserves (f : FakePath) : Preserves P (getEntries f) := by
  unfold getEntries
  refine .get_bind fun s _ => ?_
  split
  · exact .pure _
  · exact .get_bind fun _ _ => .liftExcept_bind fun _ _ => .bind (.cachePut _ _ _) fun _ => .pure _

theorem isEmptyDir_preserves (f : FakePath) : Preserves P (isEmptyDir f) :=
  .bind (isDir_preserves f) fun _ =>
    .ite (fun _ => .bind (getEntries_preserves f) fun _ => .pure _) fun _ => .pure _

theorem addDirectoryWithParents_preserves (f : FakePath) : Preserves P (addDirectoryWithParents f) := by
  unfold addDirectoryWithParents
  exact .ite (fun _ => .throw_bind _) fun _ => .bind (.pure _) fun _ => .forM fun path _ =>
    .bind (isDir_preserves path) fun _ => .ite (fun _ => addDirectory_preserves path) fun _ => .pure _

theorem moveDirectoryEndPoints_preserves (index : Nat) (newPathPart : Seg) (endPoints : List FakePath) :
    Preserves P (moveDirectoryEndPoints index newPathPart endPoints) :=
  .forM fun e _ => .bind (removeDirectory_preserves e) fun _ => addDirectoryWithParents_preserves _

theorem applyValuesByRealPath_preserves (v : Dict FakePath (Values × Values)) :
    ∀ groups, Preserves P (applyValuesByRealPath v groups)
  | [] => .pure _
  | (_, _) :: rest => .get_bind fun _ _ => .liftExcept_bind fun _ _ =>
      .bind (.tryCatch .onMetaStore fun _ => .ite (fun _ => .throw _) fun _ => .throw _) fun _ =>
        applyValuesByRealPath_preserves v rest

theorem renamePath_preserves (old new : FakePath) : Preserves P (renamePath old new) := by
  unfold renamePath
  refine .ite (fun _ => .throw_bind _) fun _ => .bind (.pure _) fun _ => ?_
  refine .ite (fun _ => .throw_bind _) fun _ => .bind (.pure _) fun _ => ?_
  split
  · exact .get_bind fun _ _ => .liftExcept_bind fun _ _ => .get_bind fun _ _ =>
      .bind (moveDirectoryEndPoints_preserves _ _ _) fun _ => .get_bind fun _ _ =>
        .liftExcept_bind fun _ _ => .liftExcept_bind fun _ _ => applyValuesByRealPath_preserves _ _
  · exact .throw _

theorem utimeWithFuel_preserves : ∀ fuel (f : FakePath) (times : Nat × Nat), Preserves P (utimeWithFuel fuel f times)
  | 0, _, _ => .pure _
  | fuel + 1, f, times => by
    unfold utimeWithFuel
    exact .bind (isFile_preserves f) fun _ => .ite
      (fun _ => .bind (getRealPath_preserves f) fun _ => .bind .onSourceTree fun _ => .cachePruneBranchTo _ _)
      fun _ => .bind (isEmptyDir_preserves f) fun _ => .ite (fun _ => .get_bind fun _ _ => .onSourceTree)
        fun _ => .get_bind fun _ _ => .liftExcept_bind fun _ _ => .forM fun e _ => utimeWithFuel_preserves fuel e times

theorem utime_preserves (f : FakePath) (times : Nat × Nat) : Preserves P (utime f times) :=
  utimeWithFuel_preserves 2 f times

theorem removeSourceFile_preserves (r : RealPath) : Preserves P (removeSourceFile r) := by
  unfold removeSourceFile
  refine .get_bind fun _ _ => ?_
  split
  · exact .ite (fun _ => .pure _) fun _ => .throw _
  · exact .bind (.forM fun f _ => .bind (.tryCatch (.onPathStore fun _ h => h.remove f (some r))
      fun _ => .ite (fun _ => .pure _) fun _ => .throw _) fun _ => .cachePruneBranchTo f none) fun _ =>
        .bind (.tryMonitor _ _) fun _ => .pure _

/-- Every fake path collected from the permutations is as deep as the patterns, with one
splitter per pattern. -/
theorem collectFakePaths_depth (s : Rep) :
    ∀ (acc : List (FakePath × List Splitter)) (perms : List Substitutions) (out : List (FakePath × List Splitter)),
      s.collectFakePaths acc perms = .ok (some out) →
      (∀ p ∈ acc, p.1.length = s.substitutionPatterns.length ∧ p.2.length = s.substitutionPatterns.length) →
      ∀ p ∈ out, p.1.length = s.substitutionPatterns.length ∧ p.2.length = s.substitutionPatterns.length
  | acc, [], out, h, hacc => by
    simp only [collectFakePaths, pure, Except.pure, Except.ok.injEq, Option.some.injEq] at h
    exact h ▸ hacc
  | acc, subs :: rest, out, h, hacc => by
    unfold collectFakePaths at h
    split at h
    · simp [pure, Except.pure] at h
    · cases h
    · next f hf =>
      split at h
      · exact collectFakePaths_depth s acc rest out h hacc
      · simp only [bind, Except.bind] at h
        split at h
        · cases h
        · next S hS =>
          refine collectFakePaths_depth s _ rest out h fun p hp => ?_
          rcases List.mem_append.1 hp with hp | hp
          · exact hacc p hp
          · rw [List.mem_singleton.1 hp]
            have hfl := fillPath_length hf
            exact ⟨hfl, by rw [createSplitters_length hS, hfl, min_self]⟩

theorem registerFakePaths_preserves (r : RealPath) :
    ∀ l : List (FakePath × List Splitter), (∀ p ∈ l, p.1.length = P.length ∧ p.2.length = P.length) →
      Preserves P (registerFakePaths r l)
  | [], _ => .pure _
  | (f, S) :: rest, hl => by
    rw [registerFakePaths]
    have hf := hl (f, S) (List.mem_cons_self _ _)
    exact .get_bind fun _ _ => .ite (fun _ => .pure _) fun _ => .bind (.pure _) fun _ =>
      .bind (.tryMonitor _ _) fun _ => .ite (fun _ => .pure _) fun _ => .bind (.pure _) fun _ =>
        .onPathStore_seq (fun _ h => h.addFile_setMetaData hf.1 r hf.2) fun _ =>
          .bind (.cachePruneBranchTo _ _) fun _ =>
            registerFakePaths_preserves r rest fun p hp => hl p (List.mem_cons_of_mem _ hp)

theorem addSourceFile_preserves (r : RealPath) : Preserves P (addSourceFile r) := by
  unfold addSourceFile
  refine .get_bind fun _ _ => .ite (fun _ => .pure _) fun _ => .bind (.pure _) fun _ =>
    .ite (fun _ => .pure _) fun _ => .bind (.pure _) fun _ => ?_
  refine .bind (.tryCatch (removeSourceFile_preserves r) fun _ => .ite (fun _ => .pure _) fun _ => .throw _) fun _ =>
    .get_bind fun s hP => .liftExcept_bind fun res hres => ?_
  split
  · next collected =>
    have hc := collectFakePaths_depth s [] _ collected hres (by simp)
    rw [hP] at hc
    refine registerFakePaths_preserves r _ fun p hp => hc p ?_
    split at hp
    · exact (List.mem_filter.1 hp).1
    · exact hp
  · exact .pure _

theorem removeSourceDir_preserves (r : RealPath) : Preserves P (removeSourceDir r) :=
  .get_bind fun _ _ => .liftExcept_bind fun _ _ => .bind (.forM fun r' _ => removeSourceFile_preserves r') fun _ =>
    .bind (.tryMonitor _ _) fun _ => .pure _

theorem addSourceDirWithFuel_preserves : ∀ fuel (r : RealPath), Preserves P (addSourceDirWithFuel fuel r)
  | 0, _ => .pure _
  | fuel + 1, r => by
    unfold addSourceDirWithFuel
    exact .bind (.tryCatch (removeSourceDir_preserves r) fun _ => .ite (fun _ => .pure _) fun _ => .throw _) fun _ =>
      .bind (.tryMonitor _ _) fun _ => .ite (fun _ => .pure _) fun _ => .bind (.pure _) fun _ =>
        .get_bind fun _ _ => .forM fun ⟨_, path⟩ _ =>
          .ite (fun _ => addSourceDirWithFuel_preserves fuel path) fun _ => addSourceFile_preserves path

theorem addSourceDir_preserves (r : RealPath) : Preserves P (addSourceDir r) :=
  .get_bind fun _ _ => addSourceDirWithFuel_preserves _ r

theorem addCb_preserves (p : RealPath) (isDir : Option Bool) : Preserves P (addCb p isDir) := by
  unfold addCb
  split
  · exact .bind (addSourceFile_preserves _) fun _ => addSourceDir_preserves _
  · exact addSourceDir_preserves _
  · exact addSourceFile_preserves _

theorem removeCb_preserves (p : RealPath) (isDir : Option Bool) : Preserves P (removeCb p isDir) := by
  unfold removeCb
  split
  · exact .bind (removeSourceFile_preserves _) fun _ => removeSourceDir_preserves _
  · exact removeSourceDir_preserves _
  · exact removeSourceFile_preserves _

theorem updateCb_preserves (p : RealPath) (isDir : Option Bool) : Preserves P (updateCb p isDir) := by
  unfold updateCb
  split
  · exact addSourceFile_preserves _
  · exact .pure _
  · exact addSourceFile_preserves _

end Operations

/-- The calls the file system and the monitor make on a representation, and changes of the
source tree and its tags behind its back. -/
inductive Op where
  | addSourceFile (realPath : RealPath)
  | removeSourceFile (realPath : RealPath)
  | updateSourceFile (realPath : RealPath)
  | addSourceDir (realPath : RealPath)
  | removeSourceDir (realPath : RealPath)
  | addCb (eventPath : RealPath) (isDir : Option Bool)
  | removeCb (eventPath : RealPath) (isDir : Option Bool)
  | updateCb (eventPath : RealPath) (isDir : Option Bool)
  | addDirectory (fakePath : FakePath)
  | removeDirectory (fakePath : FakePath)
  | renamePath (oldFakePath newFakePath : FakePath)
  | utime (fakePath : FakePath) (times : Nat × Nat)
  | environment (sourceTree : SourceTree) (metaStore : MetaStore)

def Op.run : Op → M Unit
  | .addSourceFile r => Rep.addSourceFile r
  | .removeSourceFile r => Rep.removeSourceFile r
  | .updateSourceFile r => Rep.updateSourceFile r
  | .addSourceDir r => Rep.addSourceDir r
  | .removeSourceDir r => Rep.removeSourceDir r
  | .addCb p d => Rep.addCb p d
  | .removeCb p d => Rep.removeCb p d
  | .updateCb p d => Rep.updateCb p d
  | .addDirectory f => Rep.addDirectory f
  | .removeDirectory f => Rep.removeDirectory f
  | .renamePath f g => Rep.renamePath f g
  | .utime f t => Rep.utime f t
  | .environment t m => modify fun s => { s with sourceTree := t, metaStore := m }

/-- The states reachable from a fresh representation, each call returning or raising. -/
inductive Reachable : Rep → Prop where
  | fresh (s : Rep) : s.pathStore = PyTypesPathStore.initial → Reachable s
  | step {s : Rep} (op : Op) : Reachable s → Reachable (stateOf (op.run s))

theorem Op.run_preserves {P : List SubstitutionPattern} : ∀ op : Op, Preserves P op.run
  | .addSourceFile r | .updateSourceFile r => addSourceFile_preserves r
  | .removeSourceFile r => removeSourceFile_preserves r
  | .addSourceDir r => addSourceDir_preserves r
  | .removeSourceDir r => removeSourceDir_preserves r
  | .addCb p d => addCb_preserves p d
  | .removeCb p d => removeCb_preserves p d
  | .updateCb p d => updateCb_preserves p d
  | .addDirectory f => addDirectory_preserves f
  | .removeDirectory f => removeDirectory_preserves f
  | .renamePath f g => renamePath_preserves f g
  | .utime f t => utime_preserves f t
  | .environment _ _ => .of_frame fun _ => ⟨rfl, rfl⟩

theorem Reachable.stratified {s : Rep} (h : Reachable s) : Stratified s.substitutionPatterns s := by
  induction h with
  | fresh s hs => exact ⟨rfl, hs ▸ PyTypesPathStore.initial_stratified _⟩
  | step op _ ih =>
    have h' := op.run_preserves _ ih
    rw [← h'.patterns] at h'
    exact h'

/-- In every reachable state, under `N` patterns: files are `N` segments deep, directories
other than `/` between one and `N - 1`, nothing is both, nothing lies below a file, and
every end point other than `/` has metadata with one splitter per segment. -/
theorem reachable_depth_stratification {s : Rep} (h : Reachable s) :
    (∀ f, s.pathStore.isFile f = true → f.length = s.substitutionPatterns.length) ∧
    (∀ d, s.pathStore.isDir d = true → d ≠ [] → 1 ≤ d.length ∧ d.length < s.substitutionPatterns.length) ∧
    (∀ f, ¬ (s.pathStore.isFile f = true ∧ s.pathStore.isDir f = true)) ∧
    (∀ a g, s.pathStore.isFile a = true → a <+: g → a ≠ g →
      s.pathStore.isFile g = false ∧ s.pathStore.isDir g = false) ∧
    (∀ e, e ≠ [] → s.pathStore.isFile e = true ∨ s.pathStore.isEmptyDir e = true →
      ∃ m, s.pathStore.getMetaData e = .ok m ∧ m.splitters.length = e.length) := by
  have hs := h.stratified.store
  refine ⟨hs.file_depth, fun d hd hd0 => ⟨List.length_pos.2 hd0, hs.dir_depth d hd hd0⟩,
    fun f ⟨hf, hd⟩ => by simp [hs.inv.file_not_dir f hf] at hd, fun a g ha hag hne => ?_,
    fun e he0 hend => hs.getMetaData_of_endPoint he0 hend⟩
  have hlen : a.length < g.length :=
    lt_of_le_of_ne hag.length_le fun e => hne (hag.eq_of_length e)
  have hfa := hs.file_depth a ha
  constructor
  · cases hg : s.pathStore.isFile g
    · rfl
    · have := hs.file_depth g hg; omega
  · cases hg : s.pathStore.isDir g
    · rfl
    · have := hs.dir_depth g hg (by rintro rfl; simp at hlen); omega

end Rep

/-- A fresh representation under `%a` with nothing in its source tree. -/
def emptyRep : Rep := freshRep ⟨Dict.empty, fun _ => []⟩ [variablePattern "a"] (flatTree true [])

/-- In a fresh representation `/` is the only end point, at depth zero, and it has no
metadata: `get_meta_data('/')` raises. -/
theorem fresh_root_end_point_has_no_metadata :
    Rep.Reachable emptyRep ∧ (emptyRep.pathStore.getEndPoints []).toOption = some [[]] ∧
      (emptyRep.pathStore.getMetaData []).toBool = false :=
  ⟨.fresh _ rfl, by decide, by decide⟩

/-- The two-file representation, reached by `populate`, is stratified under `%a/%b`. -/
theorem two_file_rep_is_stratified :
    Rep.Reachable twoFileRep ∧
    (∀ f, twoFileRep.pathStore.isFile f = true → f.length = twoFileRep.substitutionPatterns.length) ∧
    (∀ d, twoFileRep.pathStore.isDir d = true → d ≠ [] →
      1 ≤ d.length ∧ d.length < twoFileRep.substitutionPatterns.length) ∧
    (∀ f, ¬ (twoFileRep.pathStore.isFile f = true ∧ twoFileRep.pathStore.isDir f = true)) ∧
    (∀ a g, twoFileRep.pathStore.isFile a = true → a <+: g → a ≠ g →
      twoFileRep.pathStore.isFile g = false ∧ twoFileRep.pathStore.isDir g = false) ∧
    (∀ e, e ≠ [] → twoFileRep.pathStore.isFile e = true ∨ twoFileRep.pathStore.isEmptyDir e = true →
      ∃ m, twoFileRep.pathStore.getMetaData e = .ok m ∧ m.splitters.length = e.length) :=
  have h : Rep.Reachable twoFileRep := .step (.addSourceDir "/src") (.fresh twoFileFreshRep rfl)
  ⟨h, Rep.reachable_depth_stratification h⟩

/-! ## Mappings an update keeps

`add_source_file` returns on an unreadable file before it removes the file's mappings, and
it asks the monitor to watch a file once per fake path. -/

/-- The `(fake path, real path)` pairs of the path store, stacked paths included. -/
def Rep.mappings (s : Rep) : List (FakePath × RealPath) :=
  s.pathStore.pathMapping.forwardMapping.items.flatMap fun (f, rs) => rs.map (f, ·)

theorem Rep.addSourceFile_of_not_readable (s : Rep) (realPath : RealPath)
    (h : s.sourceTree.isreadable realPath = false) : Rep.addSourceFile realPath s = .ok () s := by
  simp [Rep.addSourceFile, h]

/-- The update callback of a file that cannot be read changes nothing. -/
theorem Rep.updateCb_of_not_readable (s : Rep) (eventPath : RealPath)
    (h : s.sourceTree.isreadable (Rep.stripSeparators eventPath) = false) :
    Rep.updateCb eventPath (some false) s = .ok () s :=
  Rep.addSourceFile_of_not_readable s _ h

/-- `/src/f` tagged `a = x`, mapped to `/x` under `%a`. -/
def oneFileMetaStore : MetaStore := ⟨Dict.empty.set "/src/f" (Dict.empty.set "a" ["x"]), fun _ => []⟩

def oneFileRep : Rep :=
  stateOf (Rep.populate (freshRep oneFileMetaStore [variablePattern "a"] (flatTree true ["/src/f"])))

/-- `/src/f` loses its read permission and the monitor reports the change: the mapping
`/x` stays, and a fresh scan of the same tree maps nothing. -/
theorem update_of_unreadable_file_keeps_its_mapping :
    (stateOf (Rep.updateCb "/src/f" (some false)
        { oneFileRep with sourceTree := flatTree false ["/src/f"] })).mappings = [([segX], "/src/f")] ∧
      (stateOf (Rep.populate (freshRep oneFileMetaStore [variablePattern "a"]
        (flatTree false ["/src/f"])))).mappings = [] := by
  rw [Rep.updateCb_of_not_readable _ _ (by decide), stateOf_ok]
  exact ⟨by decide, by decide⟩

/-- `/src/f` tagged `a = x` and `a = y`, under `%a`, with a monitor that is strict or not. -/
def twoValueRep (strict : Bool) : Rep :=
  { freshRep ⟨Dict.empty.set "/src/f" (Dict.empty.set "a" ["x", "y"]), fun _ => []⟩ [variablePattern "a"]
      (flatTree true ["/src/f"]) with monitor := ⟨strict, [], []⟩ }

/-- With a lenient monitor `add_source_file` maps `/src/f` to `/x` and `/y`; with a monitor
that raises `WatchExistsError` for a watched file it maps `/x` only, and returns normally. -/
theorem add_source_file_under_strict_monitor_maps_one_path :
    ((stateOf (Rep.addSourceFile "/src/f" (twoValueRep false))).pathStore.getFakePaths "/src/f").toOption =
        some [[segX], [segY]] ∧
      errorOf (Rep.addSourceFile "/src/f" (twoValueRep true)) = none ∧
      ((stateOf (Rep.addSourceFile "/src/f" (twoValueRep true))).pathStore.getFakePaths "/src/f").toOption =
        some [[segX]] := by
  decide

end PyTagsFs
