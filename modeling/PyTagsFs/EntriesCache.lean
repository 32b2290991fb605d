import PyTagsFs.Reachable
import PyTagsFs.RenameInPlace

/-! # The entries cache

Every change of the path store is followed by `_cache_prune_branch_to` on the path it was
made at. A change at `f` lists nothing differently off `f` and its ancestors
(`EntriesFrame`), so no listing the cache holds is stale (`Rep.Coherent`), and on every
run `get_entries` returns what it would with `--nocache`. -/

namespace PyTagsFs

namespace PyTypesPathStore
variable {μ α : Type} {s s' s'' : PyTypesPathStore μ} {f q : FakePath}

/-- `s'` lists every path other than `f` and its ancestors as `s` does. -/
def EntriesFrame (f : FakePath) (s s' : PyTypesPathStore μ) : Prop :=
  ∀ q, ¬ q <+: f → s'.getEntries q = s.getEntries q

theorem EntriesFrame.trans (h₁ : EntriesFrame f s s') (h₂ : EntriesFrame f s' s'') : EntriesFrame f s s'' :=
  fun q hq => (h₂ q hq).trans (h₁ q hq)

/-- A call at `f` raises before changing anything, or returns with only the listings of `f`
and its ancestors changed. -/
def ChangesAt (f : FakePath) (x : EStateM Error (PyTypesPathStore μ) α) (s : PyTypesPathStore μ) : Prop :=
  (∃ e, x s = .error e s) ∨ ∃ a s', x s = .ok a s' ∧ EntriesFrame f s s'

theorem not_step_of_not_isPrefix (hq : ¬ q <+: f) (y : Seg) : ¬ q ++ [y] <+: f :=
  fun h => hq ((List.prefix_append q [y]).trans h)

/-- A listing depends only on whether the path is a file and on the names its directory
holds. -/
theorem getEntries_congr_names (hf : s'.isFile q = s.isFile q)
    (he : (s'.entries.entries.get? q).map EntryStore.names = (s.entries.entries.get? q).map EntryStore.names) :
    s'.getEntries q = s.getEntries q := by
  have hd : s'.isDir q = s.isDir q := by
    simpa [isDir_eq_isSome] using congrArg Option.isSome he
  cases h : s.entries.entries.get? q <;> cases h' : s'.entries.entries.get? q <;>
    simp_all [getEntries, mustBeDir, mustExist, pathExists, EntryStore.getEntries, EntryStore.getAllEntries,
      EntryStore.names, Except.map]

/-- `set_meta_data` renames no entry, so it keeps every listing. -/
theorem getEntries_setMetaData (f : FakePath) (m : μ) (q : FakePath) :
    (stateOf (setMetaData f m s)).getEntries q = s.getEntries q := by
  rcases h1 : s.mustBeEndPoint f with e | _
  · simp [setMetaData, h1]
  rcases h2 : s.entries.locateEntryByFakePath f with e | ⟨d, i⟩
  · simp [setMetaData, h1, h2]
  rcases h3 : s.entries.getEntry f with e | _
  · simp [setMetaData, h1, h2, h3]
  obtain ⟨l, hl⟩ := Dict.exists_of_contains (EntryStore.contains_of_locateEntryByFakePath h2)
  simp only [setMetaData, h1, h2, h3, onEntries, EntryStore.updateEntry, liftExcept_ok, bind_apply, EStateM.bind,
    get_apply, modify_apply, zoom_apply, stateOf_ok]
  refine getEntries_congr_names rfl ?_
  by_cases hdq : d = q
  · subst hdq
    simp [hl, names_modify l (fun e => { e with metaData := some m }) (fun _ => rfl) i]
  · simp [hdq]

/-- Adding the file `f` lists nothing new off `f` and its ancestors. -/
theorem AddsAlong.entriesFrame_addFile {q₀ : FakePath} {e' : EntryStore μ} (h : AddsAlong s f q₀ e')
    (r : RealPath) : EntriesFrame f s ⟨s.pathMapping.addRealPath f r, e'⟩ := fun q hq => by
  have hne : f ≠ q := fun he => hq (he ▸ List.prefix_rfl)
  refine getEntries_congr_names (by simp [isFile, hne]) ?_
  rw [show (⟨s.pathMapping.addRealPath f r, e'⟩ : PyTypesPathStore μ).entries = e' from rfl,
    h.get?_of_not_step (not_step_of_not_isPrefix hq)]

/-- Adding the directory `f` lists nothing new off `f` and its ancestors. -/
theorem AddsAlong.entriesFrame_addDirectory {q₀ : FakePath} {e' : EntryStore μ} (h : AddsAlong s f q₀ e') :
    EntriesFrame f s ⟨s.pathMapping, ⟨e'.entries.set f []⟩⟩ := fun q hq => by
  have hne : f ≠ q := fun he => hq (he ▸ List.prefix_rfl)
  refine getEntries_congr_names rfl ?_
  show ((e'.entries.set f []).get? q).map _ = _
  rw [Dict.get?_set, if_neg hne, h.get?_of_not_step (not_step_of_not_isPrefix hq)]

/-- Removing `f` lists nothing differently off `f` and its ancestors, and neither does
popping a real path off its stack. -/
theorem entriesFrame_removeEffect {pm : PathMapping} {E : EntryStore μ}
    (hpm : ∀ q, f ≠ q → pm.getRealPath q = s.pathMapping.getRealPath q)
    (hE : ∀ q, f ≠ q → E.entries.get? q = s.entries.entries.get? q) :
    EntriesFrame f s ⟨pm, EntryStore.removeEffect f E⟩ := fun q hq => by
  have hne : f ≠ q := fun he => hq (he ▸ List.prefix_rfl)
  refine getEntries_congr_names (by simp [isFile, hpm q hne]) ?_
  show ((EntryStore.removeEffect f E).entries.get? q).map _ = _
  rw [EntryStore.get?_removeEffect_same _ _ (not_step_of_not_isPrefix hq), hE q hne]

/-- `remove` raises before any change, or changes the listings of `f` and its ancestors
only. -/
theorem Invariant.remove_changesAt (hs : s.Invariant) (f : FakePath) (ro : Option RealPath) :
    ChangesAt f (remove f ro) s := by
  by_cases hd : s.isDir f = true
  · by_cases hro : ro.isSome = true
    · exact .inl ⟨.isADirectory f, by simp [remove, hd, hro]⟩
    by_cases he : s.isEmptyDir f = true
    · have hrun : remove f ro s = removeDirectory f s := by simp [remove, hd, hro, he]
      by_cases hf0 : f = []
      · exact .inl ⟨.assertionError, by rw [hrun]; simp [removeDirectory, assertNotRoot, hf0]⟩
      refine .inr ⟨(), _, by rw [hrun, hs.removeDirectory_eq he hf0], ?_⟩
      exact entriesFrame_removeEffect (fun _ _ => rfl) fun q hq => by simp [hq]
    · exact .inl ⟨.directoryNotEmpty f, by simp [remove, hd, hro, he]⟩
  · by_cases hf : s.isFile f = true
    · have hrun : remove f ro s = removeFile f ro s := by simp [remove, hd, hf]
      rcases hs.removeFile_cases hf ro with ⟨e, h⟩ | ⟨l, hne, rl, -, -, -, -, h⟩
      · exact .inl ⟨e, by rw [hrun, h]⟩
      refine .inr ⟨(), _, by rw [hrun, h], entriesFrame_removeEffect (fun q hq => ?_) fun _ _ => rfl⟩
      simp [PathMapping.getRealPath, hq]
    · exact .inl ⟨.fakePathNotFound f, by simp [remove, hd, hf]⟩

/-- `add_file` and the `set_meta_data` that follows it: the first raises before any change,
or both return and only the listings of `f` and its ancestors change. -/
theorem Invariant.addFile_setMetaData_changesAt (hs : s.Invariant) (f : FakePath) (r : RealPath) (m : μ) :
    ChangesAt f (addFile f r >>= fun _ => setMetaData f m) s := by
  rcases hs.addFile_cases f r with ⟨-, hrun⟩ | ⟨-, hrun⟩ | ⟨q₀, e', hnd, -, hadd, hrun⟩
  · exact .inl ⟨_, bind_of_error hrun⟩
  · exact .inl ⟨_, bind_of_error hrun⟩
  obtain ⟨d, x, rfl⟩ := (eq_nil_or_append f).resolve_left fun h => by simp [h, hs.root_dir] at hnd
  have hl : e'.entries.get? d = some ((s.entries.entries.get? d).getD [] ++ [⟨x, none⟩]) :=
    hadd.step d x List.prefix_rfl fun hr => hadd.not_prefix_q hr.2
  have hfile : (⟨s.pathMapping.addRealPath (d ++ [x]) r, e'⟩ : PyTypesPathStore μ).isFile (d ++ [x]) = true := by
    simp [isFile]
  have hset := setMetaData_appended m (.inl hfile) hl
  refine .inr ⟨(), _, by rw [bind_of_ok hrun, hset], (hadd.entriesFrame_addFile r).trans fun q _ => ?_⟩
  have := getEntries_setMetaData (s := ⟨s.pathMapping.addRealPath (d ++ [x]) r, e'⟩) (d ++ [x]) m q
  rwa [hset] at this

/-- `add_directory` and the `set_meta_data` that follows it, likewise. -/
theorem Invariant.addDirectory_setMetaData_changesAt (hs : s.Invariant) (f : FakePath) (m : μ) :
    ChangesAt f (addDirectory f >>= fun _ => setMetaData f m) s := by
  rcases hs.addDirectory_cases f with ⟨-, hrun⟩ | ⟨q₀, e', hex, hadd, hrun⟩
  · exact .inl ⟨_, bind_of_error hrun⟩
  have hnd : s.isDir f = false := by simp [pathExists] at hex; exact hex.2
  obtain ⟨d, x, rfl⟩ := (eq_nil_or_append f).resolve_left fun h => by simp [h, hs.root_dir] at hnd
  have hdf : d ≠ d ++ [x] := by simp
  have hl : (e'.entries.set (d ++ [x]) []).get? d = some ((s.entries.entries.get? d).getD [] ++ [⟨x, none⟩]) := by
    rw [Dict.get?_set, if_neg (Ne.symm hdf)]
    exact hadd.step d x List.prefix_rfl fun hr => hadd.not_prefix_q hr.2
  have hempty : (⟨s.pathMapping, ⟨e'.entries.set (d ++ [x]) []⟩⟩ : PyTypesPathStore μ).isEmptyDir (d ++ [x])
      = true := by simp [isEmptyDir, isDir, Dict.contains, Dict.mem_keys_iff]
  have hset := setMetaData_appended m (.inr hempty) hl
  refine .inr ⟨(), _, by rw [bind_of_ok hrun, hset], hadd.entriesFrame_addDirectory.trans fun q _ => ?_⟩
  have := getEntries_setMetaData (s := ⟨s.pathMapping, ⟨e'.entries.set (d ++ [x]) []⟩⟩) (d ++ [x]) m q
  rwa [hset] at this

end PyTypesPathStore

namespace PathPropCache

theorem get_put (c : PathPropCache) (p : FakePath) (k : CacheKey) (v : CacheValue) (q : FakePath)
    (k' : CacheKey) : (c.put p k v).get q k' = if p = q ∧ k = k' then some v else c.get q k' := by
  by_cases hpq : p = q
  · subst hpq
    cases hc : c.d.get? p <;> by_cases hk : k = k' <;> simp [put, get, hc, hk]
  · simp [put, get, hpq]

/-- Pruning a path without a key drops everything cached for it, and nothing else. -/
theorem get_prune_none (c : PathPropCache) (p q : FakePath) (k : CacheKey) :
    (stateOf (c.prune p none)).get q k = if p = q then none else c.get q k := by
  unfold prune
  cases hc : c.d.get? p with
  | none =>
    by_cases hpq : p = q
    · subst hpq; simp [get, hc]
    · simp [hpq]
  | some _ => by_cases hpq : p = q <;> simp [get, hpq]

/-- Pruning the stat of a path keeps every cached listing. -/
theorem get_prune_stat (c : PathPropCache) (p q : FakePath) :
    (stateOf (c.prune p (some .stat))).get q .entries = c.get q .entries := by
  unfold prune
  cases hc : c.d.get? p with
  | none => rfl
  | some pathD =>
    simp only
    split_ifs
    · by_cases hpq : p = q
      · subst hpq; simp [get, hc]
      · simp [get, hpq]
    · rfl

theorem get_foldl_prune_none (l : List FakePath) (c : PathPropCache) (q : FakePath) (k : CacheKey) :
    (l.foldl (fun c p => stateOf (c.prune p none)) c).get q k = if q ∈ l then none else c.get q k := by
  induction l generalizing c with
  | nil => simp
  | cons p l ih =>
    rw [List.foldl_cons, ih, get_prune_none]
    by_cases hpq : p = q
    · simp [hpq]
    · simp [hpq, Ne.symm hpq]

theorem get_foldl_prune_stat (l : List FakePath) (c : PathPropCache) (q : FakePath) :
    (l.foldl (fun c p => stateOf (c.prune p (some .stat))) c).get q .entries = c.get q .entries := by
  induction l generalizing c with
  | nil => rfl
  | cons p l ih => rw [List.foldl_cons, ih, get_prune_stat]

end PathPropCache

namespace Rep
variable {P : List SubstitutionPattern} {α β : Type} {s t : Rep} {f q : FakePath}

theorem cacheGet_cachePut (k : CacheKey) (v : CacheValue) (k' : CacheKey) :
    (stateOf (cachePut f k v s)).cacheGet q k' = s.cache.bind fun c => (c.put f k v).get q k' := by
  cases h : s.cache <;> simp [cachePut, cacheGet, h]

/-- Pruning a branch without a key drops everything cached for the path and its ancestors. -/
theorem cacheGet_cachePruneBranchTo_none (k : CacheKey) :
    (stateOf (cachePruneBranchTo f none s)).cacheGet q k = if q <+: f then none else s.cacheGet q k := by
  cases h : s.cache with
  | none => simp [cachePruneBranchTo, cacheGet, h]
  | some c =>
    simp only [cachePruneBranchTo, cacheGet, h, modify_apply, stateOf_ok, Option.map_some', Option.some_bind]
    rw [PathPropCache.get_foldl_prune_none]
    simp only [List.mem_reverse, List.mem_inits]

theorem cacheGet_cachePruneBranchTo_stat :
    (stateOf (cachePruneBranchTo f (some .stat) s)).cacheGet q .entries = s.cacheGet q .entries := by
  cases h : s.cache with
  | none => simp [cachePruneBranchTo, cacheGet, h]
  | some c =>
    simp only [cachePruneBranchTo, cacheGet, h, modify_apply, stateOf_ok, Option.map_some', Option.some_bind]
    rw [PathPropCache.get_foldl_prune_stat]

/-- No listing the cache holds is stale: each is what the path store lists now. -/
def Coherent (s : Rep) : Prop :=
  ∀ q es, s.cacheGet q .entries = some (.entries es) → s.pathStore.getEntries q = .ok es

namespace Coherent

theorem congr (h : Coherent s) (hp : t.pathStore = s.pathStore) (hc : t.cache = s.cache) : Coherent t :=
  fun q es hq => hp ▸ h q es (by simpa [cacheGet, hc] using hq)

/-- With `--nocache` there is no cache, and a fresh one holds nothing. -/
theorem of_fresh (h : s.cache = none ∨ s.cache = some ⟨Dict.empty⟩) : Coherent s := fun q es hq => by
  rcases h with h | h <;> simp [cacheGet, PathPropCache.get, h] at hq

/-- Pruning the branch of `f` after a change that listed nothing differently off `f` and its
ancestors restores coherence. -/
theorem prune (h : Coherent s) {ps : PyTypesPathStore MetaData} (hfr : PyTypesPathStore.EntriesFrame f s.pathStore ps) :
    Coherent (stateOf (cachePruneBranchTo f none { s with pathStore := ps })) := fun q es hq => by
  rw [cacheGet_cachePruneBranchTo_none] at hq
  split_ifs at hq with hqf
  exact (hfr q hqf).trans (h q es hq)

theorem prune_stat (h : Coherent s) : Coherent (stateOf (cachePruneBranchTo f (some .stat) s)) :=
  fun q es hq => h q es (by rwa [cacheGet_cachePruneBranchTo_stat] at hq)

/-- Caching what the path store lists keeps coherence. -/
theorem cachePut_entries (h : Coherent s) {es : List Seg} (he : s.pathStore.getEntries f = .ok es) :
    Coherent (stateOf (cachePut f .entries (.entries es) s)) := fun q es' hq => by
  rw [cacheGet_cachePut, Option.bind_eq_some] at hq
  obtain ⟨c, hc, hq⟩ := hq
  rw [PathPropCache.get_put] at hq
  split_ifs at hq with hfq
  · obtain ⟨rfl, -⟩ := hfq
    cases hq
    exact he
  · exact h q es' (by simpa [cacheGet, hc] using hq)

theorem cachePut_stat (h : Coherent s) (v : CacheValue) : Coherent (stateOf (cachePut f .stat v s)) :=
  fun q es hq => by
    rw [cacheGet_cachePut, Option.bind_eq_some] at hq
    obtain ⟨c, hc, hq⟩ := hq
    rw [PathPropCache.get_put, if_neg fun h => CacheKey.noConfusion h.2] at hq
    exact h q es (by simpa [cacheGet, hc] using hq)

end Coherent

/-- The invariant of the cache, carried with the depth invariant the path store's changes
rely on. -/
structure CacheInv (P : List SubstitutionPattern) (s : Rep) : Prop where
  stratified : Stratified P s
  coherent : Coherent s

/-- `x` keeps `CacheInv P`, whether it returns or raises. -/
def Keeps (P : List SubstitutionPattern) {α : Type} (x : M α) : Prop :=
  ∀ s, CacheInv P s → CacheInv P (stateOf (x s))

/-- A change of the path store at `f`: it raises before changing anything, or returns with
the listings off `f` and its ancestors as they were and the store still stratified. -/
def ChangesAt (P : List SubstitutionPattern) (f : FakePath) (x : M α) (s : Rep) : Prop :=
  (∃ e, x s = .error e s) ∨ ∃ a ps, x s = .ok a { s with pathStore := ps } ∧
    PyTypesPathStore.EntriesFrame f s.pathStore ps ∧ ps.Stratified P.length

theorem onPathStore_bind {a : EStateM Error (PyTypesPathStore MetaData) α}
    {b : α → EStateM Error (PyTypesPathStore MetaData) β} :
    (onPathStore a >>= fun x => onPathStore (b x)) = onPathStore (a >>= b) := by
  funext s
  simp only [onPathStore, zoom_apply, bind_apply, EStateM.bind]
  cases a s.pathStore <;> rfl

theorem changesAt_onPathStore {x : EStateM Error (PyTypesPathStore MetaData) α}
    (h : PyTypesPathStore.ChangesAt f x s.pathStore) (hst : (stateOf (x s.pathStore)).Stratified P.length) :
    ChangesAt P f (onPathStore x) s := by
  rcases h with ⟨e, he⟩ | ⟨a, ps, he, hfr⟩
  · exact .inl ⟨e, by simp [onPathStore, zoom_apply, he]⟩
  · exact .inr ⟨a, ps, by simp [onPathStore, zoom_apply, he], hfr, by simpa [he] using hst⟩

namespace Keeps

theorem bind {x : M α} {f : α → M β} (hx : Keeps P x) (hf : ∀ a, Keeps P (f a)) : Keeps P (x >>= f) :=
  fun s hs => by
    cases hxs : x s with
    | ok a s' => rw [PyTypesPathStore.bind_of_ok hxs]; exact hf a s' (by simpa [hxs] using hx s hs)
    | error e s' => rw [PyTypesPathStore.bind_of_error hxs]; simpa [hxs] using hx s hs

/-- A computation that leaves the path store, the patterns and the cache alone. -/
theorem of_frame {x : M α} (h : ∀ s, (stateOf (x s)).pathStore = s.pathStore ∧
    (stateOf (x s)).substitutionPatterns = s.substitutionPatterns ∧ (stateOf (x s)).cache = s.cache) :
    Keeps P x := fun s hs =>
  ⟨Preserves.of_frame (fun s => ⟨(h s).1, (h s).2.1⟩) s hs.stratified, hs.coherent.congr (h s).1 (h s).2.2⟩

theorem pure (a : α) : Keeps P (Pure.pure a : M α) := of_frame fun _ => ⟨rfl, rfl, rfl⟩

theorem throw (e : Error) : Keeps P (MonadExcept.throw e : M α) := of_frame fun _ => ⟨rfl, rfl, rfl⟩

theorem ite {c : Prop} [Decidable c] {x y : M α} (hx : c → Keeps P x) (hy : ¬ c → Keeps P y) :
    Keeps P (if c then x else y) := by
  split
  · exact hx ‹_›
  · exact hy ‹_›

theorem throw_bind (e : Error) {f : α → M β} : Keeps P (MonadExcept.throw e >>= f) := fun _ hs => hs

theorem get_bind {f : Rep → M α} (h : ∀ s, CacheInv P s → Keeps P (f s)) : Keeps P (get >>= f) :=
  fun s hs => h s hs s hs

theorem liftExcept_bind {e : Except Error α} {f : α → M β} (h : ∀ a, e = .ok a → Keeps P (f a)) :
    Keeps P (PyTagsFs.liftExcept e >>= f) := fun s hs => by
  cases e with
  | error e' => simpa using hs
  | ok a => simpa using h a rfl s hs

theorem tryCatch {x : M α} {h : Error → M α} (hx : Keeps P x) (hh : ∀ e, Keeps P (h e)) :
    Keeps P (tryCatch x h) := fun s hs => by
  simp only [tryCatch_apply, tryCatch_run]
  cases hxs : x s with
  | ok a s' => simpa [hxs] using hx s hs
  | error e s' => exact hh e s' (by simpa [hxs] using hx s hs)

theorem forM {γ : Type} {l : List γ} {f : γ → M PUnit} (h : ∀ b ∈ l, Keeps P (f b)) : Keeps P (l.forM f) := by
  induction l with
  | nil => exact pure _
  | cons b l ih =>
    show Keeps P (f b >>= fun _ => l.forM f)
    exact bind (h b (List.mem_cons_self _ _)) fun _ => ih fun b' hb' => h b' (List.mem_cons_of_mem _ hb')

theorem mapM {γ : Type} {l : List γ} {f : γ → M β} (h : ∀ b ∈ l, Keeps P (f b)) : Keeps P (l.mapM f) := by
  induction l with
  | nil => exact pure _
  | cons b l ih =>
    rw [List.mapM_cons]
    exact bind (h b (List.mem_cons_self _ _)) fun _ =>
      bind (ih fun b' hb' => h b' (List.mem_cons_of_mem _ hb')) fun _ => pure _

theorem liftExcept (e : Except Error α) : Keeps P (PyTagsFs.liftExcept e : M α) :=
  of_frame fun _ => by cases e <;> exact ⟨rfl, rfl, rfl⟩

theorem onMetaStore {x : EStateM Error MetaStore α} : Keeps P (onMetaStore x) :=
  of_frame fun s => by simp only [Rep.onMetaStore, zoom_apply]; split <;> exact ⟨rfl, rfl, rfl⟩

theorem onMonitor {x : EStateM Error Monitor α} : Keeps P (onMonitor x) :=
  of_frame fun s => by simp only [Rep.onMonitor, zoom_apply]; split <;> exact ⟨rfl, rfl, rfl⟩

theorem onSourceTree {x : EStateM Error SourceTree α} : Keeps P (onSourceTree x) :=
  of_frame fun s => by simp only [Rep.onSourceTree, zoom_apply]; split <;> exact ⟨rfl, rfl, rfl⟩

theorem tryMonitor (call : EStateM Error Monitor Unit) (errors : Error → Bool) :
    Keeps P (Rep.tryMonitor call errors) :=
  tryCatch (bind onMonitor fun _ => pure _) fun _ => ite (fun _ => pure _) fun _ => throw _

theorem cachePut_stat (f : FakePath) (v : CacheValue) : Keeps P (cachePut f .stat v) := fun s hs =>
  ⟨Preserves.cachePut f .stat v s hs.stratified, hs.coherent.cachePut_stat v⟩

theorem cachePruneBranchTo_stat (f : FakePath) : Keeps P (cachePruneBranchTo f (some .stat)) := fun s hs =>
  ⟨Preserves.cachePruneBranchTo f _ s hs.stratified, hs.coherent.prune_stat⟩

/-- A change of the path store at `f`, then the pruning of `f`'s branch. -/
theorem change_prune {x : M α} {f : FakePath} {k : PUnit → M β} (hx : ∀ s, CacheInv P s → ChangesAt P f x s)
    (hk : ∀ u, Keeps P (k u)) : Keeps P ((x >>= fun _ => cachePruneBranchTo f none) >>= k) := fun s hs => by
  rcases hx s hs with ⟨e, he⟩ | ⟨a, ps, he, hfr, hst⟩
  · simpa [he] using hs
  · have h₁ : CacheInv P (stateOf (cachePruneBranchTo f none { s with pathStore := ps })) :=
      ⟨Preserves.cachePruneBranchTo f none _ ⟨hs.stratified.patterns, hst⟩, hs.coherent.prune hfr⟩
    cases hp : cachePruneBranchTo f none { s with pathStore := ps } with
    | ok u t => simpa [he, hp] using hk u t (by simpa [hp] using h₁)
    | error e t => simp [cachePruneBranchTo] at hp

end Keeps

theorem changesAt_tryCatch {x : M α} {h : Error → M α} (hs : CacheInv P s) (hx : ChangesAt P f x s)
    (hh : ∀ e, (∃ e', h e s = .error e' s) ∨ ∃ a, h e s = .ok a s) : ChangesAt P f (tryCatch x h) s := by
  rcases hx with ⟨e, he⟩ | ⟨a, ps, he, hfr, hst⟩
  · rcases hh e with ⟨e', he'⟩ | ⟨a, ha⟩
    · exact .inl ⟨e', by simp [he, he']⟩
    · exact .inr ⟨a, s.pathStore, by simp [he, ha], fun _ _ => rfl, hs.stratified.store⟩
  · exact .inr ⟨a, ps, by simp [he], hfr, hst⟩

theorem changesAt_addFile (hs : CacheInv P s) (hf : f.length = P.length) (r : RealPath) {S : List Splitter}
    (hS : S.length = P.length) :
    ChangesAt P f (onPathStore (PyTypesPathStore.addFile f r) >>= fun _ => setSplitters f S) s := by
  simp only [setSplitters]
  rw [onPathStore_bind]
  exact changesAt_onPathStore (hs.stratified.store.inv.addFile_setMetaData_changesAt f r _)
    (hs.stratified.store.addFile_setMetaData hf r hS)

theorem changesAt_addDirectory (hs : CacheInv P s) (hf : f.length < P.length) {S : List Splitter}
    (hS : S.length = f.length) :
    ChangesAt P f (onPathStore (PyTypesPathStore.addDirectory f) >>= fun _ => setSplitters f S) s := by
  simp only [setSplitters]
  rw [onPathStore_bind]
  exact changesAt_onPathStore (hs.stratified.store.inv.addDirectory_setMetaData_changesAt f _)
    (hs.stratified.store.addDirectory_setMetaData hf hS)

section Operations

theorem removeDirectory_keeps (f : FakePath) : Keeps P (removeDirectory f) := by
  have h := Keeps.change_prune (P := P) (k := Pure.pure) (fun s hs => changesAt_onPathStore
    (hs.stratified.store.inv.remove_changesAt f none) (hs.stratified.store.remove f none)) fun _ => .pure _
  rwa [bind_pure] at h

theorem addDirectory_keeps (f : FakePath) : Keeps P (addDirectory f) := by
  unfold addDirectory
  refine .ite (fun _ => .throw_bind _) fun _ => .bind (.pure _) fun _ => .get_bind fun s hs => ?_
  refine .ite (fun _ => .throw_bind _) fun hlen => .bind (.pure _) fun _ => .liftExcept_bind fun S hS => ?_
  have hP := hs.stratified.patterns
  have hlt : f.length < P.length := by rw [← hP]; omega
  have hSlen : S.length = f.length := by rw [createSplitters_length hS, hP]; omega
  split
  · split
    · split
      · exact .ite (fun _ => .throw_bind _) fun _ => .throw_bind _
      · refine .bind (.pure _) fun _ => ?_
        have h := Keeps.change_prune (P := P) (k := Pure.pure) (fun t ht => changesAt_addDirectory ht hlt hSlen)
          fun _ => .pure _
        rwa [bind_pure, bind_assoc] at h
    · exact .throw _
  · exact .throw _

theorem isDir_keeps (f : FakePath) : Keeps P (isDir f) := .of_frame fun _ => ⟨rfl, rfl, rfl⟩

theorem isFile_keeps (f : FakePath) : Keeps P (isFile f) := .of_frame fun _ => ⟨rfl, rfl, rfl⟩

theorem getRealPath_keeps (f : FakePath) : Keeps P (getRealPath f) :=
  .of_frame fun s => by cases h : s.pathStore.getRealPath f <;> simp [getRealPath, h]

/-- `get_entries` caches only what the path store lists. -/
theorem getEntries_keeps (f : FakePath) : Keeps P (getEntries f) := fun s hs => by
  have miss : CacheInv P (stateOf ((liftExcept (s.pathStore.getEntries f) >>= fun es =>
      cachePut f .entries (.entries es) >>= fun _ => pure es) s)) := by
    cases he : s.pathStore.getEntries f with
    | error e => simpa [he] using hs
    | ok es =>
      simpa [he] using (⟨Preserves.cachePut f .entries (.entries es) s hs.stratified,
        hs.coherent.cachePut_entries he⟩ : CacheInv P (stateOf (cachePut f .entries (.entries es) s)))
  unfold getEntries
  rcases hc : s.cacheGet f .entries with _ | (_ | es)
  · simpa [hc] using miss
  · simpa [hc] using miss
  · simpa [hc] using hs

theorem isEmptyDir_keeps (f : FakePath) : Keeps P (isEmptyDir f) :=
  .bind (isDir_keeps f) fun _ => .ite (fun _ => .bind (getEntries_keeps f) fun _ => .pure _) fun _ => .pure _

theorem addDirectoryWithParents_keeps (f : FakePath) : Keeps P (addDirectoryWithParents f) := by
  unfold addDirectoryWithParents
  exact .ite (fun _ => .throw_bind _) fun _ => .bind (.pure _) fun _ => .forM fun path _ =>
    .bind (isDir_keeps path) fun _ => .ite (fun _ => addDirectory_keeps path) fun _ => .pure _

theorem moveDirectoryEndPoints_keeps (index : Nat) (newPathPart : Seg) (endPoints : List FakePath) :
    Keeps P (moveDirectoryEndPoints index newPathPart endPoints) :=
  .forM fun e _ => .bind (removeDirectory_keeps e) fun _ => addDirectoryWithParents_keeps _

theorem applyValuesByRealPath_keeps (v : Dict FakePath (Values × Values)) :
    ∀ groups, Keeps P (applyValuesByRealPath v groups)
  | [] => .pure _
  | (_, _) :: rest => .get_bind fun _ _ => .liftExcept_bind fun _ _ =>
      .bind (.tryCatch .onMetaStore fun _ => .ite (fun _ => .throw _) fun _ => .throw _) fun _ =>
        applyValuesByRealPath_keeps v rest

theorem renamePath_keeps (old new : FakePath) : Keeps P (renamePath old new) := by
  unfold renamePath
  refine .ite (fun _ => .throw_bind _) fun _ => .bind (.pure _) fun _ => ?_
  refine .ite (fun _ => .throw_bind _) fun _ => .bind (.pure _) fun _ => ?_
  split
  · exact .get_bind fun _ _ => .liftExcept_bind fun _ _ => .get_bind fun _ _ =>
      .bind (moveDirectoryEndPoints_keeps _ _ _) fun _ => .get_bind fun _ _ =>
        .liftExcept_bind fun _ _ => .liftExcept_bind fun _ _ => applyValuesByRealPath_keeps _ _
  · exact .throw _

/-- `getattr`, `_getattr` and `_get_directory_time_attr` read listings through
`get_entries` and write only stats. -/
theorem getattr_keeps_fuel : ∀ fuel, (∀ f, Keeps P (getattrWithFuel fuel f)) ∧
    (∀ f, Keeps P (getattrUncached fuel f)) ∧ ∀ f attr, Keeps P (directoryTimeAttr fuel f attr)
  | 0 => ⟨fun _ => .throw _, fun _ => .throw _, fun _ _ => .throw _⟩
  | fuel + 1 => by
    obtain ⟨hg, hu, hd⟩ := getattr_keeps_fuel fuel
    have skip {x : M Nat} (hx : Keeps P x) : Keeps P (tryCatch (do Pure.pure [← x]) fun e =>
        if e matches .osError _ then Pure.pure [] else MonadExcept.throw e) :=
      .tryCatch (.bind hx fun _ => .pure _) fun _ => .ite (fun _ => .pure _) fun _ => .throw _
    refine ⟨fun f => ?_, fun f => ?_, fun f attr => ?_⟩
    · rw [getattrWithFuel]
      refine .get_bind fun _ _ => ?_
      split
      · exact .pure _
      · exact .bind (hu f) fun _ => .bind (.cachePut_stat _ _) fun _ => .pure _
    · rw [getattrUncached]
      refine .get_bind fun _ _ => ?_
      split
      · exact .get_bind fun _ _ => .liftExcept _
      · exact .ite (fun _ => .throw_bind _) fun _ => .bind (.pure _) fun _ => .bind (getEntries_keeps f) fun _ =>
          .get_bind fun _ _ => .liftExcept_bind fun _ _ => .bind (hd f _) fun _ => .bind (hd f _) fun _ =>
            .bind (hd f _) fun _ => .pure _
    · rw [directoryTimeAttr]
      exact .bind (getEntries_keeps f) fun _ => .get_bind fun _ _ =>
        .bind (.mapM fun p _ => skip (hd p attr)) fun _ =>
          .bind (.mapM fun p _ => skip (.bind (hg p) fun _ => .pure _)) fun _ => .pure _

theorem getattr_keeps (f : FakePath) : Keeps P (getattr f) :=
  .get_bind fun _ _ => (getattr_keeps_fuel _).1 f

theorem utimeWithFuel_keeps : ∀ fuel (f : FakePath) (times : Nat × Nat), Keeps P (utimeWithFuel fuel f times)
  | 0, _, _ => .pure _
  | fuel + 1, f, times => by
    unfold utimeWithFuel
    exact .bind (isFile_keeps f) fun _ => .ite
      (fun _ => .bind (getRealPath_keeps f) fun _ => .bind .onSourceTree fun _ => .cachePruneBranchTo_stat _)
      fun _ => .bind (isEmptyDir_keeps f) fun _ => .ite (fun _ => .get_bind fun _ _ => .onSourceTree)
        fun _ => .get_bind fun _ _ => .liftExcept_bind fun _ _ => .forM fun e _ => utimeWithFuel_keeps fuel e times

theorem utime_keeps (f : FakePath) (times : Nat × Nat) : Keeps P (utime f times) :=
  utimeWithFuel_keeps 2 f times

theorem removeSourceFile_keeps (r : RealPath) : Keeps P (removeSourceFile r) := by
  unfold removeSourceFile
  refine .get_bind fun _ _ => ?_
  split
  · exact .ite (fun _ => .pure _) fun _ => .throw _
  · refine .bind (.forM fun f _ => ?_) fun _ => .bind (.tryMonitor _ _) fun _ => .pure _
    have h := Keeps.change_prune (P := P) (k := Pure.pure) (fun s hs => changesAt_tryCatch
      (h := fun e => if e.isPathNotFound then pure () else throw e) hs
      (changesAt_onPathStore (hs.stratified.store.inv.remove_changesAt f (some r)) (hs.stratified.store.remove f _))
      fun e => by by_cases he : e.isPathNotFound <;> simp [he]) fun _ => .pure _
    rwa [bind_pure] at h

theorem registerFakePaths_keeps (r : RealPath) :
    ∀ l : List (FakePath × List Splitter), (∀ p ∈ l, p.1.length = P.length ∧ p.2.length = P.length) →
      Keeps P (registerFakePaths r l)
  | [], _ => .pure _
  | (f, S) :: rest, hl => by
    rw [registerFakePaths]
    have hf := hl (f, S) (List.mem_cons_self _ _)
    refine .get_bind fun _ _ => .ite (fun _ => .pure _) fun _ => .bind (.pure _) fun _ =>
      .bind (.tryMonitor _ _) fun _ => .ite (fun _ => .pure _) fun _ => .bind (.pure _) fun _ => ?_
    have h := Keeps.change_prune (P := P) (fun s hs => changesAt_addFile hs hf.1 r hf.2) fun _ =>
      registerFakePaths_keeps r rest fun p hp => hl p (List.mem_cons_of_mem _ hp)
    simp only [bind_assoc] at h
    exact h

theorem addSourceFile_keeps (r : RealPath) : Keeps P (addSourceFile r) := by
  unfold addSourceFile
  refine .get_bind fun _ _ => .ite (fun _ => .pure _) fun _ => .bind (.pure _) fun _ =>
    .ite (fun _ => .pure _) fun _ => .bind (.pure _) fun _ => ?_
  refine .bind (.tryCatch (removeSourceFile_keeps r) fun _ => .ite (fun _ => .pure _) fun _ => .throw _) fun _ =>
    .get_bind fun s hs => .liftExcept_bind fun res hres => ?_
  split
  · next collected =>
    have hc := collectFakePaths_depth s [] _ collected hres (by simp)
    rw [hs.stratified.patterns] at hc
    refine registerFakePaths_keeps r _ fun p hp => hc p ?_
    split at hp
    · exact (List.mem_filter.1 hp).1
    · exact hp
  · exact .pure _

theorem removeSourceDir_keeps (r : RealPath) : Keeps P (removeSourceDir r) :=
  .get_bind fun _ _ => .liftExcept_bind fun _ _ => .bind (.forM fun r' _ => removeSourceFile_keeps r') fun _ =>
    .bind (.tryMonitor _ _) fun _ => .pure _

theorem addSourceDirWithFuel_keeps : ∀ fuel (r : RealPath), Keeps P (addSourceDirWithFuel fuel r)
  | 0, _ => .pure _
  | fuel + 1, r => by
    unfold addSourceDirWithFuel
    exact .bind (.tryCatch (removeSourceDir_keeps r) fun _ => .ite (fun _ => .pure _) fun _ => .throw _) fun _ =>
      .bind (.tryMonitor _ _) fun _ => .ite (fun _ => .pure _) fun _ => .bind (.pure _) fun _ =>
        .get_bind fun _ _ => .forM fun ⟨_, path⟩ _ =>
          .ite (fun _ => addSourceDirWithFuel_keeps fuel path) fun _ => addSourceFile_keeps path

theorem addSourceDir_keeps (r : RealPath) : Keeps P (addSourceDir r) :=
  .get_bind fun _ _ => addSourceDirWithFuel_keeps _ r

theorem addCb_keeps (p : RealPath) (isDir : Option Bool) : Keeps P (addCb p isDir) := by
  unfold addCb
  split
  · exact .bind (addSourceFile_keeps _) fun _ => addSourceDir_keeps _
  · exact addSourceDir_keeps _
  · exact addSourceFile_keeps _

theorem removeCb_keeps (p : RealPath) (isDir : Option Bool) : Keeps P (removeCb p isDir) := by
  unfold removeCb
  split
  · exact .bind (removeSourceFile_keeps _) fun _ => removeSourceDir_keeps _
  · exact removeSourceDir_keeps _
  · exact removeSourceFile_keeps _

theorem updateCb_keeps (p : RealPath) (isDir : Option Bool) : Keeps P (updateCb p isDir) := by
  unfold updateCb
  split
  · exact addSourceFile_keeps _
  · exact .pure _
  · exact addSourceFile_keeps _

theorem Op.run_keeps : ∀ op : Op, Keeps P op.run
  | .addSourceFile r | .updateSourceFile r => addSourceFile_keeps r
  | .removeSourceFile r => removeSourceFile_keeps r
  | .addSourceDir r => addSourceDir_keeps r
  | .removeSourceDir r => removeSourceDir_keeps r
  | .addCb p d => addCb_keeps p d
  | .removeCb p d => removeCb_keeps p d
  | .updateCb p d => updateCb_keeps p d
  | .addDirectory f => addDirectory_keeps f
  | .removeDirectory f => removeDirectory_keeps f
  | .renamePath f g => renamePath_keeps f g
  | .utime f t => utime_keeps f t
  | .environment _ _ => .of_frame fun _ => ⟨rfl, rfl, rfl⟩

end Operations

/-- The states of a representation that starts with an empty path store and an empty cache,
or none with `--nocache`, then runs operations and `readdir` and `getattr` lookups. -/
inductive CachedReachable : Rep → Prop where
  | fresh (s : Rep) : s.pathStore = PyTypesPathStore.initial →
      s.cache = none ∨ s.cache = some ⟨Dict.empty⟩ → CachedReachable s
  | op {s : Rep} (op : Op) : CachedReachable s → CachedReachable (stateOf (op.run s))
  | getEntries {s : Rep} (f : FakePath) : CachedReachable s → CachedReachable (stateOf (getEntries f s))
  | getattr {s : Rep} (f : FakePath) : CachedReachable s → CachedReachable (stateOf (getattr f s))

theorem CacheInv.step {x : M α} (hx : Keeps s.substitutionPatterns x) (hs : CacheInv s.substitutionPatterns s) :
    CacheInv (stateOf (x s)).substitutionPatterns (stateOf (x s)) := by
  have h := hx s hs
  rwa [← h.stratified.patterns] at h

theorem CachedReachable.cacheInv (h : CachedReachable s) : CacheInv s.substitutionPatterns s := by
  induction h with
  | fresh s hp hc => exact ⟨⟨rfl, hp ▸ PyTypesPathStore.initial_stratified _⟩, .of_fresh hc⟩
  | op o _ ih => exact ih.step (o.run_keeps)
  | getEntries f _ ih => exact ih.step (getEntries_keeps f)
  | getattr f _ ih => exact ih.step (getattr_keeps f)

/-- With `--nocache`, `get_entries` is the path store's `get_entries`. -/
theorem getEntries_nocache (s : Rep) (f : FakePath) :
    getEntries f { s with cache := none } = liftExcept (s.pathStore.getEntries f) { s with cache := none } := by
  cases h : s.pathStore.getEntries f <;> simp [getEntries, cacheGet, cachePut, h]

/-- On every run from a fresh representation, `readdir`'s `get_entries` returns, or raises,
what it would with `--nocache`, and changes nothing but the cache. -/
theorem cached_get_entries_is_uncached (h : CachedReachable s) (f : FakePath) :
    valueOf (getEntries f s) = valueOf (getEntries f { s with cache := none }) ∧
    errorOf (getEntries f s) = errorOf (getEntries f { s with cache := none }) ∧
    { stateOf (getEntries f s) with cache := none } = stateOf (getEntries f { s with cache := none }) := by
  rw [getEntries_nocache]
  unfold getEntries
  rcases hq : s.cacheGet f .entries with _ | (_ | es)
  · cases he : s.pathStore.getEntries f <;> simp [hq, he, cachePut, valueOf, errorOf]
  · cases he : s.pathStore.getEntries f <;> simp [hq, he, cachePut, valueOf, errorOf]
  · simp [hq, h.cacheInv.coherent f es hq, valueOf, errorOf]

/-- `twoFileFreshRep` with its cache on, populated, after `readdir('/x')`. -/
def cachedTwoFileRep : Rep :=
  stateOf (getEntries [segX] (stateOf ((Op.addSourceDir "/src").run { twoFileFreshRep with cache := some ⟨Dict.empty⟩ })))

theorem cachedTwoFileRep_entries :
    CachedReachable cachedTwoFileRep ∧
    valueOf (getEntries [segX] cachedTwoFileRep) = valueOf (getEntries [segX] { cachedTwoFileRep with cache := none }) ∧
    errorOf (getEntries [segX] cachedTwoFileRep) = errorOf (getEntries [segX] { cachedTwoFileRep with cache := none }) ∧
    { stateOf (getEntries [segX] cachedTwoFileRep) with cache := none } =
      stateOf (getEntries [segX] { cachedTwoFileRep with cache := none }) :=
  have h : CachedReachable cachedTwoFileRep := .getEntries _ (.op _ (.fresh _ rfl (.inr rfl)))
  ⟨h, cached_get_entries_is_uncached h [segX]⟩

end Rep

/-! ## Stats the cache keeps

The cache's stat entries are left out of `Rep.Coherent`: `utime` on an empty directory
rewrites the times of the source root without pruning the cached stat of the directory,
whose times are the root's. -/

/-- Make the empty directory `/x`, stat it, and set its times to `(5, 6)`. -/
def touchEmptyDirectory : Rep.M Unit := do
  Rep.addDirectory [segX]
  let _ ← Rep.getattr [segX]
  Rep.utime [segX] (5, 6)

/-- The representation after `touchEmptyDirectory`, with a cache, under `%a/%b`. -/
def touchedRep : Rep :=
  stateOf (touchEmptyDirectory { freshRep ⟨Dict.empty, fun _ => []⟩ [variablePattern "a", variablePattern "b"]
    (flatTree true []) with cache := some ⟨Dict.empty⟩ })

/-- With the cache, `getattr` of `/x` still gives the access time 1 it cached before the
`utime`; the same state without a cache gives 5. -/
theorem utime_of_empty_directory_leaves_stale_stat :
    (valueOf (Rep.getattr [segX] touchedRep)).map Stat.atime = some 1 ∧
      (valueOf (Rep.getattr [segX] { touchedRep with cache := none })).map Stat.atime = some 5 := by
  decide

end PyTagsFs
