import PyTagsFs.PathStoreRemove
import PyTagsFs.SourceTreeRep

/-! # Depth stratification of the orchestrator's path store

Under `N` substitution patterns the path store keeps its files `N` segments deep, its
directories other than `/` less deep, and on every entry of a file or of an empty directory
the splitters of its depth (`Stratified`). Removal only takes away (`Shrinks`), so it keeps
all of it; an addition is followed by `set_meta_data` of the new end point, which lands on
the entry the addition appended. -/
namespace PyTagsFs
namespace PyTypesPathStore

theorem modify_length_append {α : Type} (l : List α) (a : α) (g : α → α) :
    (l ++ [a]).modify g l.length = l ++ [g a] := by
  induction l with
  | nil => rfl
  | cons b l ih => simpa [List.modify, List.modifyTailIdx] using ih

section Run
variable {ε σ α β : Type} {x : EStateM ε σ α} {f : α → EStateM ε σ β} {s s' : σ}

theorem bind_of_ok {a : α} (h : x s = .ok a s') : (x >>= f) s = f a s' := by simp [h]

theorem bind_of_error {e : ε} (h : x s = .error e s') : (x >>= f) s = .error e s' := by simp [h]

end Run

section SetMetaData
variable {μ : Type} {s : PyTypesPathStore μ}

theorem mustBeEndPoint_of {f : FakePath} (h : s.isFile f = true ∨ s.isEmptyDir f = true) :
    s.mustBeEndPoint f = .ok () := by
  rcases h with h | h
  · simp [mustBeEndPoint, mustExist, pathExists, h, bind, Except.bind, pure, Except.pure]
  · have hd : s.isDir f = true := by simp [isEmptyDir] at h; exact h.1
    simp [mustBeEndPoint, mustExist, pathExists, hd, h, bind, Except.bind, pure, Except.pure]

/-- `set_meta_data` of an end point whose last entry was just appended sets that entry. -/
theorem setMetaData_appended {d : FakePath} {x : Seg} {old : List (Entry μ)} (m : μ)
    (hend : s.isFile (d ++ [x]) = true ∨ s.isEmptyDir (d ++ [x]) = true)
    (hl : s.entries.entries.get? d = some (old ++ [⟨x, none⟩])) :
    setMetaData (d ++ [x]) m s = .ok () { s with entries := ⟨s.entries.entries.set d (old ++ [⟨x, some m⟩])⟩ } := by
  have hidx : EntryStore.lastIndex x (old ++ [⟨x, none⟩]) = some old.length :=
    EntryStore.lastIndex_append_cons old [] _ x rfl (by simp)
  have hloc : s.entries.locateEntryByFakePath (d ++ [x]) = .ok (d, old.length) := by
    simp [EntryStore.locateEntryByFakePath, EntryStore.locateEntry_eq, hl, hidx, Except.map]
  have hget : s.entries.getEntry (d ++ [x]) = .ok ⟨x, none⟩ := by
    simp [EntryStore.getEntry, hloc, EntryStore.getAllEntries, hl, bind, Except.bind, pure, Except.pure]
  simp [setMetaData, mustBeEndPoint_of hend, hloc, hget, onEntries, EntryStore.updateEntry, hl,
    modify_length_append]

end SetMetaData

namespace AddsAlong
variable {μ : Type} {s : PyTypesPathStore μ} {f q : FakePath} {e' : EntryStore μ}

theorem get?_of_not_step (h : AddsAlong s f q e') {g : FakePath} (hg : ∀ y, ¬ g ++ [y] <+: f) :
    e'.entries.get? g = s.entries.entries.get? g :=
  h.same g fun y hy => absurd hy (hg y)

/-- An entry after the addition was there before, or is the new one of a step along `f`. -/
theorem mem_entry (h : AddsAlong s f q e') {p : FakePath} {e : Entry μ} (he : e ∈ (e'.entries.get? p).getD []) :
    e ∈ (s.entries.entries.get? p).getD [] ∨ ∃ y, p ++ [y] <+: f ∧ e = ⟨y, none⟩ := by
  by_cases hst : ∃ y, p ++ [y] <+: f ∧ ¬ (s.entries.Retires q ∧ p ++ [y] <+: q)
  · obtain ⟨y, hy, hr⟩ := hst
    rw [h.step p y hy hr, Option.getD_some, List.mem_append, List.mem_singleton] at he
    exact he.imp_right fun he => ⟨y, hy, he⟩
  · push_neg at hst
    rw [h.same p fun y hy => by simpa using hst y hy] at he
    exact .inl he

/-- Every step along `f` has a non-empty entry list afterwards. -/
theorem step_nonempty (h : AddsAlong s f q e') (hs : s.Invariant) {k : FakePath} {z : Seg} (hk : k ++ [z] <+: f) :
    ∃ l, e'.entries.get? k = some l ∧ l ≠ [] := by
  by_cases hr : s.entries.Retires q ∧ k ++ [z] <+: q
  · have hsame := h.same k fun y hy => by rw [prefix_step_unique hy hk]; exact hr
    have hmem := hs.names_along h.dir_q (k, z) ((mem_iterDirectoriesAndEntries _ _ _).2 ⟨k, z, rfl, hr.2⟩)
    cases hl : s.entries.entries.get? k with
    | none => rw [hl] at hmem; simp [EntryStore.names] at hmem
    | some l =>
      rw [hl, Option.getD_some] at hmem
      exact ⟨l, hsame.trans hl, fun hnil => by simp [hnil, EntryStore.names] at hmem⟩
  · exact ⟨_, h.step k z hk hr, by simp⟩

end AddsAlong

section Depth
variable {N : Nat} {s : PyTypesPathStore MetaData}

/-- Depth stratification: files `N` deep, directories other than `/` less deep, and on
every entry of a file or of an empty directory the splitters of its depth. -/
structure Stratified (N : Nat) (s : PyTypesPathStore MetaData) : Prop where
  inv : s.Invariant
  file_depth : ∀ f, s.isFile f = true → f.length = N
  dir_depth : ∀ d, s.isDir d = true → d ≠ [] → d.length < N
  splitters : ∀ p e, e ∈ (s.entries.entries.get? p).getD [] →
    s.isFile (p ++ [e.name]) = true ∨ s.isEmptyDir (p ++ [e.name]) = true →
    ∃ m, e.metaData = some m ∧ m.splitters.length = p.length + 1

theorem initial_stratified (N : Nat) : Stratified N initial where
  inv := initial_invariant
  file_depth := by simp [initial, isFile, PathMapping.getRealPath, PathMapping.empty]
  dir_depth := by simp [initial, EntryStore.initial, isDir]
  splitters := by
    intro p e he
    simp [initial, EntryStore.initial] at he
    split at he <;> simp at he

namespace Stratified

theorem of_shrinks (h : Stratified N s) {s' : PyTypesPathStore MetaData} (hsh : Shrinks s s') (hinv : s'.Invariant) :
    Stratified N s' :=
  ⟨hinv, fun f hf => h.file_depth f (hsh.file f hf), fun d hd hd0 => h.dir_depth d (hsh.dir d hd) hd0,
    fun p e he hend => h.splitters p e (hsh.entry p e he) (hend.imp (hsh.file _) (hsh.empty_dir _ (by simp)))⟩

theorem remove (h : Stratified N s) (f : FakePath) (ro : Option RealPath) :
    Stratified N (stateOf (PyTypesPathStore.remove f ro s)) :=
  h.of_shrinks (h.inv.remove_shrinks f ro) (h.inv.remove_invariant f ro)

/-- No proper ancestor of a path at most `N` deep is a file. -/
theorem not_isFile_above (h : Stratified N s) {f a : FakePath} (hf : f.length ≤ N) (ha : a <+: f) (hne : a ≠ f) :
    s.isFile a = false := by
  cases hfa : s.isFile a
  · rfl
  · have h₁ := h.file_depth a hfa
    have h₂ := ha.length_le
    have h₃ : a.length ≠ f.length := fun e => hne (ha.eq_of_length e)
    omega

/-- The entries after an addition of `f = d ++ [x]` followed by `set_meta_data` of `f`:
every entry of a file or an empty directory still carries its splitters. -/
theorem splitters_of_add (h : Stratified N s) {f q : FakePath} {e' : EntryStore MetaData} (hadd : AddsAlong s f q e')
    {d : FakePath} {x : Seg} (hf : f = d ++ [x]) {m : MetaData} (hm : m.splitters.length = f.length)
    (s'' : PyTypesPathStore MetaData) (hinv : s''.Invariant)
    (hent : ∀ p, p ≠ d → p ≠ f → s''.entries.entries.get? p = e'.entries.get? p)
    (hd : s''.entries.entries.get? d = some ((s.entries.entries.get? d).getD [] ++ [⟨x, some m⟩]))
    (hfent : (s''.entries.entries.get? f).getD [] = [])
    (hfile : ∀ g, s''.isFile g = true → g = f ∨ s.isFile g = true)
    (hold : x ∈ EntryStore.names ((s.entries.entries.get? d).getD []) → s.isFile f = true)
    (p : FakePath) (e : Entry MetaData) (he : e ∈ (s''.entries.entries.get? p).getD [])
    (hend : s''.isFile (p ++ [e.name]) = true ∨ s''.isEmptyDir (p ++ [e.name]) = true) :
    ∃ m, e.metaData = some m ∧ m.splitters.length = p.length + 1 := by
  -- a step along `f` is a directory with entries afterwards, so no end point
  have hstep : ∀ k z, k ++ [z] <+: f → ∃ l, s''.entries.entries.get? k = some l ∧ l ≠ [] := fun k z hk => by
    by_cases hkd : k = d
    · exact ⟨_, hkd ▸ hd, by simp⟩
    · have hkf : k ≠ f := by rintro rfl; exact not_step_prefix_self hk
      rw [hent k hkd hkf]
      exact hadd.step_nonempty h.inv hk
  have hnot_end : ∀ g, g <+: f → g ≠ f → ¬ (s''.isFile g = true ∨ s''.isEmptyDir g = true) := fun g hg hgf => by
    obtain ⟨z, hz⟩ := exists_step_of_prefix_ne hg hgf
    obtain ⟨l, hl, hne⟩ := hstep g z hz
    have hdir : s''.isDir g = true := by simp [isDir, Dict.contains, Dict.mem_keys_iff, hl]
    simp [hinv.isFile_eq_false_of_isDir hdir, isEmptyDir, hl, hne]
  -- an old entry of another path keeps what it had
  have hgeneric : e ∈ (s.entries.entries.get? p).getD [] → p ++ [e.name] ≠ f →
      ∃ m, e.metaData = some m ∧ m.splitters.length = p.length + 1 := fun hold' hgf => by
    refine h.splitters p e hold' (hend.imp (fun hg => ((hfile _ hg).resolve_left hgf)) fun hg => ?_)
    have hgd : p ++ [e.name] ≠ d := by
      rintro hgd
      simp [isEmptyDir, hgd, hd] at hg
    have hns : ∀ z, ¬ (p ++ [e.name]) ++ [z] <+: f := fun z hz => by
      obtain ⟨l, hl, hne⟩ := hstep _ z hz
      simp [isEmptyDir, hl, hne] at hg
    simp only [isEmptyDir, isDir, Dict.contains, Dict.mem_keys_iff, hent _ hgd hgf,
      hadd.get?_of_not_step hns] at hg ⊢
    exact hg
  by_cases hpf : p = f
  · subst hpf; rw [hfent] at he; simp at he
  by_cases hpd : p = d
  · subst hpd
    rw [hd, Option.getD_some, List.mem_append, List.mem_singleton] at he
    rcases he with he | rfl
    · by_cases hex : e.name = x
      · refine h.splitters p e he (.inl ?_)
        rw [hex, ← hf]
        exact hold (hex ▸ List.mem_map_of_mem Entry.name he)
      · exact hgeneric he fun hg => hex (by rw [hf] at hg; simpa using hg)
    · exact ⟨m, rfl, by rw [hm, hf]; simp⟩
  · rw [hent p hpd hpf] at he
    have hgf : p ++ [e.name] ≠ f := fun hg => hpd (by rw [hf] at hg; simpa using (List.append_inj' hg rfl).1)
    rcases hadd.mem_entry he with he | ⟨y, hy, rfl⟩
    · exact hgeneric he hgf
    · exact absurd hend (hnot_end _ hy hgf)

theorem addFile_setMetaData_append (h : Stratified N s) {d : FakePath} {x : Seg} (hf : (d ++ [x]).length = N)
    (r : RealPath) {m : MetaData} (hm : m.splitters.length = N) :
    Stratified N (stateOf ((addFile (d ++ [x]) r >>= fun _ => setMetaData (d ++ [x]) m) s)) := by
  have hanc : ∀ a, a <+: d ++ [x] → a ≠ d ++ [x] → s.isFile a = false :=
    fun a ha hne => h.not_isFile_above hf.le ha hne
  rcases h.inv.addFile_cases (d ++ [x]) r with ⟨-, hrun⟩ | ⟨-, hrun⟩ | ⟨q, e', hnd, -, hadd, hrun⟩
  · rw [bind_of_error hrun]; exact h
  · rw [bind_of_error hrun]; exact h
  have hinv' := hadd.invariant_addFile h.inv hnd hanc r
  have hl : e'.entries.get? d = some ((s.entries.entries.get? d).getD [] ++ [⟨x, none⟩]) :=
    hadd.step d x List.prefix_rfl fun hr => hadd.not_prefix_q hr.2
  have hfile' : (⟨s.pathMapping.addRealPath (d ++ [x]) r, e'⟩ : PyTypesPathStore MetaData).isFile (d ++ [x]) = true := by
    simp [isFile]
  have hset := setMetaData_appended m (.inl hfile') hl
  rw [bind_of_ok hrun, hset]
  have hinv'' := hinv'.setMetaData_invariant (d ++ [x]) m
  rw [hset] at hinv''
  have hfile : ∀ g, (⟨s.pathMapping.addRealPath (d ++ [x]) r, e'⟩ : PyTypesPathStore MetaData).isFile g = true →
      g = d ++ [x] ∨ s.isFile g = true := fun g hg => by
    by_cases hg' : d ++ [x] = g
    · exact .inl hg'.symm
    · exact .inr (by simpa [isFile, hg'] using hg)
  have hdf : d ≠ d ++ [x] := by simp
  refine ⟨hinv'', fun g hg => ?_, fun g hg hg0 => ?_,
    h.splitters_of_add hadd rfl (hm.trans hf.symm) _ hinv'' (fun p hpd _ => by simp [Ne.symm hpd]) (by simp)
      ?_ hfile fun hx => ((h.inv.exists_of_mem_names hx).resolve_right (by simp [hnd]))⟩
  · rcases hfile g hg with rfl | hg
    · exact hf
    · exact h.file_depth g hg
  · have hfN : d.length + 1 = N := by simpa using hf
    by_cases hdg : d = g
    · subst hdg; omega
    have hg' : e'.entries.contains g = true := by simpa [isDir, Dict.contains, Dict.mem_keys_iff, hdg] using hg
    rcases (hadd.contains_iff h.inv g).1 hg' with hg' | ⟨y, hy⟩
    · exact h.dir_depth g hg' hg0
    · have := hy.length_le; simp at this; omega
  · have hnone : s.entries.entries.get? (d ++ [x]) = none :=
      Dict.get?_eq_none_of_contains (by simpa using hnd)
    simp [Ne.symm hdf, hadd.get?_of_not_step fun y hy => not_step_prefix_self hy, hnone]

theorem addDirectory_setMetaData_append (h : Stratified N s) {d : FakePath} {x : Seg} (hf : (d ++ [x]).length < N)
    {m : MetaData} (hm : m.splitters.length = (d ++ [x]).length) :
    Stratified N (stateOf ((addDirectory (d ++ [x]) >>= fun _ => setMetaData (d ++ [x]) m) s)) := by
  have hanc : ∀ a, a <+: d ++ [x] → a ≠ d ++ [x] → s.isFile a = false :=
    fun a ha hne => h.not_isFile_above hf.le ha hne
  rcases h.inv.addDirectory_cases (d ++ [x]) with ⟨-, hrun⟩ | ⟨q, e', hex, hadd, hrun⟩
  · rw [bind_of_error hrun]; exact h
  have hnf : s.isFile (d ++ [x]) = false := by simp [pathExists] at hex; exact hex.1
  have hnd : s.isDir (d ++ [x]) = false := by simp [pathExists] at hex; exact hex.2
  have hdf : d ≠ d ++ [x] := by simp
  have hinv' := hadd.invariant_addDirectory h.inv hex hanc
  have hl : (e'.entries.set (d ++ [x]) []).get? d = some ((s.entries.entries.get? d).getD [] ++ [⟨x, none⟩]) := by
    rw [Dict.get?_set, if_neg (Ne.symm hdf)]
    exact hadd.step d x List.prefix_rfl fun hr => hadd.not_prefix_q hr.2
  have hempty : (⟨s.pathMapping, ⟨e'.entries.set (d ++ [x]) []⟩⟩ : PyTypesPathStore MetaData).isEmptyDir (d ++ [x])
      = true := by simp [isEmptyDir, isDir, Dict.contains, Dict.mem_keys_iff]
  have hset := setMetaData_appended m (.inr hempty) hl
  rw [bind_of_ok hrun, hset]
  have hinv'' := hinv'.setMetaData_invariant (d ++ [x]) m
  rw [hset] at hinv''
  refine ⟨hinv'', fun g hg => h.file_depth g hg, fun g hg hg0 => ?_,
    h.splitters_of_add hadd rfl hm _ hinv'' (fun p hpd hpf => by simp [Ne.symm hpd, Ne.symm hpf]) (by simp [hl])
      (by simp [Ne.symm hdf]) (fun g hg => .inr hg) fun hx => ?_⟩
  · have hlen : (d ++ [x]).length = d.length + 1 := by simp
    by_cases hdg : d = g
    · subst hdg; omega
    by_cases hfg : d ++ [x] = g
    · subst hfg; exact hf
    have hg' : e'.entries.contains g = true := by simpa [isDir, Dict.contains, Dict.mem_keys_iff, hdg, hfg] using hg
    rcases (hadd.contains_iff h.inv g).1 hg' with hg' | ⟨y, hy⟩
    · exact h.dir_depth g hg' hg0
    · have := hy.length_le; simp at this; omega
  · rcases h.inv.exists_of_mem_names hx with hx | hx
    · simp [hnf] at hx
    · simp [hnd] at hx

/-- `add_file` of a path `N` deep, then `set_meta_data` with `N` splitters. -/
theorem addFile_setMetaData (h : Stratified N s) {f : FakePath} (hf : f.length = N) (r : RealPath) {m : MetaData}
    (hm : m.splitters.length = N) : Stratified N (stateOf ((addFile f r >>= fun _ => setMetaData f m) s)) := by
  rcases eq_nil_or_append f with rfl | ⟨d, x, rfl⟩
  · rw [bind_of_error (show addFile [] r s = .error (.pathExists []) s by simp [addFile, h.inv.root_dir])]
    exact h
  · exact h.addFile_setMetaData_append hf r hm

/-- `add_directory` of a path less than `N` deep, then `set_meta_data` with one splitter
per segment. -/
theorem addDirectory_setMetaData (h : Stratified N s) {f : FakePath} (hf : f.length < N) {m : MetaData}
    (hm : m.splitters.length = f.length) :
    Stratified N (stateOf ((addDirectory f >>= fun _ => setMetaData f m) s)) := by
  rcases eq_nil_or_append f with rfl | ⟨d, x, rfl⟩
  · rw [bind_of_error (show addDirectory [] s = .error (.pathExists []) s by
      simp [addDirectory, mustNotExist, pathExists, h.inv.root_dir])]
    exact h
  · exact h.addDirectory_setMetaData_append hf hm

/-- Every end point other than `/` has metadata with one splitter per segment. -/
theorem getMetaData_of_endPoint (h : Stratified N s) {f : FakePath} (hf0 : f ≠ [])
    (hend : s.isFile f = true ∨ s.isEmptyDir f = true) :
    ∃ m, s.getMetaData f = .ok m ∧ m.splitters.length = f.length := by
  obtain ⟨d, x, rfl⟩ := (eq_nil_or_append f).resolve_left hf0
  have hdir : s.isDir d = true ∨ s.isDir (d ++ [x]) = true → s.isDir d = true := fun h' => by
    rcases h' with h' | h'
    · exact h'
    · simpa using h.inv.dir_parent _ h' hf0
  have hd : s.isDir d = true := by
    rcases hend with hend | hend
    · simpa using (h.inv.file_parent _ hend).2
    · exact hdir (.inr (by simp [isEmptyDir] at hend; exact hend.1))
  have hx := h.inv.mem_names hd (hend.imp_right fun hend => by simp [isEmptyDir] at hend; exact hend.1)
  obtain ⟨l, hl⟩ : ∃ l, s.entries.entries.get? d = some l :=
    Dict.exists_of_contains hd
  rw [hl, Option.getD_some] at hx
  obtain ⟨l₁, e, l₂, rfl, hex, h₂⟩ := EntryStore.exists_last l x hx
  obtain ⟨m, hm, hlen⟩ := h.splitters d e (by rw [hl]; simp) (by rw [hex]; exact hend)
  refine ⟨m, ?_, by simp [hlen]⟩
  have hloc : s.entries.locateEntryByFakePath (d ++ [x]) = .ok (d, l₁.length) := by
    simp [EntryStore.locateEntryByFakePath, EntryStore.locateEntry_eq, hl,
      EntryStore.lastIndex_append_cons _ _ _ _ hex h₂, Except.map]
  have hb : l₁.length < (l₁ ++ e :: l₂).length := by simp
  have hget : (l₁ ++ e :: l₂)[l₁.length] = e := List.getElem_of_append rfl rfl
  simp [getMetaData, mustBeEndPoint_of hend, EntryStore.getEntry, hloc, EntryStore.getAllEntries, hl, hget, hm,
    bind, Except.bind, pure, Except.pure]

end Stratified

end Depth

end PyTypesPathStore
end PyTagsFs
