import PyTagsFs.PathStoreInvariant

/-! # Adding an end point keeps the invariant

`add_file` and `add_directory` both run `add_entries_and_directories_recursive` on a path
that is not a directory. On a store that satisfies the invariant, that loop adds one
occurrence at every step along the path, below the deepest existing directory `q`, except
above `q` when `q` is an empty directory end point: it is retired, so the number of end
points above it does not change. The weight of every non-root prefix of the path goes up
by one (`addDelta`), and so does the count of its name in its parent: the invariant's
`occurrences` is preserved as a sum. -/
namespace PyTagsFs

theorem prefix_step_unique {k f : FakePath} {x y : Seg} (hx : k ++ [x] <+: f) (hy : k ++ [y] <+: f) : x = y := by
  have := (List.prefix_of_prefix_length_le hx hy (by simp)).eq_of_length (by simp)
  simpa using this

theorem exists_step_of_prefix_ne {p f : FakePath} (hp : p <+: f) (hne : p ≠ f) : ∃ x, p ++ [x] <+: f := by
  obtain ⟨t, rfl⟩ := hp
  cases t with
  | nil => simp at hne
  | cons x t => exact ⟨x, by simp⟩

/-- A path other than `/` is one step below its parent. -/
theorem exists_step_of_ne_nil {d : FakePath} (hd : d ≠ []) : ∃ x, d.dropLast ++ [x] <+: d :=
  ⟨_, [], by rw [List.append_nil, List.dropLast_append_getLast hd]⟩

theorem not_step_prefix_self {p : FakePath} {x : Seg} : ¬ p ++ [x] <+: p := fun h => by
  have := h.length_le
  simp only [List.length_append, List.length_singleton] at this
  omega

namespace EntryStore
variable {μ : Type} {q r₁ : FakePath} {r₀ : Seg} {e e' : EntryStore μ}

theorem retires_iff {s : EntryStore μ} {q : FakePath} (hq : s.entries.contains q = true) :
    s.Retires q ↔ q ≠ [] ∧ (s.entries.get? q).getD [] = [] := by
  obtain ⟨l, hl⟩ := Dict.exists_of_contains hq
  simp [Retires, hl]

theorem AddedAlong.get?_step (h : AddedAlong q r₀ r₁ e e')
    (hfresh : ∀ st ∈ iterDirectoriesAndEntries (q ++ [r₀]) r₁, e.entries.get? st.1 = none)
    {k : FakePath} {x : Seg} (hk : k ++ [x] <+: q ++ r₀ :: r₁) (hr : ¬ (e.Retires q ∧ k ++ [x] <+: q)) :
    e'.entries.get? k = some ((e.entries.get? k).getD [] ++ [⟨x, none⟩]) := by
  rcases prefix_step_cases hk with hq | ⟨rfl, rfl⟩ | ⟨d, rfl, hd⟩
  · rw [h.above (k, x) ((mem_iterDirectoriesAndEntries _ _ _).2 ⟨k, x, rfl, hq⟩),
      if_neg fun hr' => hr ⟨hr', hq⟩]
  · exact h.at_q
  · have hmem : (q ++ r₀ :: d, x) ∈ iterDirectoriesAndEntries (q ++ [r₀]) r₁ :=
      (mem_iterDirectoriesAndEntries _ _ _).2 ⟨d, x, by simp, hd⟩
    rw [h.below _ hmem, hfresh _ hmem]
    rfl

theorem AddedAlong.get?_same (h : AddedAlong q r₀ r₁ e e') {k : FakePath}
    (hk : ∀ x, k ++ [x] <+: q ++ r₀ :: r₁ → e.Retires q ∧ k ++ [x] <+: q) :
    e'.entries.get? k = e.entries.get? k := by
  by_cases hs : ∃ x, k ++ [x] <+: q ++ r₀ :: r₁
  · obtain ⟨x, hx⟩ := hs
    obtain ⟨hr, hq⟩ := hk x hx
    rw [h.above (k, x) ((mem_iterDirectoriesAndEntries _ _ _).2 ⟨k, x, rfl, hq⟩), if_pos hr]
  · refine h.other k fun st hst hst' => hs ?_
    obtain ⟨d, x, rfl, hd⟩ := (mem_iterDirectoriesAndEntries _ _ _).1 hst
    exact ⟨x, by simpa [← hst'] using hd⟩

end EntryStore

namespace PathMapping
variable (m : PathMapping) (f p : FakePath) (r r' : RealPath)

@[simp] theorem forward_addRealPath : (m.addRealPath f r).forwardMapping.get? p =
    if f = p then some ((m.forwardMapping.get? f).getD [] ++ [r]) else m.forwardMapping.get? p := by
  simp only [addRealPath, DictList.append, Dict.get?_set]

@[simp] theorem reverse_addRealPath : (m.addRealPath f r).reverseMapping.get? r' =
    if r = r' then some ((m.reverseMapping.get? r).getD [] ++ [f]) else m.reverseMapping.get? r' := by
  simp only [addRealPath, DictList.append, Dict.get?_set]

@[simp] theorem getRealPath_addRealPath :
    (m.addRealPath f r).getRealPath p = if f = p then some r else m.getRealPath p := by
  unfold getRealPath
  split <;> simp_all

/-- A path without a real path has an empty stack. -/
theorem stack_eq_nil (h : m.getRealPath p = none) : (m.forwardMapping.get? p).getD [] = [] := by
  unfold getRealPath at h
  cases hp : m.forwardMapping.get? p with
  | none => rfl
  | some l => simpa [hp] using h

end PathMapping

namespace PyTypesPathStore
variable {μ : Type} {s : PyTypesPathStore μ} {f q : FakePath} {e' : EntryStore μ}

/-- `e'` is the entry store after one end point `f` is added to `s` below its deepest
directory `q`: each step along `f` gains an occurrence, but for the steps above `q` when
`f` retires `q`. -/
structure AddsAlong (s : PyTypesPathStore μ) (f q : FakePath) (e' : EntryStore μ) : Prop where
  dir_q : s.isDir q = true
  q_step : ∃ x, q ++ [x] <+: f
  deepest : ∀ p, p <+: f → q.length < p.length → s.isDir p = false
  step : ∀ k x, k ++ [x] <+: f → ¬ (s.entries.Retires q ∧ k ++ [x] <+: q) →
    e'.entries.get? k = some ((s.entries.entries.get? k).getD [] ++ [⟨x, none⟩])
  same : ∀ k, (∀ x, k ++ [x] <+: f → s.entries.Retires q ∧ k ++ [x] <+: q) →
    e'.entries.get? k = s.entries.entries.get? k

/-- How much the weight of `p` grows when `f` is added below `q`. -/
def addDelta (s : PyTypesPathStore μ) (f q p : FakePath) : Nat :=
  if p <+: f ∧ ¬ (s.entries.Retires q ∧ p <+: q) then 1 else 0

theorem Invariant.addsAlong (hs : s.Invariant) (hf : f ≠ []) (hnd : s.isDir f = false) :
    ∃ q e', AddsAlong s f q e' ∧ EntryStore.addEntriesAndDirectoriesRecursive f s.entries = .ok () e' := by
  obtain ⟨q, r₀, r₁, rfl, hq, hdeep⟩ := hs.exists_deepest_dir hf hnd
  have hfresh : ∀ st ∈ iterDirectoriesAndEntries (q ++ [r₀]) r₁, s.entries.entries.get? st.1 = none := by
    intro st hst
    obtain ⟨d, x, rfl, hd⟩ := (mem_iterDirectoriesAndEntries _ _ _).1 hst
    have hpre : q ++ [r₀] ++ d <+: q ++ r₀ :: r₁ := by
      simpa using (List.prefix_append_right_inj (q ++ [r₀])).2 ((List.prefix_append d [x]).trans hd)
    exact (Dict.get?_eq_none_iff _ _).2 (by simpa [isDir, Dict.contains] using hdeep _ hpre (by simp))
  obtain ⟨e', hrun, hadd⟩ := EntryStore.addEntriesAndDirectoriesRecursive_spec q r₀ r₁ s.entries hq
    (hs.names_along hq) hfresh
  exact ⟨q, e', ⟨hq, ⟨r₀, by simp⟩, hdeep, fun k x hk hr => hadd.get?_step hfresh hk hr,
    fun k hk => hadd.get?_same hk⟩, hrun⟩

namespace AddsAlong

theorem count_names (h : AddsAlong s f q e') (d : FakePath) (n : Seg) :
    (EntryStore.names ((e'.entries.get? d).getD [])).count n =
      (EntryStore.names ((s.entries.entries.get? d).getD [])).count n + s.addDelta f q (d ++ [n]) := by
  unfold addDelta
  by_cases hst : ∃ x, d ++ [x] <+: f ∧ ¬ (s.entries.Retires q ∧ d ++ [x] <+: q)
  · obtain ⟨x, hx, hr⟩ := hst
    rw [h.step d x hx hr]
    by_cases hn : n = x
    · subst hn; simp [EntryStore.names, hx, hr]
    · have : ¬ d ++ [n] <+: f := fun hn' => hn (prefix_step_unique hn' hx)
      simp [EntryStore.names, this, List.count_cons, Ne.symm hn]
  · push_neg at hst
    rw [h.same d fun x hx => by simpa using hst x hx]
    by_cases hn : d ++ [n] <+: f
    · simp [hst n hn]
    · simp [hn]

theorem contains_iff (h : AddsAlong s f q e') (hs : s.Invariant) (k : FakePath) :
    e'.entries.contains k = true ↔ s.isDir k = true ∨ ∃ x, k ++ [x] <+: f := by
  by_cases hst : ∃ x, k ++ [x] <+: f ∧ ¬ (s.entries.Retires q ∧ k ++ [x] <+: q)
  · obtain ⟨x, hx, hr⟩ := hst
    refine ⟨fun _ => .inr ⟨x, hx⟩, fun _ => ?_⟩
    simp [Dict.contains_iff, Dict.mem_keys_iff, h.step k x hx hr]
  · push_neg at hst
    have hsame := h.same k fun x hx => by simpa using hst x hx
    simp only [Dict.contains_iff, Dict.mem_keys_iff, hsame]
    refine ⟨fun hk => .inl (by simpa [isDir, Dict.contains_iff, Dict.mem_keys_iff] using hk), ?_⟩
    rintro (hk | ⟨x, hx⟩)
    · simpa [isDir, Dict.contains_iff, Dict.mem_keys_iff] using hk
    · have := hs.isDir_of_prefix h.dir_q ((List.prefix_append _ _).trans (hst x hx).2)
      simpa [isDir, Dict.contains_iff, Dict.mem_keys_iff] using this

/-- Away from `f` itself, a prefix of `f` is a directory afterwards whose entry count,
floored at one, is its old weight plus `addDelta`. -/
theorem dirWeight (h : AddsAlong s f q e') (hs : s.Invariant)
    (hanc : ∀ a, a <+: f → a ≠ f → s.isFile a = false) {p : FakePath} (hp : p <+: f) (hpf : p ≠ f)
    (hp0 : p ≠ []) : max 1 ((e'.entries.get? p).getD []).length = s.weight p + s.addDelta f q p := by
  obtain ⟨x, hx⟩ := exists_step_of_prefix_ne hp hpf
  have hfile := hanc p hp hpf
  have hqdir : s.entries.entries.contains q = true := h.dir_q
  unfold addDelta
  by_cases hr : s.entries.Retires q ∧ p ++ [x] <+: q
  · -- strictly above a retired `q`: the list is the old one
    have hdir : s.isDir p = true := hs.isDir_of_prefix h.dir_q ((List.prefix_append _ _).trans hr.2)
    have hnot : ¬ (p <+: f ∧ ¬ (s.entries.Retires q ∧ p <+: q)) :=
      fun h' => h'.2 ⟨hr.1, (List.prefix_append _ _).trans hr.2⟩
    rw [h.same p fun y hy => by rw [prefix_step_unique hy hx]; exact hr, hs.weight_of_isDir hdir, if_neg hnot]
    rfl
  · rw [h.step p x hx hr]
    by_cases hpq : p = q ∧ s.entries.Retires q
    · -- the retired `q` itself: one entry where there was none
      obtain ⟨rfl, hret⟩ := hpq
      have hnil := ((EntryStore.retires_iff hqdir).1 hret).2
      rw [hs.weight_of_isDir h.dir_q, hnil, if_neg fun h' => h'.2 ⟨hret, List.prefix_rfl⟩]
      rfl
    · have hδ : p <+: f ∧ ¬ (s.entries.Retires q ∧ p <+: q) := by
        refine ⟨hp, fun ⟨hret, hpq'⟩ => ?_⟩
        rcases Nat.lt_or_ge p.length q.length with hlt | hge
        · exact hr ⟨hret, List.prefix_of_prefix_length_le hx ((List.prefix_append _ _).trans (h.q_step.choose_spec))
            (by simpa using hlt)⟩
        · exact hpq ⟨hpq'.eq_of_length (le_antisymm hpq'.length_le hge), hret⟩
      rw [if_pos hδ]
      by_cases hdir : s.isDir p = true
      · have hne : (s.entries.entries.get? p).getD [] ≠ [] := by
          rcases Nat.lt_trichotomy p.length q.length with hlt | heq | hgt
          · have hxq : p ++ [x] <+: q := List.prefix_of_prefix_length_le hx
              ((List.prefix_append _ _).trans h.q_step.choose_spec) (by simpa using hlt)
            have := hs.mem_names hdir (.inr (hs.isDir_of_prefix h.dir_q hxq))
            intro hnil; rw [hnil] at this; simp [EntryStore.names] at this
          · have hpq' : p = q := (List.prefix_of_prefix_length_le hp
              ((List.prefix_append _ _).trans h.q_step.choose_spec) heq.le).eq_of_length heq
            subst hpq'
            intro hnil
            exact hpq ⟨rfl, (EntryStore.retires_iff hqdir).2 ⟨hp0, hnil⟩⟩
          · simp [h.deepest p hp hgt] at hdir
        rw [hs.weight_of_isDir hdir, Option.getD_some, List.length_append]
        have := List.length_pos.2 hne
        simp only [List.length_singleton]
        omega
      · have hnone : s.entries.entries.get? p = none :=
          Dict.get?_eq_none_of_contains (by simpa using hdir)
        rw [weight_eq_zero hfile (by simpa using hdir), hnone]
        rfl

theorem isDir_iff (h : AddsAlong s f q e') (hs : s.Invariant) (m : PathMapping) (p : FakePath) :
    (⟨m, e'⟩ : PyTypesPathStore μ).isDir p = true ↔ s.isDir p = true ∨ ∃ x, p ++ [x] <+: f :=
  h.contains_iff hs p

theorem not_prefix_q (h : AddsAlong s f q e') : ¬ f <+: q := fun hfq => by
  obtain ⟨x, hx⟩ := h.q_step
  have := (hx.trans hfq).length_le
  simp only [List.length_append, List.length_singleton] at this
  omega

/-- Away from the new end point, the weight grows by `addDelta` in any store whose entry
lists are those of `e'` and whose files are those of `s`. -/
theorem weight_of_ne (h : AddsAlong s f q e') (hs : s.Invariant)
    (hanc : ∀ a, a <+: f → a ≠ f → s.isFile a = false) (s' : PyTypesPathStore μ)
    (hent : ∀ p, p ≠ f → s'.entries.entries.get? p = e'.entries.get? p)
    (hmap : ∀ p, p ≠ f → s'.pathMapping.forwardMapping.get? p = s.pathMapping.forwardMapping.get? p)
    {p : FakePath} (hp0 : p ≠ []) (hpf : p ≠ f) : s'.weight p = s.weight p + s.addDelta f q p := by
  have hfile : s'.isFile p = s.isFile p := by simp [isFile, PathMapping.getRealPath, hmap p hpf]
  have hdir : s'.isDir p = e'.entries.contains p := by
    simp only [isDir, Dict.contains, Dict.mem_keys_iff, hent p hpf]
  by_cases hpre : p <+: f
  · have hdir' : s'.isDir p = true :=
      hdir ▸ (h.contains_iff hs p).2 (.inr (exists_step_of_prefix_ne hpre hpf))
    have hw : s'.weight p = max 1 ((e'.entries.get? p).getD []).length := by
      simp only [weight, hfile, hanc p hpre hpf, hdir', Bool.false_eq_true, if_false, if_true, hent p hpf]
    rw [hw]
    exact h.dirWeight hs hanc hpre hpf hp0
  · have hsame : e'.entries.get? p = s.entries.entries.get? p :=
      h.same p fun x hx => absurd ((List.prefix_append _ _).trans hx) hpre
    have hδ : s.addDelta f q p = 0 := if_neg fun h' => hpre h'.1
    have hdir' : s'.isDir p = s.isDir p := by
      rw [hdir]; simp only [isDir, Dict.contains, Dict.mem_keys_iff, hsame]
    simp only [weight, hfile, hdir', hent p hpf, hsame, hδ, hmap p hpf, Nat.add_zero]

/-- Counts that grow by `addDelta` and weights that grow by `addDelta` keep `occurrences`. -/
theorem occurrences_of_delta (hs : s.Invariant) (s' : PyTypesPathStore μ)
    (hcount : ∀ d n, s'.isDir d = true → (EntryStore.names ((s'.entries.entries.get? d).getD [])).count n =
      (EntryStore.names ((s.entries.entries.get? d).getD [])).count n + s.addDelta f q (d ++ [n]))
    (hweight : ∀ p, p ≠ [] → s'.weight p = s.weight p + s.addDelta f q p) (d : FakePath) (n : Seg)
    (hd : s'.isDir d = true) :
    (EntryStore.names ((s'.entries.entries.get? d).getD [])).count n = s'.weight (d ++ [n]) := by
  rw [hcount d n hd, hweight _ (by simp)]
  by_cases hdd : s.isDir d = true
  · rw [hs.occurrences d n hdd]
  · have hnone : s.entries.entries.get? d = none :=
      Dict.get?_eq_none_of_contains (by simpa using hdd)
    have hc := hs.child_of_not_isDir (by simpa using hdd) n
    rw [hnone, weight_eq_zero hc.1 hc.2]
    rfl

theorem weight_addFile (h : AddsAlong s f q e') (hs : s.Invariant) (hd : s.isDir f = false)
    (hanc : ∀ a, a <+: f → a ≠ f → s.isFile a = false) (r : RealPath) {p : FakePath} (hp0 : p ≠ []) :
    (⟨s.pathMapping.addRealPath f r, e'⟩ : PyTypesPathStore μ).weight p = s.weight p + s.addDelta f q p := by
  by_cases hpf : p = f
  · subst hpf
    have hδ : s.addDelta p q p = 1 := if_pos ⟨List.prefix_rfl, fun hr => h.not_prefix_q hr.2⟩
    rw [hδ]
    by_cases hfile : s.isFile p = true
    · have hw : s.weight p = ((s.pathMapping.forwardMapping.get? p).getD []).length := by simp [weight, hfile]
      rw [hw]
      simp [weight, isFile]
    · have hnil := PathMapping.stack_eq_nil _ _ (by simpa [isFile] using hfile)
      simp [weight, isFile, hnil, hd, show s.isFile p = false by simpa using hfile]
  · exact h.weight_of_ne hs hanc _ (fun _ _ => rfl) (fun p' hp' => by simp [Ne.symm hp']) hp0 hpf

theorem invariant_addFile (h : AddsAlong s f q e') (hs : s.Invariant) (hd : s.isDir f = false)
    (hanc : ∀ a, a <+: f → a ≠ f → s.isFile a = false) (r : RealPath) :
    (⟨s.pathMapping.addRealPath f r, e'⟩ : PyTypesPathStore μ).Invariant := by
  have hfile : ∀ p, (⟨s.pathMapping.addRealPath f r, e'⟩ : PyTypesPathStore μ).isFile p = true ↔
      f = p ∨ s.isFile p = true := by
    intro p; by_cases hfp : f = p <;> simp [isFile, hfp]
  have hdir := h.isDir_iff hs (s.pathMapping.addRealPath f r)
  have hf0 : f ≠ [] := by rintro rfl; simp [hs.root_dir] at hd
  refine ⟨(hdir []).2 (.inl hs.root_dir), ?_, ?_, ?_, ?_, ?_, ?_, ?_⟩
  · -- file_not_dir
    intro p hp
    rw [Bool.eq_false_iff]
    intro hp'
    rcases (hfile p).1 hp with rfl | hpf
    · rcases (hdir f).1 hp' with hpd | ⟨x, hx⟩
      · simp [hd] at hpd
      · exact not_step_prefix_self hx
    · rcases (hdir p).1 hp' with hpd | ⟨x, hx⟩
      · simp [hs.file_not_dir p hpf] at hpd
      · have hne : p ≠ f := by rintro rfl; exact not_step_prefix_self hx
        simp [hanc p ((List.prefix_append _ _).trans hx) hne] at hpf
  · -- forward_nonempty
    intro p l hl
    simp only [PathMapping.forward_addRealPath] at hl
    split at hl
    · cases hl; simp
    · exact hs.forward_nonempty p l hl
  · -- reverse_nonempty
    intro r' l hl
    simp only [PathMapping.reverse_addRealPath] at hl
    split at hl
    · cases hl; simp
    · exact hs.reverse_nonempty r' l hl
  · -- inverse
    intro p r'
    simp only [PathMapping.forward_addRealPath, PathMapping.reverse_addRealPath]
    have := hs.inverse p r'
    by_cases hfp : f = p <;> by_cases hrr : r = r' <;> simp [hfp, hrr, List.count_append, List.count_cons, this]
  · -- file_parent
    intro p hp
    rcases (hfile p).1 hp with rfl | hpf
    · exact ⟨hf0, (hdir _).2 (.inr (exists_step_of_ne_nil hf0))⟩
    · exact ⟨(hs.file_parent p hpf).1, (hdir _).2 (.inl (hs.file_parent p hpf).2)⟩
  · -- dir_parent
    intro d hd' hd0
    rcases (hdir d).1 hd' with hdd | ⟨x, hx⟩
    · exact (hdir _).2 (.inl (hs.dir_parent d hdd hd0))
    · obtain ⟨y, hy⟩ := exists_step_of_ne_nil hd0
      exact (hdir _).2 (.inr ⟨y, hy.trans ((List.prefix_append _ _).trans hx)⟩)
  · -- occurrences
    exact occurrences_of_delta hs _ (fun d n _ => h.count_names d n) (fun p hp => h.weight_addFile hs hd hanc r hp)

theorem invariant_addDirectory (h : AddsAlong s f q e') (hs : s.Invariant) (hex : s.pathExists f = false)
    (hanc : ∀ a, a <+: f → a ≠ f → s.isFile a = false) :
    (⟨s.pathMapping, ⟨e'.entries.set f []⟩⟩ : PyTypesPathStore μ).Invariant := by
  have hnf : s.isFile f = false := by simp [pathExists] at hex; exact hex.1
  have hnd : s.isDir f = false := by simp [pathExists] at hex; exact hex.2
  have hdir : ∀ p, (⟨s.pathMapping, ⟨e'.entries.set f []⟩⟩ : PyTypesPathStore μ).isDir p = true ↔
      s.isDir p = true ∨ (∃ x, p ++ [x] <+: f) ∨ p = f := by
    intro p
    have := h.contains_iff hs p
    by_cases hpf : f = p
    · subst hpf; simp [isDir, Dict.contains]
    · simp only [isDir, Dict.contains, Dict.mem_keys_set_iff, hpf, false_or, decide_eq_true_eq] at this ⊢
      simp [this, Ne.symm hpf]
  have hδf : ∀ n, s.addDelta f q (f ++ [n]) = 0 := fun n => if_neg fun h' => not_step_prefix_self h'.1
  have hweight : ∀ p, p ≠ [] → (⟨s.pathMapping, ⟨e'.entries.set f []⟩⟩ : PyTypesPathStore μ).weight p =
      s.weight p + s.addDelta f q p := by
    intro p hp0
    by_cases hpf : p = f
    · subst hpf
      have hδ : s.addDelta p q p = 1 := if_pos ⟨List.prefix_rfl, fun hr => h.not_prefix_q hr.2⟩
      rw [hδ, weight_eq_zero hnf hnd]
      have hnf' : (s.pathMapping.getRealPath p).isSome = false := hnf
      simp [weight, isFile, hnf', isDir, Dict.contains]
    · refine h.weight_of_ne hs hanc ⟨s.pathMapping, ⟨e'.entries.set f []⟩⟩ (fun p' hp' => ?_) (fun _ _ => rfl) hp0 hpf
      show (e'.entries.set f []).get? p' = _
      rw [Dict.get?_set, if_neg (Ne.symm hp')]
  refine ⟨(hdir []).2 (.inl hs.root_dir), ?_, hs.forward_nonempty, hs.reverse_nonempty, hs.inverse, ?_, ?_, ?_⟩
  · -- file_not_dir
    intro p hp
    change s.isFile p = true at hp
    rw [Bool.eq_false_iff]
    intro hp'
    rcases (hdir p).1 hp' with hpd | ⟨x, hx⟩ | rfl
    · simp [hs.file_not_dir p hp] at hpd
    · have hne : p ≠ f := by rintro rfl; exact not_step_prefix_self hx
      simp [hanc p ((List.prefix_append _ _).trans hx) hne] at hp
    · simp [hnf] at hp
  · -- file_parent
    intro p hp
    exact ⟨(hs.file_parent p hp).1, (hdir _).2 (.inl (hs.file_parent p hp).2)⟩
  · -- dir_parent
    intro d hd' hd0
    obtain ⟨y, hy⟩ := exists_step_of_ne_nil hd0
    rcases (hdir d).1 hd' with hdd | ⟨x, hx⟩ | rfl
    · exact (hdir _).2 (.inl (hs.dir_parent d hdd hd0))
    · exact (hdir _).2 (.inr (.inl ⟨y, hy.trans ((List.prefix_append _ _).trans hx)⟩))
    · exact (hdir _).2 (.inr (.inl ⟨y, hy⟩))
  · -- occurrences
    refine occurrences_of_delta hs _ (fun d n _ => ?_) hweight
    by_cases hdf : f = d
    · subst hdf
      have hnone : s.entries.entries.get? f = none :=
        Dict.get?_eq_none_of_contains (by simpa using hnd)
      simp [hnone, hδf, EntryStore.names]
    · simp only [Dict.get?_set, hdf, if_false]
      exact h.count_names d n

end AddsAlong

theorem Invariant.addFile_cases (hs : s.Invariant) (f : FakePath) (r : RealPath) :
    (s.isDir f = true ∧ addFile f r s = .error (.pathExists f) s) ∨
    (s.pathMapping.getRealPath f = some r ∧ addFile f r s = .error .valueError s) ∨
    (∃ q e', s.isDir f = false ∧ s.pathMapping.getRealPath f ≠ some r ∧ AddsAlong s f q e' ∧
      addFile f r s = .ok () ⟨s.pathMapping.addRealPath f r, e'⟩) := by
  by_cases hd : s.isDir f = true
  · exact .inl ⟨hd, by simp [addFile, hd]⟩
  have hd' : s.isDir f = false := by simpa using hd
  have hf : f ≠ [] := by rintro rfl; exact hd hs.root_dir
  obtain ⟨q, e', hadd, hrun⟩ := hs.addsAlong hf hd'
  by_cases hr : s.pathMapping.getRealPath f = some r
  · exact .inr (.inl ⟨hr, by simp [addFile, hd', getRealPath, hr, pure, Except.pure, EStateM.pure]⟩)
  refine .inr (.inr ⟨q, e', hd', hr, hadd, ?_⟩)
  cases hget : s.pathMapping.getRealPath f with
  | none => simp [addFile, hd', getRealPath, hget, onEntries, hrun, Error.isPathNotFound]
  | some r' =>
    have : r ≠ r' := fun e => hr (e ▸ hget)
    simp [addFile, hd', getRealPath, hget, this, onEntries, hrun, pure, Except.pure, EStateM.pure]

theorem Invariant.addDirectory_cases (hs : s.Invariant) (f : FakePath) :
    (s.pathExists f = true ∧ addDirectory f s = .error (.pathExists f) s) ∨
    (∃ q e', s.pathExists f = false ∧ AddsAlong s f q e' ∧
      addDirectory f s = .ok () ⟨s.pathMapping, ⟨e'.entries.set f []⟩⟩) := by
  by_cases hex : s.pathExists f = true
  · exact .inl ⟨hex, by simp [addDirectory, mustNotExist, hex]⟩
  have hex' : s.pathExists f = false := by simpa using hex
  have hnd : s.isDir f = false := by simp [pathExists] at hex'; exact hex'.2
  have hf : f ≠ [] := by rintro rfl; simp [hs.root_dir] at hnd
  obtain ⟨q, e', hadd, hrun⟩ := hs.addsAlong hf hnd
  have hc : e'.entries.contains f = false := by
    rw [Bool.eq_false_iff]
    intro hc
    rcases (hadd.contains_iff hs f).1 hc with hd | ⟨x, hx⟩
    · simp [hnd] at hd
    · exact not_step_prefix_self hx
  have hc' : f ∉ e'.entries.keys := by simpa [Dict.contains] using hc
  refine .inr ⟨q, e', hex', hadd, ?_⟩
  simp [addDirectory, mustNotExist, hex', onEntries, hrun, EntryStore.addDirectory, hc']

theorem Invariant.addFile_invariant (hs : s.Invariant) (hanc : ∀ a, a <+: f → a ≠ f → s.isFile a = false)
    (r : RealPath) : (stateOf (addFile f r s)).Invariant := by
  rcases hs.addFile_cases f r with ⟨-, h⟩ | ⟨-, h⟩ | ⟨q, e', hd, -, hadd, h⟩
  · rw [h]; exact hs
  · rw [h]; exact hs
  · rw [h]; exact hadd.invariant_addFile hs hd hanc r

theorem Invariant.addDirectory_invariant (hs : s.Invariant) (hanc : ∀ a, a <+: f → a ≠ f → s.isFile a = false) :
    (stateOf (addDirectory f s)).Invariant := by
  rcases hs.addDirectory_cases f with ⟨-, h⟩ | ⟨q, e', hex, hadd, h⟩
  · rw [h]; exact hs
  · rw [h]; exact hadd.invariant_addDirectory hs hex hanc

end PyTypesPathStore

end PyTagsFs
