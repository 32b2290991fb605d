import PyTagsFs.PathStoreAdd
import Mathlib.Data.List.Infix

/-! # Removing an end point keeps the invariant

`remove` of a file pops one stack entry and runs `remove_entries_and_directories_recursive`
on the path; of an empty directory other than `/` it first deletes the directory. Each step
along the removed path loses the last occurrence of its next name, and a directory that
this empties goes unless it is `/` (`RemovesAlong`): the weight of every prefix of the path
drops by one, and so does the count of its name in its parent. Metadata updates rewrite
one entry in place and keep the invariant as well. -/
namespace PyTagsFs
namespace DictList
variable {κ ν : Type} [DecidableEq κ] [DecidableEq ν]

/-- The dict after a list shrinks to `l`: `clean` drops the key of an empty list. -/
def shrink (d : DictList κ ν) (k : κ) (l : List ν) : DictList κ ν :=
  if l = [] then (d.set k l).erase k else d.set k l

@[simp] theorem get?_shrink (d : DictList κ ν) (k k' : κ) (l : List ν) :
    (d.shrink k l).get? k' = if k = k' then (if l = [] then none else some l) else d.get? k' := by
  unfold shrink
  by_cases hl : l = [] <;> by_cases hk : k = k' <;> simp [hl, hk]

theorem getD_shrink (d : DictList κ ν) (k k' : κ) (l : List ν) :
    ((d.shrink k l).get? k').getD [] = if k = k' then l else (d.get? k').getD [] := by
  by_cases hk : k = k' <;> by_cases hl : l = [] <;> simp [hk, hl]

/-- Shrinking keeps every list of the dict non-empty. -/
theorem shrink_nonempty (d : DictList κ ν) (k : κ) (l : List ν) (hd : ∀ k' l', d.get? k' = some l' → l' ≠ [])
    (k' : κ) (l' : List ν) (h : (d.shrink k l).get? k' = some l') : l' ≠ [] := by
  rw [get?_shrink] at h
  split at h
  · split at h
    · cases h
    · cases h; assumption
  · exact hd k' l' h

theorem remove_eq (d : DictList κ ν) (k : κ) (v : ν) (l : List ν) (hl : d.get? k = some l) (hv : v ∈ l) :
    remove k v d = .ok () (d.set k (l.erase v)) := by
  simp [remove, hl, hv]

theorem clean_set (d : DictList κ ν) (k : κ) (l : List ν) : clean k (d.set k l) = .ok () (d.shrink k l) := by
  rcases l with _ | ⟨a, t⟩ <;> simp [clean, shrink]

theorem remove_of_not_mem (d : DictList κ ν) (k : κ) (v : ν) (l : List ν) (hl : d.get? k = some l) (hv : v ∉ l) :
    remove k v d = .error .valueError d := by
  simp [remove, hl, hv]

theorem popAndClean_eq (d : DictList κ ν) (k : κ) (l : List ν) (hl : d.get? k = some l) (hne : l ≠ []) :
    popAndClean k d = .ok (l.getLast hne) (d.shrink k l.dropLast) := by
  have : l.getLast? = some (l.getLast hne) := List.getLast?_eq_getLast l hne
  by_cases he : l.dropLast = [] <;> simp [popAndClean, hl, this, he, shrink]

end DictList

namespace PathMapping

/-- The stack of a path after `remove_real_path`: the given real path's first occurrence
goes, or the top one. -/
def removedStack (l : List RealPath) : Option RealPath → List RealPath
  | some r => l.erase r
  | none => l.dropLast

theorem length_removedStack (l : List RealPath) (ro : Option RealPath) (hne : l ≠ [])
    (hmem : ro.getD (l.getLast hne) ∈ l) : (removedStack l ro).length + 1 = l.length := by
  have := List.length_pos.2 hne
  cases ro with
  | none => simp only [removedStack, List.length_dropLast]; omega
  | some r =>
    simp only [Option.getD_some] at hmem
    simp only [removedStack, List.length_erase_of_mem hmem]; omega

/-- The stack loses one occurrence of the removed real path and nothing else. -/
theorem count_removedStack (l : List RealPath) (ro : Option RealPath) (hne : l ≠ []) (r' : RealPath) :
    (removedStack l ro).count r' = l.count r' - if ro.getD (l.getLast hne) = r' then 1 else 0 := by
  cases ro with
  | none =>
    have hl : l.count r' = l.dropLast.count r' + [l.getLast hne].count r' := by
      rw [← List.count_append, List.dropLast_append_getLast]
    by_cases h : l.getLast hne = r' <;> simp [removedStack, hl, h, List.count_singleton']
  | some r => simp [removedStack, List.count_erase]

theorem removeRealPath_eq (m : PathMapping) (f : FakePath) (ro : Option RealPath) (l : List RealPath)
    (hl : m.forwardMapping.get? f = some l) (hne : l ≠ []) (hmem : ro.getD (l.getLast hne) ∈ l)
    (rl : List FakePath) (hrl : m.reverseMapping.get? (ro.getD (l.getLast hne)) = some rl) (hfr : f ∈ rl) :
    removeRealPath f ro m = .ok () ⟨m.forwardMapping.shrink f (removedStack l ro),
      m.reverseMapping.shrink (ro.getD (l.getLast hne)) (@List.erase FakePath instBEqOfDecidableEq rl f)⟩ := by
  cases ro with
  | none =>
    simp only [Option.getD_none] at hrl
    simp [removeRealPath, onForward, onReverse, DictList.popAndClean_eq _ _ _ hl hne, removedStack,
      DictList.remove_eq _ _ _ _ hrl hfr, DictList.clean_set]
  | some r =>
    simp only [Option.getD_some] at hmem hrl
    simp [removeRealPath, onForward, onReverse, removedStack, DictList.remove_eq _ _ _ _ hl hmem,
      DictList.remove_eq _ _ _ _ hrl hfr, DictList.clean_set]

end PathMapping

namespace EntryStore
variable {μ : Type}

theorem get?_foldl_pruneStep_of_mem (steps : List (FakePath × Seg)) (hnd : (steps.map Prod.fst).Nodup)
    (s : EntryStore μ) {st : FakePath × Seg} (h : st ∈ steps) :
    (steps.foldl pruneStep s).entries.get? st.1 =
      if ((s.entries.get? st.1).getD []).isEmpty ∧ st.1 ≠ [] then none else s.entries.get? st.1 := by
  induction steps generalizing s with
  | nil => simp at h
  | cons st' steps ih =>
    rw [List.map_cons, List.nodup_cons] at hnd
    rw [List.foldl_cons]
    rcases List.mem_cons.1 h with rfl | h
    · rw [get?_foldl_pruneStep_of_not_mem _ _ _ fun x hx e => hnd.1 (by rw [← e]; exact List.mem_map_of_mem Prod.fst hx)]
      unfold pruneStep
      split <;> simp_all
    · have hne : st'.1 ≠ st.1 := fun e => hnd.1 (e ▸ List.mem_map_of_mem Prod.fst h)
      rw [ih hnd.2 _ h]
      unfold pruneStep
      split
      · show (if (((s.entries.erase st'.1).get? st.1).getD []).isEmpty ∧ st.1 ≠ [] then none
          else (s.entries.erase st'.1).get? st.1) = _
        rw [Dict.get?_erase, if_neg hne]
      · rfl

/-- A step along the removed path: its list loses the last occurrence of the next name,
and the directory goes when that leaves it empty, unless it is `/`. -/
theorem get?_removeEffect_step (t : FakePath) (E : EntryStore μ) {k : FakePath} {x : Seg} (h : k ++ [x] <+: t) :
    (removeEffect t E).entries.get? k =
      if (eraseLast x ((E.entries.get? k).getD [])).isEmpty ∧ k ≠ [] then none
      else some (eraseLast x ((E.entries.get? k).getD [])) := by
  have hnd := iterDirectoriesAndEntries_nodup [] t
  have hmem : (k, x) ∈ iterDirectoriesAndEntries [] t := (mem_iterDirectoriesAndEntries _ _ _).2 ⟨k, x, rfl, h⟩
  unfold removeEffect
  rw [get?_foldl_pruneStep_of_mem _ hnd _ hmem, get?_eraseAll_of_mem hnd _ hmem]
  rfl

theorem get?_removeEffect_same (t : FakePath) (E : EntryStore μ) {k : FakePath} (h : ∀ x, ¬ k ++ [x] <+: t) :
    (removeEffect t E).entries.get? k = E.entries.get? k := by
  have hk : ∀ st ∈ iterDirectoriesAndEntries [] t, st.1 ≠ k := fun st hst e => by
    obtain ⟨d, x, rfl, hd⟩ := (mem_iterDirectoriesAndEntries _ _ _).1 hst
    exact h x (by simpa [← e] using hd)
  unfold removeEffect
  rw [get?_foldl_pruneStep_of_not_mem _ _ _ hk, get?_eraseAll_of_not_mem _ _ _ hk]

end EntryStore

theorem erase_instances (rl : List FakePath) (t : FakePath) :
    @List.erase FakePath instBEqOfDecidableEq rl t = rl.erase t := by
  rw [@List.erase_eq_eraseP FakePath instBEqOfDecidableEq _ t rl, List.erase_eq_eraseP]
  congr 1
  funext x
  exact Bool.eq_iff_iff.2 (by rw [@beq_iff_eq _ instBEqOfDecidableEq, beq_iff_eq])

namespace PyTypesPathStore
variable {μ : Type} {s : PyTypesPathStore μ} {t : FakePath} {E' : EntryStore μ}

/-- `E'` is the entry store after the end point `t` of `s` is removed: each step along
`t` loses the last occurrence of its next name, a directory other than `/` that this
leaves empty goes, and `t` has no entry list afterwards. -/
structure RemovesAlong (s : PyTypesPathStore μ) (t : FakePath) (E' : EntryStore μ) : Prop where
  end_point : s.isFile t = true ∨ s.isEmptyDir t = true
  ne_root : t ≠ []
  step : ∀ k x, k ++ [x] <+: t → E'.entries.get? k =
    if (EntryStore.eraseLast x ((s.entries.entries.get? k).getD [])).isEmpty ∧ k ≠ [] then none
    else some (EntryStore.eraseLast x ((s.entries.entries.get? k).getD []))
  same : ∀ k, (∀ x, ¬ k ++ [x] <+: t) → k ≠ t → E'.entries.get? k = s.entries.entries.get? k
  at_target : E'.entries.get? t = none

/-- How much the weight of `p` drops when `t` is removed. -/
def removeDelta (t p : FakePath) : Nat := if p <+: t then 1 else 0

namespace RemovesAlong

theorem file_or_dir (h : RemovesAlong s t E') : s.isFile t = true ∨ s.isDir t = true := by
  rcases h.end_point with h | h
  · exact .inl h
  · exact .inr (by simp [isEmptyDir] at h; exact h.1)

/-- Every proper prefix of the removed end point is a directory of `s`. -/
theorem isDir_of_step (h : RemovesAlong s t E') (hs : s.Invariant) {k : FakePath} {x : Seg}
    (hk : k ++ [x] <+: t) : s.isDir k = true := by
  have hpre : k <+: t := (List.prefix_append _ _).trans hk
  have hne : k ≠ t := by rintro rfl; exact not_step_prefix_self hk
  rcases h.end_point with ht | ht
  · exact hs.isDir_of_prefix_of_isFile ht hpre hne
  · exact hs.isDir_of_prefix (by simp [isEmptyDir] at ht; exact ht.1) hpre

theorem mem_names_of_step (h : RemovesAlong s t E') (hs : s.Invariant) {k : FakePath} {x : Seg}
    (hk : k ++ [x] <+: t) : x ∈ EntryStore.names ((s.entries.entries.get? k).getD []) :=
  hs.names_along_endPoint h.file_or_dir (k, x) ((mem_iterDirectoriesAndEntries _ _ _).2 ⟨k, x, rfl, hk⟩)

theorem contains (h : RemovesAlong s t E') (hs : s.Invariant) {k : FakePath} (hk : E'.entries.contains k = true) :
    s.isDir k = true := by
  by_cases hst : ∃ x, k ++ [x] <+: t
  · obtain ⟨x, hx⟩ := hst
    exact h.isDir_of_step hs hx
  · push_neg at hst
    by_cases hkt : k = t
    · subst hkt; simp [Dict.contains, Dict.mem_keys_iff, h.at_target] at hk
    · simpa [isDir, Dict.contains, Dict.mem_keys_iff, h.same k hst hkt] using hk

theorem count_names (h : RemovesAlong s t E') (hs : s.Invariant) (d : FakePath) (n : Seg)
    (hd : E'.entries.contains d = true) :
    (EntryStore.names ((E'.entries.get? d).getD [])).count n =
      (EntryStore.names ((s.entries.entries.get? d).getD [])).count n - removeDelta t (d ++ [n]) := by
  unfold removeDelta
  by_cases hst : ∃ x, d ++ [x] <+: t
  · obtain ⟨x, hx⟩ := hst
    have hsome : E'.entries.get? d = some (EntryStore.eraseLast x ((s.entries.entries.get? d).getD [])) := by
      have := h.step d x hx
      split at this
      · simp [Dict.contains, Dict.mem_keys_iff, this] at hd
      · exact this
    rw [hsome, Option.getD_some, EntryStore.count_names_eraseLast _ _ _ (h.mem_names_of_step hs hx)]
    by_cases hn : n = x
    · subst hn; simp [hx]
    · have : ¬ d ++ [n] <+: t := fun hn' => hn (prefix_step_unique hn' hx)
      simp [hn, this]
  · push_neg at hst
    have hdt : d ≠ t := by rintro rfl; simp [Dict.contains, Dict.mem_keys_iff, h.at_target] at hd
    rw [h.same d hst hdt, if_neg (hst n)]
    rfl

/-- Away from the removed end point, the weight drops by `removeDelta` in any store whose
entry lists are those of `E'` and whose stacks are those of `s`. -/
theorem weight_of_ne (h : RemovesAlong s t E') (hs : s.Invariant) (s' : PyTypesPathStore μ)
    (hent : s'.entries = E')
    (hmap : ∀ p, p ≠ t → s'.pathMapping.forwardMapping.get? p = s.pathMapping.forwardMapping.get? p)
    {p : FakePath} (hp0 : p ≠ []) (hpt : p ≠ t) : s'.weight p = s.weight p - removeDelta t p := by
  have hfile : s'.isFile p = s.isFile p := by simp [isFile, PathMapping.getRealPath, hmap p hpt]
  subst hent
  unfold removeDelta
  by_cases hst : ∃ x, p ++ [x] <+: t
  · obtain ⟨x, hx⟩ := hst
    have hdir := h.isDir_of_step hs hx
    have hmem := h.mem_names_of_step hs hx
    have hlen := EntryStore.length_eraseLast _ _ hmem
    have hpos : 0 < ((s.entries.entries.get? p).getD []).length :=
      List.length_pos.2 fun hnil => by rw [hnil] at hmem; simp [EntryStore.names] at hmem
    rw [hs.weight_of_isDir hdir, if_pos ((List.prefix_append _ _).trans hx)]
    have hstep := h.step p x hx
    have hnf : s'.isFile p = false := by rw [hfile]; exact hs.isFile_eq_false_of_isDir hdir
    split at hstep
    · next hc =>
      have hd' : s'.isDir p = false := by simp [isDir, Dict.contains, Dict.mem_keys_iff, hstep]
      rw [weight_eq_zero hnf hd']
      have := List.isEmpty_iff.1 hc.1
      rw [this] at hlen
      simp at hlen ⊢
      omega
    · next hc =>
      have hd' : s'.isDir p = true := by simp [isDir, Dict.contains, Dict.mem_keys_iff, hstep]
      simp only [weight, hnf, hd', Bool.false_eq_true, if_false, if_true, hstep, Option.getD_some, hlen]
      have : (EntryStore.eraseLast x ((s.entries.entries.get? p).getD [])) ≠ [] := fun hnil =>
        hc ⟨by simp [hnil], hp0⟩
      have := List.length_pos.2 this
      omega
  · push_neg at hst
    have hsame := h.same p hst hpt
    have hnp : ¬ p <+: t := fun hp => by
      obtain ⟨x, hx⟩ := exists_step_of_prefix_ne hp hpt
      exact hst x hx
    have hd' : s'.isDir p = s.isDir p := by simp [isDir, Dict.contains, Dict.mem_keys_iff, hsame]
    simp only [weight, hfile, hd', hsame, hmap p hpt, hnp, if_false, Nat.sub_zero]

end RemovesAlong

theorem Invariant.removesAlong_file (hs : s.Invariant) (hf : s.isFile t = true) :
    RemovesAlong s t (EntryStore.removeEffect t s.entries) ∧
      EntryStore.removeEntriesAndDirectoriesRecursive t s.entries = .ok () (EntryStore.removeEffect t s.entries) := by
  have ht0 := (hs.file_parent t hf).1
  have hnd := hs.file_not_dir t hf
  refine ⟨⟨.inl hf, ht0, fun k x hk => EntryStore.get?_removeEffect_step _ _ hk,
    fun k hk _ => EntryStore.get?_removeEffect_same _ _ hk, ?_⟩,
    EntryStore.removeEntriesAndDirectoriesRecursive_eq t ht0 _ (hs.names_along_endPoint (.inl hf))⟩
  rw [EntryStore.get?_removeEffect_same _ _ fun x hx => not_step_prefix_self hx]
  exact Dict.get?_eq_none_of_contains (by simpa using hnd)

theorem Invariant.removesAlong_dir (hs : s.Invariant) (ht : s.isEmptyDir t = true) (ht0 : t ≠ []) :
    RemovesAlong s t (EntryStore.removeEffect t ⟨s.entries.entries.erase t⟩) ∧
      EntryStore.removeEntriesAndDirectoriesRecursive t ⟨s.entries.entries.erase t⟩ =
        .ok () (EntryStore.removeEffect t ⟨s.entries.entries.erase t⟩) := by
  have hd : s.isDir t = true := by simp [isEmptyDir] at ht; exact ht.1
  have hstep : ∀ k x, k ++ [x] <+: t → t ≠ k := fun k x hk e => by subst e; exact not_step_prefix_self hk
  have hsame : ∀ k, t ≠ k → (⟨s.entries.entries.erase t⟩ : EntryStore μ).entries.get? k = s.entries.entries.get? k :=
    fun k hk => by simp [Dict.get?_erase, hk]
  refine ⟨⟨.inr ht, ht0, fun k x hk => ?_, fun k hk hkt => ?_, ?_⟩, ?_⟩
  · rw [EntryStore.get?_removeEffect_step _ _ hk, hsame k (hstep k x hk)]
  · rw [EntryStore.get?_removeEffect_same _ _ hk, hsame k (Ne.symm hkt)]
  · rw [EntryStore.get?_removeEffect_same _ _ fun x hx => not_step_prefix_self hx]
    simp [Dict.get?_erase]
  · refine EntryStore.removeEntriesAndDirectoriesRecursive_eq t ht0 _ fun st hst => ?_
    obtain ⟨k, x, rfl, hk⟩ := (mem_iterDirectoriesAndEntries _ _ _).1 hst
    simp only [List.nil_append]
    rw [hsame k (hstep k x hk)]
    exact hs.names_along_endPoint (.inr hd) (k, x) hst

namespace RemovesAlong

/-- A one-entry list names one name. -/
theorem eq_of_mem_names_single {l : List (Entry μ)} (hl : l.length = 1) {x y : Seg}
    (hx : x ∈ EntryStore.names l) (hy : y ∈ EntryStore.names l) : x = y := by
  match l, hl with
  | [e], _ => simp [EntryStore.names] at hx hy; rw [hx, hy]

/-- A file or directory that stays after `t` is removed keeps its parent: a parent
emptied by the removal had `t`'s step as its only entry, so the path was on `t` and had
weight one. -/
theorem parent_kept (h : RemovesAlong s t E') (hs : s.Invariant) {g : FakePath} (hg0 : g ≠ [])
    (hg : s.isFile g = true ∨ s.isDir g = true) (hw2 : g <+: t → 2 ≤ s.weight g) :
    E'.entries.contains g.dropLast = true := by
  have hgl : g.dropLast ++ [g.getLast hg0] = g := List.dropLast_append_getLast hg0
  have hp : s.isDir g.dropLast = true := by
    rcases hg with hg | hg
    · exact (hs.file_parent g hg).2
    · exact hs.dir_parent g hg hg0
  have hchild : g.getLast hg0 ∈ EntryStore.names ((s.entries.entries.get? g.dropLast).getD []) :=
    hs.mem_names hp (hgl.symm ▸ hg)
  by_cases hst : ∃ x, g.dropLast ++ [x] <+: t
  · obtain ⟨x, hx⟩ := hst
    have hstep := h.step _ x hx
    split at hstep
    · next hc =>
      exfalso
      have hmem := h.mem_names_of_step hs hx
      have hlen := EntryStore.length_eraseLast _ _ hmem
      rw [List.isEmpty_iff.1 hc.1] at hlen
      have hpos : 0 < ((s.entries.entries.get? g.dropLast).getD []).length :=
        List.length_pos.2 fun hnil => by rw [hnil] at hmem; simp [EntryStore.names] at hmem
      have h1 : ((s.entries.entries.get? g.dropLast).getD []).length = 1 := by simp at hlen; omega
      have hgt : g <+: t := by
        rw [← hgl, eq_of_mem_names_single h1 hchild hmem]
        exact hx
      have hw := hs.weight_child_le hp (g.getLast hg0)
      rw [hgl, hs.weight_of_isDir hp, h1] at hw
      have := hw2 hgt
      simp at hw
      omega
    · simp [Dict.contains, Dict.mem_keys_iff, hstep]
  · push_neg at hst
    have hpt : g.dropLast ≠ t := by
      rintro hpt
      rcases h.end_point with ht | ht
      · rw [← hpt] at ht; simp [hs.file_not_dir _ ht] at hp
      · rw [← hpt] at ht
        simp only [isEmptyDir, Bool.and_eq_true, List.isEmpty_iff] at ht
        rw [ht.2] at hchild; simp [EntryStore.names] at hchild
    simpa [Dict.contains, Dict.mem_keys_iff, h.same _ hst hpt, isDir] using hp

/-- A step directory other than `/` that keeps entries had at least two. -/
theorem two_le_weight_of_step (h : RemovesAlong s t E') (hs : s.Invariant) {k : FakePath} {x : Seg}
    (hk : k ++ [x] <+: t) (hk0 : k ≠ []) (hc : E'.entries.contains k = true) : 2 ≤ s.weight k := by
  have hstep := h.step k x hk
  have hlen := EntryStore.length_eraseLast _ _ (h.mem_names_of_step hs hk)
  rw [hs.weight_of_isDir (h.isDir_of_step hs hk)]
  split at hstep
  · simp [Dict.contains, Dict.mem_keys_iff, hstep] at hc
  · next hc' =>
    have : EntryStore.eraseLast x ((s.entries.entries.get? k).getD []) ≠ [] := fun hnil =>
      hc' ⟨by simp [hnil], hk0⟩
    have := List.length_pos.2 this
    omega

/-- Removing an end point keeps the invariant, for any mapping update that keeps the
mapping fields, leaves every other path's stack alone and lowers the weight of `t` by one. -/
theorem invariant (h : RemovesAlong s t E') (hs : s.Invariant) (s' : PyTypesPathStore μ)
    (hent : s'.entries = E')
    (hmap : ∀ p, p ≠ t → s'.pathMapping.forwardMapping.get? p = s.pathMapping.forwardMapping.get? p)
    (hwt : s'.weight t + 1 = s.weight t)
    (hfwd : ∀ f l, s'.pathMapping.forwardMapping.get? f = some l → l ≠ [])
    (hrev : ∀ r l, s'.pathMapping.reverseMapping.get? r = some l → l ≠ [])
    (hinv : ∀ f r, ((s'.pathMapping.forwardMapping.get? f).getD []).count r =
      ((s'.pathMapping.reverseMapping.get? r).getD []).count f) : s'.Invariant := by
  have hfile : ∀ p, p ≠ t → s'.isFile p = s.isFile p := fun p hp => by
    simp [isFile, PathMapping.getRealPath, hmap p hp]
  have hdir : ∀ p, s'.isDir p = true → s.isDir p = true := fun p hp => h.contains hs (hent ▸ hp)
  have hdt : s'.isDir t = false := by simp [isDir, Dict.contains, Dict.mem_keys_iff, hent, h.at_target]
  -- a file that stays at `t` had weight at least two and was a file
  have hft : s'.isFile t = true → s.isFile t = true ∧ 2 ≤ s.weight t := fun hf => by
    have h2 : 2 ≤ s.weight t := by have := weight_pos (.inl hf); omega
    refine ⟨?_, h2⟩
    rcases h.end_point with ht | ht
    · exact ht
    · have hd : s.isDir t = true := by simp [isEmptyDir] at ht; exact ht.1
      simp only [isEmptyDir, Bool.and_eq_true, List.isEmpty_iff] at ht
      rw [hs.weight_of_isDir hd, ht.2] at h2
      simp at h2
  -- every remaining file or directory on the removed path had weight at least two
  have hw2 : ∀ g, g ≠ [] → s'.isFile g = true ∨ s'.isDir g = true → g <+: t → 2 ≤ s.weight g := by
    rintro g hg0 hg hgt
    by_cases hgt' : g = t
    · subst hgt'
      exact (hft (hg.resolve_right (by rw [hdt]; simp))).2
    obtain ⟨y, hy⟩ := exists_step_of_prefix_ne hgt hgt'
    rcases hg with hg | hg
    · rw [hfile g hgt'] at hg
      exact absurd (h.isDir_of_step hs hy) (by simp [hs.file_not_dir g hg])
    · exact h.two_le_weight_of_step hs hy hg0 (hent ▸ hg)
  have hold : ∀ g, s'.isFile g = true ∨ s'.isDir g = true → s.isFile g = true ∨ s.isDir g = true := by
    rintro g (hg | hg)
    · by_cases hgt : g = t
      · exact .inl (hgt ▸ (hft (hgt ▸ hg)).1)
      · exact .inl (hfile g hgt ▸ hg)
    · exact .inr (hdir g hg)
  have hparent : ∀ g, g ≠ [] → s'.isFile g = true ∨ s'.isDir g = true → s'.isDir g.dropLast = true :=
    fun g hg0 hg => by
      show s'.entries.entries.contains _ = true
      rw [hent]
      exact h.parent_kept hs hg0 (hold g hg) (hw2 g hg0 hg)
  refine ⟨?_, fun f hf => ?_, hfwd, hrev, hinv, fun f hf => ?_, fun d hd hd0 => hparent d hd0 (.inr hd),
    fun d n hd => ?_⟩
  · obtain ⟨x, hx⟩ := exists_step_of_prefix_ne (List.nil_prefix (l := t)) h.ne_root.symm
    have hstep := h.step [] x (by simpa using hx)
    simp only [ne_eq, not_true_eq_false, and_false, if_false] at hstep
    simp [isDir, Dict.contains, Dict.mem_keys_iff, hent, hstep]
  · by_cases hft' : f = t
    · subst hft'; exact hdt
    · cases hd : s'.isDir f
      · rfl
      · have := hs.file_not_dir f (hfile f hft' ▸ hf)
        rw [hdir f hd] at this
        cases this
  · have hf0 : f ≠ [] := by
      by_cases hft' : f = t
      · exact hft' ▸ h.ne_root
      · exact (hs.file_parent f (hfile f hft' ▸ hf)).1
    exact ⟨hf0, hparent f hf0 (.inl hf)⟩
  · rw [hent, h.count_names hs d n (hent ▸ hd), hs.occurrences d n (hdir d hd)]
    by_cases hdt' : d ++ [n] = t
    · subst hdt'
      rw [removeDelta, if_pos (List.prefix_refl _)]
      omega
    · rw [h.weight_of_ne hs s' hent hmap (by simp) hdt']

end RemovesAlong

theorem mustBeEmptyDirectory_of (ht : s.isEmptyDir t = true) : s.mustBeEmptyDirectory t = .ok () := by
  have hd : s.isDir t = true := by simp [isEmptyDir] at ht; exact ht.1
  simp [mustBeEmptyDirectory, mustExist, pathExists, hd, ht, bind, Except.bind, pure, Except.pure]

theorem Invariant.removeDirectory_eq (hs : s.Invariant) (ht : s.isEmptyDir t = true) (ht0 : t ≠ []) :
    removeDirectory t s = .ok () ⟨s.pathMapping, EntryStore.removeEffect t ⟨s.entries.entries.erase t⟩⟩ := by
  have hd : s.isDir t = true := by simp [isEmptyDir] at ht; exact ht.1
  have hc : s.entries.entries.contains t = true := hd
  simp [removeDirectory, assertNotRoot, ht0, mustBeEmptyDirectory_of ht, onEntries, EntryStore.removeDirectory, hc,
    (hs.removesAlong_dir ht ht0).2]

theorem Invariant.removeFile_cases (hs : s.Invariant) (hf : s.isFile t = true) (ro : Option RealPath) :
    (∃ e, removeFile t ro s = .error e s) ∨
    (∃ l, ∃ hne : l ≠ [], ∃ rl, s.pathMapping.forwardMapping.get? t = some l ∧ ro.getD (l.getLast hne) ∈ l ∧
      s.pathMapping.reverseMapping.get? (ro.getD (l.getLast hne)) = some rl ∧ t ∈ rl ∧
      removeFile t ro s = .ok () ⟨⟨s.pathMapping.forwardMapping.shrink t (PathMapping.removedStack l ro),
        s.pathMapping.reverseMapping.shrink (ro.getD (l.getLast hne)) (@List.erase FakePath instBEqOfDecidableEq rl t)⟩,
        EntryStore.removeEffect t s.entries⟩) := by
  obtain ⟨l, hl, hlast⟩ : ∃ l, s.pathMapping.forwardMapping.get? t = some l ∧ l.getLast? ≠ none := by
    simp only [isFile, PathMapping.getRealPath, Option.isSome_iff_exists, Option.bind_eq_some] at hf
    obtain ⟨r, l, hl, hr⟩ := hf
    exact ⟨l, hl, by simp [hr]⟩
  have hne : l ≠ [] := fun h => hlast (by simp [h])
  by_cases hmem : ro.getD (l.getLast hne) ∈ l
  · have hcount := hs.inverse t (ro.getD (l.getLast hne))
    rw [hl, Option.getD_some] at hcount
    obtain ⟨rl, hrl⟩ : ∃ rl, s.pathMapping.reverseMapping.get? (ro.getD (l.getLast hne)) = some rl := by
      cases hr : s.pathMapping.reverseMapping.get? (ro.getD (l.getLast hne)) with
      | none => rw [hr] at hcount; simp at hcount; exact absurd hmem (List.count_eq_zero.1 hcount)
      | some rl => exact ⟨rl, rfl⟩
    have hfr : t ∈ rl := by
      rw [hrl, Option.getD_some] at hcount
      exact List.count_pos_iff.1 (hcount ▸ List.count_pos_iff.2 hmem)
    refine .inr ⟨l, hne, rl, hl, hmem, hrl, hfr, ?_⟩
    simp [removeFile, onMapping, PathMapping.removeRealPath_eq _ _ _ _ hl hne hmem _ hrl hfr, onEntries,
      (hs.removesAlong_file hf).2]
  · -- a real path that is not on the stack: `list.remove` raises before any change
    refine .inl ⟨.valueError, ?_⟩
    cases ro with
    | none => exact absurd (List.getLast_mem hne) hmem
    | some r =>
      simp only [Option.getD_some] at hmem
      simp [removeFile, onMapping, PathMapping.removeRealPath, PathMapping.onForward,
        DictList.remove_of_not_mem _ _ _ _ hl hmem]

theorem Invariant.removeDirectory_invariant (hs : s.Invariant) (ht : s.isEmptyDir t = true) (ht0 : t ≠ []) :
    (⟨s.pathMapping, EntryStore.removeEffect t ⟨s.entries.entries.erase t⟩⟩ : PyTypesPathStore μ).Invariant := by
  have hd : s.isDir t = true := by simp [isEmptyDir] at ht; exact ht.1
  have h := (hs.removesAlong_dir ht ht0).1
  generalize EntryStore.removeEffect t ⟨s.entries.entries.erase t⟩ = E' at h ⊢
  refine h.invariant hs _ rfl (fun _ _ => rfl) ?_ hs.forward_nonempty hs.reverse_nonempty hs.inverse
  have hdt : (⟨s.pathMapping, E'⟩ : PyTypesPathStore μ).isDir t = false := by
    simp [isDir, Dict.contains, Dict.mem_keys_iff, h.at_target]
  simp only [isEmptyDir, Bool.and_eq_true, List.isEmpty_iff] at ht
  rw [@weight_eq_zero μ ⟨s.pathMapping, E'⟩ t (hs.isFile_eq_false_of_isDir hd) hdt, hs.weight_of_isDir hd, ht.2]
  rfl

/-- Off the directories, the weight is the stack height. -/
theorem weight_of_not_isDir {p : FakePath} (hd : s.isDir p = false) :
    s.weight p = ((s.pathMapping.forwardMapping.get? p).getD []).length := by
  unfold weight
  split
  · rfl
  · next hf =>
    rw [hd, if_neg Bool.false_ne_true]
    cases hl : s.pathMapping.forwardMapping.get? p with
    | none => rfl
    | some l => simp_all [isFile, PathMapping.getRealPath]

theorem Invariant.removeFile_invariant (hs : s.Invariant) (hf : s.isFile t = true) {ro : Option RealPath}
    {l : List RealPath} (hne : l ≠ []) {rl : List FakePath} (hl : s.pathMapping.forwardMapping.get? t = some l)
    (hmem : ro.getD (l.getLast hne) ∈ l)
    (hrl : s.pathMapping.reverseMapping.get? (ro.getD (l.getLast hne)) = some rl) :
    (⟨⟨s.pathMapping.forwardMapping.shrink t (PathMapping.removedStack l ro),
      s.pathMapping.reverseMapping.shrink (ro.getD (l.getLast hne)) (@List.erase FakePath instBEqOfDecidableEq rl t)⟩,
      EntryStore.removeEffect t s.entries⟩ : PyTypesPathStore μ).Invariant := by
  have h := (hs.removesAlong_file hf).1
  rw [erase_instances]
  refine h.invariant hs _ rfl (fun p hp => by simp [Ne.symm hp]) ?_
    (DictList.shrink_nonempty _ _ _ hs.forward_nonempty) (DictList.shrink_nonempty _ _ _ hs.reverse_nonempty) ?_
  · have hdt : (⟨⟨s.pathMapping.forwardMapping.shrink t (PathMapping.removedStack l ro), s.pathMapping.reverseMapping.shrink
        (ro.getD (l.getLast hne)) (rl.erase t)⟩, EntryStore.removeEffect t s.entries⟩ : PyTypesPathStore μ).isDir t = false := by
      simp [isDir, Dict.contains, Dict.mem_keys_iff, h.at_target]
    rw [weight_of_not_isDir hdt, weight_of_not_isDir (hs.file_not_dir t hf), DictList.getD_shrink, if_pos rfl, hl,
      Option.getD_some]
    exact PathMapping.length_removedStack l ro hne hmem
  · intro f r'
    have hinv := hs.inverse f r'
    rw [DictList.getD_shrink, DictList.getD_shrink]
    by_cases hft : t = f <;> by_cases hr : ro.getD (l.getLast hne) = r'
    · subst hft hr
      rw [hl, Option.getD_some, hrl, Option.getD_some] at hinv
      rw [if_pos rfl, if_pos rfl, PathMapping.count_removedStack l ro hne, if_pos rfl, List.count_erase_self, hinv]
    · subst hft
      rw [hl, Option.getD_some] at hinv
      rw [if_pos rfl, if_neg hr, PathMapping.count_removedStack l ro hne, if_neg hr, hinv, Nat.sub_zero]
    · subst hr
      rw [hrl, Option.getD_some] at hinv
      rw [if_neg hft, if_pos rfl, List.count_erase_of_ne (Ne.symm hft), hinv]
    · rw [if_neg hft, if_neg hr, hinv]

/-- What `remove` can do: raise before any change, remove an empty directory other than
`/`, or pop one stack entry of a file. -/
theorem Invariant.remove_cases (hs : s.Invariant) (f : FakePath) (ro : Option RealPath) :
    stateOf (remove f ro s) = s ∨
    (s.isEmptyDir f = true ∧ f ≠ [] ∧
      stateOf (remove f ro s) = ⟨s.pathMapping, EntryStore.removeEffect f ⟨s.entries.entries.erase f⟩⟩) ∨
    (s.isFile f = true ∧ ∃ l, ∃ hne : l ≠ [], ∃ rl, s.pathMapping.forwardMapping.get? f = some l ∧
      ro.getD (l.getLast hne) ∈ l ∧ s.pathMapping.reverseMapping.get? (ro.getD (l.getLast hne)) = some rl ∧
      stateOf (remove f ro s) = ⟨⟨s.pathMapping.forwardMapping.shrink f (PathMapping.removedStack l ro),
        s.pathMapping.reverseMapping.shrink (ro.getD (l.getLast hne)) (@List.erase FakePath instBEqOfDecidableEq rl f)⟩,
        EntryStore.removeEffect f s.entries⟩) := by
  by_cases hd : s.isDir f = true
  · by_cases hro : ro.isSome = true
    · exact .inl (by simp [remove, hd, hro])
    by_cases he : s.isEmptyDir f = true
    · have hrun : remove f ro s = removeDirectory f s := by simp [remove, hd, hro, he]
      by_cases hf0 : f = []
      · exact .inl (by rw [hrun]; simp [removeDirectory, assertNotRoot, hf0])
      · exact .inr (.inl ⟨he, hf0, by rw [hrun, hs.removeDirectory_eq he hf0]; rfl⟩)
    · exact .inl (by simp [remove, hd, hro, he])
  · by_cases hf : s.isFile f = true
    · have hrun : remove f ro s = removeFile f ro s := by simp [remove, hd, hf]
      rcases hs.removeFile_cases hf ro with ⟨e, h⟩ | ⟨l, hne, rl, hl, hmem, hrl, -, h⟩
      · exact .inl (by rw [hrun, h]; rfl)
      · exact .inr (.inr ⟨hf, l, hne, rl, hl, hmem, hrl, by rw [hrun, h]; rfl⟩)
    · exact .inl (by simp [remove, hd, hf])

/-- `remove` keeps the invariant. -/
theorem Invariant.remove_invariant (hs : s.Invariant) (f : FakePath) (ro : Option RealPath) :
    (stateOf (remove f ro s)).Invariant := by
  rcases hs.remove_cases f ro with h | ⟨he, hf0, h⟩ | ⟨hf, l, hne, rl, hl, hmem, hrl, h⟩ <;> rw [h]
  · exact hs
  · exact hs.removeDirectory_invariant he hf0
  · exact hs.removeFile_invariant hf hne hl hmem hrl

/-- A store that only lost files, directories and entries: what is there afterwards was
there before, and a non-root empty directory was empty already. -/
structure Shrinks (s s' : PyTypesPathStore μ) : Prop where
  file : ∀ g, s'.isFile g = true → s.isFile g = true
  dir : ∀ g, s'.isDir g = true → s.isDir g = true
  entry : ∀ p e, e ∈ (s'.entries.entries.get? p).getD [] → e ∈ (s.entries.entries.get? p).getD []
  empty_dir : ∀ g, g ≠ [] → s'.isEmptyDir g = true → s.isEmptyDir g = true

theorem Shrinks.refl (s : PyTypesPathStore μ) : Shrinks s s :=
  ⟨fun _ h => h, fun _ h => h, fun _ _ h => h, fun _ _ h => h⟩

theorem RemovesAlong.shrinks (h : RemovesAlong s t E') (hs : s.Invariant) (s' : PyTypesPathStore μ)
    (hent : s'.entries = E') (hfile : ∀ g, s'.isFile g = true → s.isFile g = true) : Shrinks s s' := by
  subst hent
  refine ⟨hfile, fun g hg => h.contains hs hg, fun p e he => ?_, fun g hg0 hg => ?_⟩
  · by_cases hst : ∃ x, p ++ [x] <+: t
    · obtain ⟨x, hx⟩ := hst
      rw [h.step p x hx] at he
      split at he
      · simp at he
      · simp only [Option.getD_some, EntryStore.eraseLast] at he
        split at he
        · exact List.mem_of_mem_eraseIdx he
        · exact he
    · push_neg at hst
      by_cases hpt : p = t
      · subst hpt; simp [h.at_target] at he
      · rwa [h.same p hst hpt] at he
  · simp only [isEmptyDir, isDir, Dict.contains, Dict.mem_keys_iff, Bool.and_eq_true, List.isEmpty_iff,
      decide_eq_true_eq] at hg ⊢
    have hgt : g ≠ t := by rintro rfl; simp [h.at_target] at hg
    have hst : ∀ x, ¬ g ++ [x] <+: t := fun x hx => by
      rw [h.step g x hx] at hg
      split at hg
      · simp at hg
      · next hc => simp only [Option.getD_some] at hg; exact hc ⟨by simp [hg.2], hg0⟩
    rwa [h.same g hst hgt] at hg

/-- `remove` only takes away. -/
theorem Invariant.remove_shrinks (hs : s.Invariant) (f : FakePath) (ro : Option RealPath) :
    Shrinks s (stateOf (remove f ro s)) := by
  rcases hs.remove_cases f ro with h | ⟨he, hf0, h⟩ | ⟨hf, l, hne, rl, hl, hmem, hrl, h⟩ <;> rw [h]
  · exact Shrinks.refl s
  · exact (hs.removesAlong_dir he hf0).1.shrinks hs _ rfl fun g hg => hg
  · refine (hs.removesAlong_file hf).1.shrinks hs _ rfl fun g hg => ?_
    by_cases hfg : f = g
    · exact hfg ▸ hf
    · simpa [isFile, PathMapping.getRealPath, hfg] using hg

/-! ## Metadata updates

`set_meta_data` and `unset_meta_data` mutate one located entry in place: names, stacks
and directories stay, so the invariant does. -/

theorem EntryStore.contains_of_locateEntryByFakePath {E : EntryStore μ} {f d : FakePath} {i : Nat}
    (h : E.locateEntryByFakePath f = .ok (d, i)) : E.entries.contains d = true := by
  unfold EntryStore.locateEntryByFakePath at h
  split at h
  · cases h
  · next directory entry _ =>
    rw [EntryStore.locateEntry_eq] at h
    cases hd : E.entries.get? directory with
    | none => simp [hd] at h; cases h
    | some l =>
      simp only [hd] at h
      split at h <;> simp_all [Except.map, Dict.contains, Dict.mem_keys_iff]

theorem names_modify (l : List (Entry μ)) (g : Entry μ → Entry μ) (hg : ∀ e, (g e).name = e.name) (i : Nat) :
    EntryStore.names (l.modify g i) = EntryStore.names l := by
  induction l generalizing i with
  | nil => cases i <;> rfl
  | cons e l ih => cases i <;> simp_all [EntryStore.names, List.modify]

/-- Rewriting one entry of an existing directory without renaming it keeps the invariant. -/
theorem Invariant.modifyEntry_invariant (hs : s.Invariant) {d : FakePath} (hd : s.entries.entries.contains d = true)
    (g : Entry μ → Entry μ) (hg : ∀ e, (g e).name = e.name) (i : Nat) :
    ({ s with entries := ⟨s.entries.entries.set d (((s.entries.entries.get? d).getD []).modify g i)⟩ } :
      PyTypesPathStore μ).Invariant := by
  have hdir : ∀ p, ({ s with entries := ⟨s.entries.entries.set d (((s.entries.entries.get? d).getD []).modify g i)⟩ } :
      PyTypesPathStore μ).isDir p = s.isDir p := fun p => by
    by_cases hp : d = p
    · subst hp; simp [isDir, Dict.contains, Dict.mem_keys_iff] at hd ⊢; exact hd
    · simp [isDir, Dict.contains, Dict.mem_keys_iff, hp]
  have hnames : ∀ p, EntryStore.names ((Dict.get? (s.entries.entries.set d (((s.entries.entries.get? d).getD []).modify g i)) p).getD [])
      = EntryStore.names ((s.entries.entries.get? p).getD []) := fun p => by
    by_cases hp : d = p
    · subst hp; simp [names_modify _ g hg]
    · simp [hp]
  have hweight : ∀ p, ({ s with entries := ⟨s.entries.entries.set d (((s.entries.entries.get? d).getD []).modify g i)⟩ } :
      PyTypesPathStore μ).weight p = s.weight p := fun p => by
    have hlen := congrArg List.length (hnames p)
    simp only [EntryStore.names, List.length_map] at hlen
    simp only [weight, hdir, hlen]
    rfl
  refine ⟨?_, fun f hf => ?_, hs.forward_nonempty, hs.reverse_nonempty, hs.inverse, fun f hf => ?_,
    fun p hp hp0 => ?_, fun p n hp => ?_⟩
  · rw [hdir]; exact hs.root_dir
  · rw [hdir]; exact hs.file_not_dir f hf
  · rw [hdir]; exact hs.file_parent f hf
  · rw [hdir] at hp ⊢; exact hs.dir_parent p hp hp0
  · rw [hdir] at hp
    rw [hweight]
    show List.count _ (EntryStore.names _) = _
    rw [hnames]
    exact hs.occurrences p n hp

theorem Invariant.setMetaData_invariant (hs : s.Invariant) (f : FakePath) (m : μ) :
    (stateOf (setMetaData f m s)).Invariant := by
  rcases h1 : s.mustBeEndPoint f with e | _
  · simpa [setMetaData, h1] using hs
  rcases h2 : s.entries.locateEntryByFakePath f with e | ⟨d, i⟩
  · simpa [setMetaData, h1, h2] using hs
  rcases h3 : s.entries.getEntry f with e | _
  · simpa [setMetaData, h1, h2, h3] using hs
  simpa [setMetaData, h1, h2, h3, onEntries, EntryStore.updateEntry] using
    hs.modifyEntry_invariant (EntryStore.contains_of_locateEntryByFakePath h2) (fun e => { e with metaData := some m })
      (fun _ => rfl) i

theorem Invariant.unsetMetaData_invariant (hs : s.Invariant) (f : FakePath) :
    (stateOf (unsetMetaData f s)).Invariant := by
  rcases h1 : s.mustBeEndPoint f with e | _
  · simpa [unsetMetaData, h1] using hs
  rcases h2 : s.entries.locateEntryByFakePath f with e | ⟨d, i⟩
  · simpa [unsetMetaData, h1, h2] using hs
  rcases h3 : s.entries.getEntry f with e | entry
  · simpa [unsetMetaData, h1, h2, h3] using hs
  by_cases hm : entry.metaData.isNone
  · simpa [unsetMetaData, h1, h2, h3, hm] using hs
  simpa [unsetMetaData, h1, h2, h3, hm, onEntries, EntryStore.updateEntry] using
    hs.modifyEntry_invariant (EntryStore.contains_of_locateEntryByFakePath h2) (fun e => { e with metaData := none })
      (fun _ => rfl) i

/-! ## Runs without renames

Every operation but `rename` keeps the invariant, so every run that never renames stays in
it. -/

def Op.isRename : Op μ → Bool
  | .rename _ _ => true
  | _ => false

theorem properAncestors_append (p : FakePath) (x : Seg) : properAncestors (p ++ [x]) = p.inits := by
  simp [properAncestors, List.inits_append]

theorem mem_properAncestors {a p : FakePath} (hap : a <+: p) (hne : a ≠ p) : a ∈ properAncestors p := by
  rcases eq_nil_or_append p with rfl | ⟨d, n, rfl⟩
  · exact absurd (List.prefix_nil.1 hap) hne
  · rw [properAncestors_append, List.mem_inits]
    exact (List.prefix_concat_iff.1 hap).resolve_left hne

theorem Invariant.next_invariant (hs : s.Invariant) {op : Op μ} (ha : Allowed s op) (hr : op.isRename = false) :
    (next s op).Invariant := by
  have hanc : ∀ f, f ∈ op.targets → ∀ a, a <+: f → a ≠ f → s.isFile a = false :=
    fun f hf a hap hne => ha f hf a (mem_properAncestors hap hne)
  cases op with
  | addFile f r => exact hs.addFile_invariant (hanc f (List.mem_singleton_self f)) r
  | addDirectory f => exact hs.addDirectory_invariant (hanc f (List.mem_singleton_self f))
  | remove f r => exact hs.remove_invariant f r
  | rename _ _ => cases hr
  | setMetaData f m => exact hs.setMetaData_invariant f m
  | unsetMetaData f => exact hs.unsetMetaData_invariant f

theorem Invariant.runTrace_invariant :
    ∀ (ops : List (Op μ)) (s : PyTypesPathStore μ), s.Invariant → ValidTrace s ops →
      (∀ op ∈ ops, op.isRename = false) → (runTrace s ops).Invariant
  | [], _, hs, _, _ => hs
  | _ :: ops, _, hs, ⟨ha, hv⟩, hr =>
    runTrace_invariant ops _ (hs.next_invariant ha (hr _ (List.mem_cons_self _ _))) hv
      fun op hop => hr op (List.mem_cons_of_mem _ hop)

/-- Every state that a run of `add_file`, `add_directory`, `remove`, `set_meta_data` and
`unset_meta_data` reaches from an empty store, with no target below a file, satisfies the
structural invariant. -/
theorem valid_trace_without_rename_keeps_invariant (ops : List (Op μ)) (hv : ValidTrace initial ops)
    (hr : ∀ op ∈ ops, op.isRename = false) : (runTrace initial ops).Invariant :=
  Invariant.runTrace_invariant ops initial initial_invariant hv hr

/-- A file stacked twice below `/foo`, its metadata set, its lower real path removed, then an
empty directory beside it. -/
def stackAndRemoveTrace : List (Op Nat) :=
  [.addFile [segFoo, segBar] "/x", .addFile [segFoo, segBar] "/y", .setMetaData [segFoo, segBar] 1,
    .remove [segFoo, segBar] (some "/x"), .addDirectory [segBar]]

theorem stackAndRemoveTrace_keeps_invariant :
    ValidTrace initial stackAndRemoveTrace ∧ (∀ op ∈ stackAndRemoveTrace, op.isRename = false) ∧
      (runTrace initial stackAndRemoveTrace).Invariant :=
  ⟨by decide, by decide, valid_trace_without_rename_keeps_invariant _ (by decide) (by decide)⟩

end PyTypesPathStore
end PyTagsFs
