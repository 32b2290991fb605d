import PyTagsFs.Basic

/-! # The two de-duplicators of `pytagsfs.util`

`unique` keeps the first occurrence of each item, `last_unique` the last: its docstring
says it is `reversed(unique(reversed(l)))`. Both rest on one equation each: `unique` of a
cons is its head followed by the rest without the head, and `last_unique` of a snoc is the
result so far without the new item, followed by it. -/
namespace PyTagsFs

section Unique
variable {α : Type} [DecidableEq α]

/-- `seen` only filters: the generator started from `seen` yields what it yields from `[]`,
less the items of `seen`. -/
theorem unique_go_eq_filter (l : List α) :
    ∀ seen : List α, unique.go seen l = (unique l).filter fun x => x ∉ seen := by
  induction l with
  | nil => intro seen; rfl
  | cons x xs ih =>
    intro seen
    have h1 := ih (seen ++ [x])
    have h2 := ih [x]
    by_cases hx : x ∈ seen <;> simp [unique, unique.go, hx, h1, h2, List.filter_filter, Bool.and_comm]

theorem unique_cons (x : α) (xs : List α) : unique (x :: xs) = x :: (unique xs).filter fun y => y ≠ x := by
  simp [unique, unique.go, unique_go_eq_filter xs [x]]

theorem lastUnique_append (l : List α) (x : α) : lastUnique (l ++ [x]) = (lastUnique l).erase x ++ [x] := by
  simp [lastUnique, List.foldl_append]

theorem nodup_lastUnique (l : List α) : (lastUnique l).Nodup := by
  induction l using List.reverseRecOn with
  | nil => exact List.nodup_nil
  | append_singleton l x ih =>
    rw [lastUnique_append]
    exact (ih.erase x).append (List.nodup_singleton x) (List.disjoint_singleton.2 ih.not_mem_erase)

theorem lastUnique_eq_reverse (l : List α) : lastUnique l = (unique l.reverse).reverse := by
  induction l using List.reverseRecOn with
  | nil => rfl
  | append_singleton l x ih =>
    rw [lastUnique_append, (nodup_lastUnique l).erase_eq_filter, ih, List.reverse_append, List.reverse_singleton,
      List.singleton_append, unique_cons, List.reverse_cons, List.filter_reverse]
    congr 2
    exact List.filter_congr fun y _ => by rw [decide_not]; rfl

/-- Each item of the list once, and nothing else. -/
theorem count_unique (l : List α) (x : α) : (unique l).count x = if x ∈ l then 1 else 0 := by
  induction l with
  | nil => rfl
  | cons y ys ih =>
    rw [unique_cons, List.count_cons]
    by_cases hx : x = y
    · subst hx
      rw [List.count_eq_zero_of_not_mem (by simp)]
      simp
    · rw [List.count_filter (by simpa using hx), ih]
      simp [hx, Ne.symm hx]

theorem mem_unique (l : List α) (x : α) : x ∈ unique l ↔ x ∈ l := by
  rw [← List.count_pos_iff, count_unique]
  split_ifs with h <;> simp [h]

theorem mem_lastUnique (l : List α) (x : α) : x ∈ lastUnique l ↔ x ∈ l := by
  rw [lastUnique_eq_reverse, List.mem_reverse, mem_unique, List.mem_reverse]

theorem lastUnique_eq_nil_iff (l : List α) : lastUnique l = [] ↔ l = [] := by
  simp only [List.eq_nil_iff_forall_not_mem, mem_lastUnique]

theorem erase_map_of_injOn (f : α → α) (x : α) :
    ∀ l : List α, (∀ y ∈ l, f y = f x → y = x) → (l.map f).erase (f x) = (l.erase x).map f
  | [], _ => rfl
  | y :: l, h => by
    by_cases hyx : y = x
    · subst hyx; simp
    · have hf : f y ≠ f x := fun e => hyx (h y (List.mem_cons_self _ _) e)
      rw [List.map_cons, List.erase_cons_tail (by simpa using hf), List.erase_cons_tail (by simpa using hyx),
        List.map_cons, erase_map_of_injOn f x l fun z hz => h z (List.mem_cons_of_mem _ hz)]

/-- `last_unique` commutes with a map that is injective on the items. -/
theorem lastUnique_map (f : α → α) (l : List α) (hf : ∀ x ∈ l, ∀ y ∈ l, f x = f y → x = y) :
    lastUnique (l.map f) = (lastUnique l).map f := by
  induction l using List.reverseRecOn with
  | nil => rfl
  | append_singleton l x ih =>
    have hf' : ∀ y ∈ l, ∀ z ∈ l, f y = f z → y = z := fun y hy z hz =>
      hf y (List.mem_append_left _ hy) z (List.mem_append_left _ hz)
    rw [List.map_append, List.map_singleton, lastUnique_append, lastUnique_append, ih hf', List.map_append,
      List.map_singleton, erase_map_of_injOn f x _ fun y hy hyx =>
        hf y (List.mem_append_left _ ((mem_lastUnique l y).1 hy)) x (by simp) hyx]

/-- Replacing the one occurrence of `a` in a duplicate-free list is setting its index. -/
theorem map_replace_eq_set (a b : α) :
    ∀ l : List α, l.Nodup → a ∈ l → l.map (fun n => if n = a then b else n) = l.set (l.indexOf a) b
  | [], _, h => absurd h (List.not_mem_nil a)
  | y :: l, hnd, h => by
    obtain ⟨hy, hnd⟩ := List.nodup_cons.1 hnd
    by_cases hya : y = a
    · subst hya
      simp only [List.map_cons, if_true, List.indexOf_cons_self, List.set_cons_zero]
      exact congrArg _ ((List.map_congr_left fun n hn => if_neg fun (e : n = y) => hy (e ▸ hn)).trans (List.map_id l))
    · rw [List.map_cons, if_neg hya, List.indexOf_cons_ne _ hya, List.set_cons_succ,
        map_replace_eq_set a b l hnd ((List.mem_cons.1 h).resolve_left (Ne.symm hya))]

/-- In the order of first occurrence. -/
theorem pairwise_unique (l : List α) : (unique l).Pairwise fun x y => l.indexOf x < l.indexOf y := by
  induction l with
  | nil => exact List.Pairwise.nil
  | cons x xs ih =>
    have hne : ∀ {y}, y ∈ (unique xs).filter (fun y => y ≠ x) → y ≠ x := fun hy => by
      simpa using List.of_mem_filter hy
    rw [unique_cons, List.pairwise_cons]
    refine ⟨fun b hb => ?_, (ih.filter _).imp_of_mem fun ha hb h => ?_⟩
    · rw [List.indexOf_cons_self, List.indexOf_cons_ne _ (Ne.symm (hne hb))]
      omega
    · rw [List.indexOf_cons_ne _ (Ne.symm (hne ha)), List.indexOf_cons_ne _ (Ne.symm (hne hb))]
      omega

/-- `last_unique(l) == list(reversed(list(unique(reversed(l)))))`, and `unique(l)` holds
each distinct item of `l` once, in the order of first occurrence. -/
theorem lastUnique_eq_reverse_unique_reverse (l : List α) : lastUnique l = (unique l.reverse).reverse ∧
    (∀ x, (unique l).count x = if x ∈ l then 1 else 0) ∧
    (unique l).Pairwise fun x y => l.indexOf x < l.indexOf y :=
  ⟨lastUnique_eq_reverse l, count_unique l, pairwise_unique l⟩

end Unique

end PyTagsFs
