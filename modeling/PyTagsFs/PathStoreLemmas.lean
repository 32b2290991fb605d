import PyTagsFs.PathStore

/-! # Equations of the path store operations

Each operation of `PathStore.lean` gets one equation lemma that spells out its
branches, and the entry lists get a last-occurrence decomposition, so that the
invariant proofs never unfold a definition again. -/
namespace PyTagsFs

section Lift
variable {ε σ τ α : Type} (view : σ → τ) (update : σ → τ → σ) (x : EStateM ε τ α) (s : σ)

@[simp] theorem zoom_apply : zoom view update x s = match x (view s) with
    | .ok a t => .ok a (update s t)
    | .error e t => .error e (update s t) := rfl

@[simp] theorem liftExcept_ok (a : α) : (liftExcept (.ok a : Except ε α) : EStateM ε σ α) s = .ok a s := rfl
@[simp] theorem liftExcept_error (e : ε) :
    (liftExcept (.error e : Except ε α) : EStateM ε σ α) s = .error e s := rfl
@[simp] theorem liftExcept_pure (a : α) : (liftExcept (pure a : Except ε α) : EStateM ε σ α) s = .ok a s := rfl
@[simp] theorem liftExcept_throw (e : ε) :
    (liftExcept (throw e : Except ε α) : EStateM ε σ α) s = .error e s := rfl

/-- A loop whose every step succeeds with a pure effect runs as the fold of that effect.
`Q rest s` is what must hold before the steps `rest` run from `s`. -/
theorem forM_eq_foldl {β : Type} (f : β → EStateM ε σ PUnit) (g : σ → β → σ)
    (Q : List β → σ → Prop) (step : ∀ b rest s, Q (b :: rest) s → f b s = .ok ⟨⟩ (g s b) ∧ Q rest (g s b)) :
    ∀ l s, Q l s → l.forM f s = .ok ⟨⟩ (l.foldl g s) := by
  intro l
  induction l with
  | nil => intro s _; rfl
  | cons b l ih =>
    intro s hs
    obtain ⟨h₁, h₂⟩ := step b l s hs
    simp [h₁, ih _ h₂]

end Lift

@[simp] theorem splitLast_nil : splitLast [] = none := rfl
@[simp] theorem splitLast_append (d : FakePath) (n : Seg) : splitLast (d ++ [n]) = some (d, n) := by
  simp [splitLast]

theorem eq_nil_or_append (p : FakePath) : p = [] ∨ ∃ d n, p = d ++ [n] := by
  rcases List.eq_nil_or_concat p with h | ⟨d, n, h⟩
  · exact .inl h
  · exact .inr ⟨d, n, by simpa using h⟩

theorem prefix_dropLast_of_prefix_ne {p f : FakePath} (hp : p <+: f) (hne : p ≠ f) : p <+: f.dropLast := by
  rcases eq_nil_or_append f with rfl | ⟨g, x, rfl⟩
  · exact absurd (List.prefix_nil.1 hp) hne
  · simpa using (List.prefix_concat_iff.1 hp).resolve_left hne

/-- A step `k ++ [x]` along `q ++ r₀ :: r₁` lies above `q`, at `q`, or below it. -/
theorem prefix_step_cases {k q r₁ : FakePath} {x r₀ : Seg} (h : k ++ [x] <+: q ++ r₀ :: r₁) :
    k ++ [x] <+: q ∨ (k = q ∧ x = r₀) ∨ ∃ d, k = q ++ r₀ :: d ∧ d ++ [x] <+: r₁ := by
  have hk : k <+: q ++ r₀ :: r₁ := (List.prefix_append _ _).trans h
  rcases Nat.lt_trichotomy k.length q.length with hlt | heq | hgt
  · exact .inl (List.prefix_of_prefix_length_le h (List.prefix_append _ _) (by simpa using hlt))
  · have hkq : k = q := (List.prefix_of_prefix_length_le hk (List.prefix_append _ _) heq.le).eq_of_length heq
    subst hkq
    refine .inr (.inl ⟨rfl, ?_⟩)
    simpa using (List.prefix_append_right_inj k).1 h
  · have h₁ : q ++ [r₀] <+: q ++ r₀ :: r₁ := by simp
    obtain ⟨d, rfl⟩ := List.prefix_of_prefix_length_le h₁ hk (by simpa using hgt)
    refine .inr (.inr ⟨d, by simp, ?_⟩)
    exact (List.prefix_append_right_inj (q ++ [r₀])).1 (by simpa using h)

/-! ## The steps of `iter_directories_and_entries_recursive` -/

theorem mem_iterDirectoriesAndEntries (pre rest : FakePath) (st : FakePath × Seg) :
    st ∈ iterDirectoriesAndEntries pre rest ↔ ∃ d e, st = (pre ++ d, e) ∧ d ++ [e] <+: rest := by
  induction rest generalizing pre with
  | nil => simp [iterDirectoriesAndEntries]
  | cons x rest ih =>
    simp only [iterDirectoriesAndEntries, List.mem_cons, ih]
    constructor
    · rintro (rfl | ⟨d, e, rfl, hd⟩)
      · exact ⟨[], x, by simp, by simp⟩
      · exact ⟨x :: d, e, by simp, by simpa using hd⟩
    · rintro ⟨d, e, rfl, hd⟩
      cases d with
      | nil => left; simp only [List.nil_append, List.singleton_append, List.cons_prefix_cons] at hd; simp [hd.1]
      | cons y d =>
        right
        simp only [List.cons_append, List.cons_prefix_cons] at hd
        exact ⟨d, e, by simp [hd.1], hd.2⟩

theorem iterDirectoriesAndEntries_pairwise (pre rest : FakePath) :
    (iterDirectoriesAndEntries pre rest).Pairwise fun a b => a.1.length < b.1.length := by
  induction rest generalizing pre with
  | nil => exact List.Pairwise.nil
  | cons x rest ih =>
    refine List.Pairwise.cons (fun st hst => ?_) (ih _)
    obtain ⟨d, e, rfl, _⟩ := (mem_iterDirectoriesAndEntries _ _ _).mp hst
    simp

theorem iterDirectoriesAndEntries_nodup (pre rest : FakePath) :
    ((iterDirectoriesAndEntries pre rest).map Prod.fst).Nodup := by
  rw [List.Nodup, List.pairwise_map]
  exact (iterDirectoriesAndEntries_pairwise pre rest).imp fun h heq => by
    rw [heq] at h; exact lt_irrefl _ h

theorem iterDirectoriesAndEntries_append (pre l₁ l₂ : FakePath) :
    iterDirectoriesAndEntries pre (l₁ ++ l₂) =
      iterDirectoriesAndEntries pre l₁ ++ iterDirectoriesAndEntries (pre ++ l₁) l₂ := by
  induction l₁ generalizing pre with
  | nil => simp [iterDirectoriesAndEntries]
  | cons x l₁ ih => simp [iterDirectoriesAndEntries, ih]

theorem length_of_mem_iterDirectoriesAndEntries {pre rest : FakePath} {st : FakePath × Seg}
    (h : st ∈ iterDirectoriesAndEntries pre rest) :
    pre.length ≤ st.1.length ∧ st.1.length < pre.length + rest.length := by
  obtain ⟨d, e, rfl, hd⟩ := (mem_iterDirectoriesAndEntries _ _ _).mp h
  have := hd.length_le
  simp at this ⊢; omega

/-! ## Last occurrences in an entry list -/

namespace EntryStore
variable {μ : Type}

def names (l : List (Entry μ)) : List Seg := l.map Entry.name

/-- The index `_locate_entry` computes. -/
def lastIndex (entry : Seg) (l : List (Entry μ)) : Option Nat :=
  (l.reverse.findIdx? fun e => e.name = entry).map fun reverseIndex => l.length - reverseIndex - 1

theorem findIdx?_none (l : List (Entry μ)) (entry : Seg) (h : ∀ y ∈ l, y.name ≠ entry) :
    l.findIdx? (fun e => e.name = entry) = none := by
  rw [List.findIdx?_eq_none_iff]; simpa using fun y hy => h y hy

theorem findIdx?_append_cons (l₂ : List (Entry μ)) (x : Entry μ) (l₁ : List (Entry μ)) (entry : Seg)
    (hx : x.name = entry) (h₂ : ∀ y ∈ l₂, y.name ≠ entry) :
    (l₂ ++ x :: l₁).findIdx? (fun e => e.name = entry) = some l₂.length := by
  rw [List.findIdx?_append, findIdx?_none _ _ h₂]
  simp [hx]

theorem lastIndex_append_cons (l₁ l₂ : List (Entry μ)) (x : Entry μ) (entry : Seg)
    (hx : x.name = entry) (h₂ : ∀ y ∈ l₂, y.name ≠ entry) :
    lastIndex entry (l₁ ++ x :: l₂) = some l₁.length := by
  unfold lastIndex
  rw [List.reverse_append, List.reverse_cons, List.append_assoc, List.singleton_append,
    findIdx?_append_cons _ _ _ _ hx (by simpa using h₂)]
  simp only [Option.map_some', List.length_append, List.length_cons, List.length_reverse]
  congr 1; omega

theorem lastIndex_eq_none (l : List (Entry μ)) (entry : Seg) (h : ∀ y ∈ l, y.name ≠ entry) :
    lastIndex entry l = none := by
  simp [lastIndex, findIdx?_none _ _ fun y hy => h y (List.mem_reverse.mp hy)]

/-- Every list holding a name splits at the last entry of that name. -/
theorem exists_last (l : List (Entry μ)) (entry : Seg) (h : entry ∈ names l) :
    ∃ l₁ x l₂, l = l₁ ++ x :: l₂ ∧ x.name = entry ∧ ∀ y ∈ l₂, y.name ≠ entry := by
  induction l using List.reverseRecOn with
  | nil => simp [names] at h
  | append_singleton l x ih =>
    by_cases hx : x.name = entry
    · exact ⟨l, x, [], by simp, hx, by simp⟩
    · have : entry ∈ names l := by
        simp only [names, List.map_append, List.map_cons, List.map_nil, List.mem_append,
          List.mem_singleton] at h
        exact h.resolve_right (Ne.symm hx)
      obtain ⟨l₁, y, l₂, rfl, hy, h₂⟩ := ih this
      refine ⟨l₁, y, l₂ ++ [x], by simp, hy, ?_⟩
      intro z hz
      simp only [List.mem_append, List.mem_singleton] at hz
      rcases hz with hz | rfl
      · exact h₂ z hz
      · exact hx

/-- The list after `del entries[index]` at the located entry. -/
def eraseLast (entry : Seg) (l : List (Entry μ)) : List (Entry μ) :=
  match lastIndex entry l with
  | some i => l.eraseIdx i
  | none => l

/-- The list after the located entry object is mutated. -/
def modifyLast (entry : Seg) (f : Entry μ → Entry μ) (l : List (Entry μ)) : List (Entry μ) :=
  match lastIndex entry l with
  | some i => l.modify f i
  | none => l

theorem eraseLast_split (l₁ l₂ : List (Entry μ)) (x : Entry μ) (entry : Seg)
    (hx : x.name = entry) (h₂ : ∀ y ∈ l₂, y.name ≠ entry) :
    eraseLast entry (l₁ ++ x :: l₂) = l₁ ++ l₂ := by
  rw [eraseLast, lastIndex_append_cons _ _ _ _ hx h₂]
  simp [List.eraseIdx_append_of_length_le]

theorem modifyLast_split (l₁ l₂ : List (Entry μ)) (x : Entry μ) (entry : Seg) (f : Entry μ → Entry μ)
    (hx : x.name = entry) (h₂ : ∀ y ∈ l₂, y.name ≠ entry) :
    modifyLast entry f (l₁ ++ x :: l₂) = l₁ ++ f x :: l₂ := by
  rw [modifyLast, lastIndex_append_cons _ _ _ _ hx h₂]
  simp [List.modify_eq_take_drop]

@[simp] theorem eraseLast_append_self (l : List (Entry μ)) (x : Entry μ) :
    eraseLast x.name (l ++ [x]) = l := by
  simpa using eraseLast_split l [] x x.name rfl (by simp)

@[simp] theorem eraseLast_append_mk (l : List (Entry μ)) (entry : Seg) (m : Option μ) :
    eraseLast entry (l ++ [⟨entry, m⟩]) = l :=
  eraseLast_append_self l ⟨entry, m⟩

theorem count_names_eraseLast (l : List (Entry μ)) (entry n : Seg) (h : entry ∈ names l) :
    (names (eraseLast entry l)).count n = (names l).count n - if n = entry then 1 else 0 := by
  obtain ⟨l₁, x, l₂, rfl, hx, h₂⟩ := exists_last l entry h
  rw [eraseLast_split _ _ _ _ hx h₂]
  subst hx
  by_cases hn : n = x.name <;> simp [names, List.count_cons, hn]

theorem length_eraseLast (l : List (Entry μ)) (entry : Seg) (h : entry ∈ names l) :
    (eraseLast entry l).length = l.length - 1 := by
  obtain ⟨l₁, x, l₂, rfl, hx, h₂⟩ := exists_last l entry h
  rw [eraseLast_split _ _ _ _ hx h₂]
  simp

theorem lastIndex_eq_none_iff (entry : Seg) (l : List (Entry μ)) :
    lastIndex entry l = none ↔ entry ∉ names l := by
  constructor
  · intro h he
    obtain ⟨l₁, x, l₂, rfl, hx, h₂⟩ := exists_last l entry he
    simp [lastIndex_append_cons _ _ _ _ hx h₂] at h
  · intro h
    exact lastIndex_eq_none _ _ fun y hy hn => h (hn ▸ List.mem_map_of_mem _ hy)

theorem locateEntry_eq (s : EntryStore μ) (directory : FakePath) (entry : Seg) :
    s.locateEntry directory entry = match s.entries.get? directory with
      | none => .error (.directoryDoesNotExistInEntryStore directory)
      | some l => match lastIndex entry l with
        | some i => .ok i
        | none => .error .valueError := by
  unfold locateEntry getAllEntries lastIndex
  cases s.entries.get? directory with
  | none => rfl
  | some l =>
    rcases hf : l.reverse.findIdx? (fun e => e.name = entry) with _ | ri <;>
      simp [hf, bind, Except.bind, pure, Except.pure, throw, throwThe, MonadExceptOf.throw]

theorem removeEntry_eq (directory : FakePath) (entry : Seg) (s : EntryStore μ) :
    removeEntry directory entry s = match s.entries.get? directory with
      | none => .error (.directoryDoesNotExistInEntryStore directory) s
      | some l => if entry ∈ names l then .ok ⟨⟩ ⟨s.entries.set directory (eraseLast entry l)⟩
        else .error .valueError s := by
  unfold removeEntry
  cases h : s.entries.get? directory with
  | none => simp [locateEntry_eq, h]
  | some l =>
    by_cases he : entry ∈ names l
    · obtain ⟨i, hi⟩ := Option.ne_none_iff_exists'.mp ((lastIndex_eq_none_iff entry l).not.mpr (not_not.mpr he))
      simp [locateEntry_eq, h, hi, he, eraseLast]
    · simp [locateEntry_eq, h, he, (lastIndex_eq_none_iff entry l).mpr he]

theorem replaceEntry_eq (directory : FakePath) (entry newEntry : Seg) (s : EntryStore μ) :
    replaceEntry directory entry newEntry s = match s.entries.get? directory with
      | none => .error (.directoryDoesNotExistInEntryStore directory) s
      | some l => if entry ∈ names l then
          .ok ⟨⟩ ⟨s.entries.set directory (modifyLast entry (fun _ => ⟨newEntry, none⟩) l)⟩
        else .error .valueError s := by
  unfold replaceEntry updateEntry
  cases h : s.entries.get? directory with
  | none => simp [locateEntry_eq, h]
  | some l =>
    by_cases he : entry ∈ names l
    · obtain ⟨i, hi⟩ := Option.ne_none_iff_exists'.mp ((lastIndex_eq_none_iff entry l).not.mpr (not_not.mpr he))
      simp [locateEntry_eq, h, hi, he, modifyLast]
    · simp [locateEntry_eq, h, he, (lastIndex_eq_none_iff entry l).mpr he]

/-! ## `remove_entries_and_directories_recursive` -/

/-- One `remove_entry` of the bottom-up pass, where it succeeds. -/
def eraseStep (s : EntryStore μ) (st : FakePath × Seg) : EntryStore μ :=
  ⟨s.entries.set st.1 (eraseLast st.2 ((s.entries.get? st.1).getD []))⟩

/-- One step of the top-down pass over the ancestors. -/
def pruneStep (s : EntryStore μ) (st : FakePath × Seg) : EntryStore μ :=
  if ((s.entries.get? st.1).getD []).isEmpty ∧ st.1 ≠ [] then ⟨s.entries.erase st.1⟩ else s

def eraseAll (steps : List (FakePath × Seg)) (s : EntryStore μ) : EntryStore μ :=
  steps.foldr (fun st s => eraseStep s st) s

def removeEffect (p : FakePath) (s : EntryStore μ) : EntryStore μ :=
  (iterDirectoriesAndEntries [] p).foldl pruneStep (eraseAll (iterDirectoriesAndEntries [] p) s)

theorem get?_eraseAll (steps : List (FakePath × Seg)) (hnd : (steps.map Prod.fst).Nodup)
    (s : EntryStore μ) : ∀ k, (eraseAll steps s).entries.get? k = match steps.find? (·.1 = k) with
      | some st => some (eraseLast st.2 ((s.entries.get? k).getD []))
      | none => s.entries.get? k := by
  induction steps with
  | nil => intro k; rfl
  | cons st steps ih =>
    intro k
    rw [List.map_cons, List.nodup_cons] at hnd
    have hst : (eraseAll steps s).entries.get? st.1 = s.entries.get? st.1 := by
      rw [ih hnd.2, List.find?_eq_none.mpr fun x hx => by
        simp only [decide_eq_true_eq]
        exact fun e => hnd.1 (e ▸ List.mem_map_of_mem Prod.fst hx)]
    simp only [eraseAll, List.foldr_cons, eraseStep, Dict.get?_set, List.find?_cons] at hst ⊢
    by_cases hk : st.1 = k
    · subst hk; simp [← hst]
    · simp only [hk, if_false, decide_False]; exact ih hnd.2 k

theorem forM_removeEntry (steps : List (FakePath × Seg)) (hnd : (steps.map Prod.fst).Nodup)
    (s : EntryStore μ) (h : ∀ st ∈ steps, st.2 ∈ names ((s.entries.get? st.1).getD [])) :
    (steps.reverse.forM fun (directory, entry) => removeEntry directory entry) s =
      .ok ⟨⟩ (eraseAll steps s) := by
  rw [eraseAll, ← List.foldl_reverse]
  refine forM_eq_foldl _ _ (fun rest t => (rest.map Prod.fst).Nodup ∧
    ∀ st ∈ rest, st.2 ∈ names ((t.entries.get? st.1).getD [])) ?_ _ _
    ⟨by simpa [List.map_reverse] using hnd, fun st hst => h st (List.mem_reverse.mp hst)⟩
  rintro ⟨d, e⟩ rest t ⟨hnd', ht⟩
  rw [List.map_cons, List.nodup_cons] at hnd'
  have he := ht (d, e) (List.mem_cons_self _ _)
  obtain ⟨l, hl⟩ : ∃ l, t.entries.get? d = some l := by
    cases hd : t.entries.get? d with
    | none => simp [hd, names] at he
    | some l => exact ⟨l, rfl⟩
  rw [hl, Option.getD_some] at he
  refine ⟨by simp [removeEntry_eq, hl, he, eraseStep], hnd'.2, fun st hst => ?_⟩
  have hne : d ≠ st.1 := fun hd => hnd'.1 (by simpa [hd] using List.mem_map_of_mem Prod.fst hst)
  simpa [eraseStep, hne] using ht st (List.mem_cons_of_mem _ hst)

theorem forM_prune (steps : List (FakePath × Seg)) (hnd : (steps.map Prod.fst).Nodup)
    (s : EntryStore μ) (h : ∀ st ∈ steps, s.entries.contains st.1) :
    (steps.forM fun (directory, _) => removeDirectoryIfEmpty directory) s =
      .ok ⟨⟩ (steps.foldl pruneStep s) := by
  refine forM_eq_foldl _ _ (fun rest t => (rest.map Prod.fst).Nodup ∧
    ∀ st ∈ rest, t.entries.contains st.1) ?_ _ _ ⟨hnd, h⟩
  rintro ⟨d, e⟩ rest t ⟨hnd', ht⟩
  rw [List.map_cons, List.nodup_cons] at hnd'
  have hd := ht (d, e) (List.mem_cons_self _ _)
  obtain ⟨l, hl⟩ : ∃ l, t.entries.get? d = some l :=
    Dict.exists_of_contains hd
  refine ⟨?_, hnd'.2, fun st hst => ?_⟩
  · by_cases hc : l.isEmpty ∧ d ≠ []
    · simp [removeDirectoryIfEmpty, getAllEntries, hl, hc, removeDirectory, hc.2, hd, pruneStep]
    · simp only [removeDirectoryIfEmpty, getAllEntries, hl, bind_apply, get_apply, EStateM.bind,
        liftExcept_ok, pruneStep, Option.getD_some, if_neg hc, pure_apply]
  · have hne : d ≠ st.1 := fun hd => hnd'.1 (by simpa [hd] using List.mem_map_of_mem Prod.fst hst)
    have := ht st (List.mem_cons_of_mem _ hst)
    unfold pruneStep; split
    · simp only [Dict.contains_iff, Dict.mem_keys_iff, Dict.get?_erase, hne, if_false] at this ⊢
      exact this
    · exact this

theorem removeEntriesAndDirectoriesRecursive_eq (p : FakePath) (hp : p ≠ []) (s : EntryStore μ)
    (h : ∀ st ∈ iterDirectoriesAndEntries [] p, st.2 ∈ names ((s.entries.get? st.1).getD [])) :
    removeEntriesAndDirectoriesRecursive p s = .ok ⟨⟩ (removeEffect p s) := by
  have hnd := iterDirectoriesAndEntries_nodup [] p
  have hkeys : ∀ st ∈ iterDirectoriesAndEntries [] p, (eraseAll (iterDirectoriesAndEntries [] p) s).entries.contains st.1 := by
    intro st hst
    rw [Dict.contains_iff, Dict.mem_keys_iff, get?_eraseAll _ hnd]
    obtain ⟨x, hx⟩ := Option.isSome_iff_exists.mp
      (List.find?_isSome.mpr ⟨st, hst, by simp⟩ : ((iterDirectoriesAndEntries [] p).find? (·.1 = st.1)).isSome)
    simp [hx]
  unfold removeEntriesAndDirectoriesRecursive
  simp only [hp, if_false, pure_apply, bind_apply, EStateM.bind]
  rw [forM_removeEntry _ hnd _ h]
  exact forM_prune _ hnd _ hkeys

/-! ## `add_entries_and_directories_recursive` -/

/-- One `add_entry` of a fresh occurrence. -/
def appendStep (s : EntryStore μ) (st : FakePath × Seg) : EntryStore μ :=
  ⟨s.entries.set st.1 ((s.entries.get? st.1).getD [] ++ [⟨st.2, none⟩])⟩

theorem get?_foldl_appendStep (steps : List (FakePath × Seg)) (hnd : (steps.map Prod.fst).Nodup)
    (s : EntryStore μ) : ∀ k, (steps.foldl appendStep s).entries.get? k = match steps.find? (·.1 = k) with
      | some st => some ((s.entries.get? k).getD [] ++ [⟨st.2, none⟩])
      | none => s.entries.get? k := by
  induction steps generalizing s with
  | nil => intro k; rfl
  | cons st steps ih =>
    intro k
    rw [List.map_cons, List.nodup_cons] at hnd
    rw [List.foldl_cons, ih hnd.2, List.find?_cons]
    by_cases hk : st.1 = k
    · subst hk
      rw [List.find?_eq_none.mpr fun x hx => by
        simp only [decide_eq_true_eq]
        exact fun e => hnd.1 (e ▸ List.mem_map_of_mem Prod.fst hx)]
      simp [appendStep]
    · simp only [hk, decide_False]
      cases steps.find? (·.1 = k) <;> simp [appendStep, hk]

/-- `q` is an empty directory other than `/`: adding below it retires it as an end point. -/
def Retires (s : EntryStore μ) (q : FakePath) : Prop := q ≠ [] ∧ ∃ l, s.entries.get? q = some l ∧ l = []

instance (s : EntryStore μ) (q : FakePath) : Decidable (s.Retires q) :=
  match h : s.entries.get? q with
  | none => isFalse fun ⟨_, l, hl, _⟩ => by simp [h] at hl
  | some l =>
    if hq : q ≠ [] ∧ l.isEmpty then isTrue ⟨hq.1, l, h, List.isEmpty_iff.mp hq.2⟩
    else isFalse fun ⟨h₁, l', hl', h₂⟩ => hq ⟨h₁, by
      rw [h] at hl'; cases hl'; simp [h₂]⟩

/-- How `add_entries_and_directories_recursive (q ++ r₀ :: r₁)` changes the entry lists,
where `q` is the deepest existing proper prefix: each proper prefix of `q` gains one
occurrence unless `q` is an empty directory end point being retired, `q` gains one, and
the new directories below `q` get one each. -/
structure AddedAlong (q : FakePath) (r₀ : Seg) (r₁ : FakePath) (s s' : EntryStore μ) : Prop where
  above : ∀ st ∈ iterDirectoriesAndEntries [] q, s'.entries.get? st.1 =
    if s.Retires q then s.entries.get? st.1
    else some ((s.entries.get? st.1).getD [] ++ [⟨st.2, none⟩])
  at_q : s'.entries.get? q = some ((s.entries.get? q).getD [] ++ [⟨r₀, none⟩])
  below : ∀ st ∈ iterDirectoriesAndEntries (q ++ [r₀]) r₁, s'.entries.get? st.1 = some [⟨st.2, none⟩]
  other : ∀ k, (∀ st ∈ iterDirectoriesAndEntries [] (q ++ r₀ :: r₁), st.1 ≠ k) →
    s'.entries.get? k = s.entries.get? k

theorem get?_eraseAll_of_not_mem (steps : List (FakePath × Seg)) (s : EntryStore μ) (k : FakePath)
    (hk : ∀ st ∈ steps, st.1 ≠ k) : (eraseAll steps s).entries.get? k = s.entries.get? k := by
  induction steps with
  | nil => rfl
  | cons st steps ih =>
    simp only [eraseAll, List.foldr_cons, eraseStep, Dict.get?_set,
      hk st (List.mem_cons_self _ _), if_false] at ih ⊢
    exact ih fun x hx => hk x (List.mem_cons_of_mem _ hx)

theorem get?_foldl_appendStep_of_not_mem (steps : List (FakePath × Seg)) (s : EntryStore μ) (k : FakePath)
    (hk : ∀ st ∈ steps, st.1 ≠ k) : (steps.foldl appendStep s).entries.get? k = s.entries.get? k := by
  induction steps generalizing s with
  | nil => rfl
  | cons st steps ih =>
    rw [List.foldl_cons, ih _ fun x hx => hk x (List.mem_cons_of_mem _ hx)]
    simp [appendStep, hk st (List.mem_cons_self _ _)]

theorem get?_foldl_pruneStep_of_not_mem (steps : List (FakePath × Seg)) (s : EntryStore μ) (k : FakePath)
    (hk : ∀ st ∈ steps, st.1 ≠ k) : (steps.foldl pruneStep s).entries.get? k = s.entries.get? k := by
  induction steps generalizing s with
  | nil => rfl
  | cons st steps ih =>
    rw [List.foldl_cons, ih _ fun x hx => hk x (List.mem_cons_of_mem _ hx)]
    unfold pruneStep; split
    · simp [hk st (List.mem_cons_self _ _)]
    · rfl

theorem foldl_pruneStep_of_ne_nil (steps : List (FakePath × Seg)) (s : EntryStore μ)
    (h : ∀ st ∈ steps, (s.entries.get? st.1).getD [] ≠ []) : steps.foldl pruneStep s = s := by
  induction steps with
  | nil => rfl
  | cons st steps ih =>
    have hst := h st (List.mem_cons_self _ _)
    rw [List.foldl_cons, pruneStep, if_neg fun hc => hst (List.isEmpty_iff.mp hc.1)]
    exact ih fun x hx => h x (List.mem_cons_of_mem _ hx)

theorem addEntryAndDirectory_of_present (directory : FakePath) (entry : Seg) (s : EntryStore μ)
    (l : List (Entry μ)) (h : s.entries.get? directory = some l) (hc : ¬ (directory ≠ [] ∧ l.isEmpty)) :
    addEntryAndDirectory directory entry s = .ok ⟨⟩ (appendStep s (directory, entry)) := by
  simp only [addEntryAndDirectory, getAllEntries, h, bind_apply, get_apply, EStateM.bind]
  rw [if_neg hc]
  simp [addEntry, h, appendStep]

theorem addEntryAndDirectory_of_absent (directory : FakePath) (entry : Seg) (s : EntryStore μ)
    (h : s.entries.get? directory = none) :
    addEntryAndDirectory directory entry s = .ok ⟨⟩ (appendStep s (directory, entry)) := by
  have hc : s.entries.contains directory = false := by
    simp [Dict.contains, Dict.mem_keys_iff, h]
  simp [addEntryAndDirectory, getAllEntries, h, addDirectory, hc, addEntry, appendStep]

theorem find?_key_of_mem {steps : List (FakePath × Seg)} (hnd : (steps.map Prod.fst).Nodup)
    {st : FakePath × Seg} (h : st ∈ steps) : steps.find? (·.1 = st.1) = some st := by
  induction steps with
  | nil => simp at h
  | cons x steps ih =>
    rw [List.map_cons, List.nodup_cons] at hnd
    rw [List.find?_cons]
    rcases List.mem_cons.mp h with rfl | h
    · simp
    · have hx : x.1 ≠ st.1 := fun e => hnd.1 (e ▸ List.mem_map_of_mem Prod.fst h)
      simp [hx, ih hnd.2 h]

theorem get?_eraseAll_of_mem {steps : List (FakePath × Seg)} (hnd : (steps.map Prod.fst).Nodup)
    (s : EntryStore μ) {st : FakePath × Seg} (h : st ∈ steps) :
    (eraseAll steps s).entries.get? st.1 = some (eraseLast st.2 ((s.entries.get? st.1).getD [])) := by
  rw [get?_eraseAll _ hnd, find?_key_of_mem hnd h]

theorem get?_foldl_appendStep_of_mem {steps : List (FakePath × Seg)} (hnd : (steps.map Prod.fst).Nodup)
    (s : EntryStore μ) {st : FakePath × Seg} (h : st ∈ steps) :
    (steps.foldl appendStep s).entries.get? st.1 = some ((s.entries.get? st.1).getD [] ++ [⟨st.2, none⟩]) := by
  rw [get?_foldl_appendStep _ hnd, find?_key_of_mem hnd h]

/-- The loop over directories that exist and already hold the next name: no directory is
created or retired, each gains one occurrence. -/
theorem forM_addEntryAndDirectory_present (steps : List (FakePath × Seg))
    (hnd : (steps.map Prod.fst).Nodup) (s : EntryStore μ)
    (h : ∀ st ∈ steps, st.2 ∈ names ((s.entries.get? st.1).getD [])) :
    (steps.forM fun (d, e) => addEntryAndDirectory d e) s = .ok ⟨⟩ (steps.foldl appendStep s) := by
  refine forM_eq_foldl _ _ (fun rest t => (rest.map Prod.fst).Nodup ∧
    ∀ st ∈ rest, st.2 ∈ names ((t.entries.get? st.1).getD [])) ?_ _ _ ⟨hnd, h⟩
  rintro ⟨d, e⟩ rest t ⟨hnd, ht⟩
  rw [List.map_cons, List.nodup_cons] at hnd
  have he := ht (d, e) (List.mem_cons_self _ _)
  obtain ⟨l, hl⟩ : ∃ l, t.entries.get? d = some l := by
    cases hd : t.entries.get? d with
    | none => simp [hd, names] at he
    | some l => exact ⟨l, rfl⟩
  rw [hl, Option.getD_some] at he
  have hne : l.isEmpty = false := by
    cases l with
    | nil => simp [names] at he
    | cons _ _ => rfl
  refine ⟨addEntryAndDirectory_of_present _ _ _ l hl (by simp [hne]), hnd.2, fun st hst => ?_⟩
  have hk : d ≠ st.1 := fun hd => hnd.1 (by simpa [hd] using List.mem_map_of_mem Prod.fst hst)
  simpa [appendStep, hk] using ht st (List.mem_cons_of_mem _ hst)

/-- The loop over directories that do not exist yet: each is created with one entry. -/
theorem forM_addEntryAndDirectory_fresh (steps : List (FakePath × Seg))
    (hnd : (steps.map Prod.fst).Nodup) (s : EntryStore μ) (h : ∀ st ∈ steps, s.entries.get? st.1 = none) :
    (steps.forM fun (d, e) => addEntryAndDirectory d e) s = .ok ⟨⟩ (steps.foldl appendStep s) := by
  refine forM_eq_foldl _ _ (fun rest t => (rest.map Prod.fst).Nodup ∧
    ∀ st ∈ rest, t.entries.get? st.1 = none) ?_ _ _ ⟨hnd, h⟩
  rintro ⟨d, e⟩ rest t ⟨hnd, ht⟩
  rw [List.map_cons, List.nodup_cons] at hnd
  refine ⟨addEntryAndDirectory_of_absent _ _ _ (ht (d, e) (List.mem_cons_self _ _)), hnd.2, fun st hst => ?_⟩
  have hk : d ≠ st.1 := fun hd => hnd.1 (by simpa [hd] using List.mem_map_of_mem Prod.fst hst)
  simpa [appendStep, hk] using ht st (List.mem_cons_of_mem _ hst)

/-- The step at the deepest existing directory `q`, after the loop over its ancestors: `q`
gains `r₀`; when `q` was an empty directory, `add_entry` first retires it, and the
occurrences the loop gave its ancestors with it. -/
theorem addEntryAndDirectory_after_ancestors (q : FakePath) (r₀ : Seg) (s : EntryStore μ) {l : List (Entry μ)}
    (hl : s.entries.get? q = some l)
    (hanc : ∀ st ∈ iterDirectoriesAndEntries [] q, st.2 ∈ names ((s.entries.get? st.1).getD [])) :
    ∃ B, addEntryAndDirectory q r₀ ((iterDirectoriesAndEntries [] q).foldl appendStep s) = .ok ⟨⟩ B ∧
      B.entries.get? q = some ((s.entries.get? q).getD [] ++ [⟨r₀, none⟩]) ∧
      (∀ st ∈ iterDirectoriesAndEntries [] q, B.entries.get? st.1 = if s.Retires q then
        s.entries.get? st.1 else some ((s.entries.get? st.1).getD [] ++ [⟨st.2, none⟩])) ∧
      (∀ k, (∀ st ∈ iterDirectoriesAndEntries [] q, st.1 ≠ k) → q ≠ k →
        B.entries.get? k = s.entries.get? k) := by
  have hndA := iterDirectoriesAndEntries_nodup [] q
  have hqA : ∀ st ∈ iterDirectoriesAndEntries [] q, st.1 ≠ q := fun st h e => by
    have := (length_of_mem_iterDirectoriesAndEntries h).2; rw [e] at this; simp at this
  set A := (iterDirectoriesAndEntries [] q).foldl appendStep s with hA
  have hAq : A.entries.get? q = some l := by rw [hA, get?_foldl_appendStep_of_not_mem _ _ _ hqA]; exact hl
  have hAanc : ∀ st ∈ iterDirectoriesAndEntries [] q,
      A.entries.get? st.1 = some ((s.entries.get? st.1).getD [] ++ [⟨st.2, none⟩]) :=
    fun st hst => get?_foldl_appendStep_of_mem hndA s hst
  have hoff : ∀ k, (∀ st ∈ iterDirectoriesAndEntries [] q, st.1 ≠ k) → A.entries.get? k = s.entries.get? k :=
    fun k hk => get?_foldl_appendStep_of_not_mem _ _ _ hk
  by_cases hr : s.Retires q
  · obtain ⟨hq0, l', hl', rfl⟩ := hr
    rw [hl] at hl'; cases hl'
    have hrem := removeEntriesAndDirectoriesRecursive_eq q hq0 A fun st hst => by
      rw [hAanc st hst]; simp [names]
    have hR : removeEffect q A = eraseAll (iterDirectoriesAndEntries [] q) A := by
      unfold removeEffect
      refine foldl_pruneStep_of_ne_nil _ _ fun st hst => ?_
      rw [get?_eraseAll_of_mem hndA _ hst, hAanc st hst]
      simp only [Option.getD_some, eraseLast_append_mk]
      intro hnil; have := hanc st hst; rw [hnil] at this; simp [names] at this
    have hRq : (removeEffect q A).entries.get? q = some [] := by
      rw [hR, get?_eraseAll_of_not_mem _ _ _ hqA, hAq]
    refine ⟨⟨(removeEffect q A).entries.set q [⟨r₀, none⟩]⟩, ?_, by simp [hl], fun st hst => ?_, fun k hk hne => ?_⟩
    · simp [addEntryAndDirectory, getAllEntries, hAq, hq0, hrem, addEntry, hRq]
    · simp only [Dict.get?_set, Ne.symm (hqA st hst), if_false, hR, get?_eraseAll_of_mem hndA _ hst, hAanc st hst,
        Option.getD_some]
      rw [if_pos ⟨hq0, [], hl, rfl⟩]
      obtain ⟨l₀, hl₀⟩ : ∃ l₀, s.entries.get? st.1 = some l₀ := by
        cases h0 : s.entries.get? st.1 with
        | none => have := hanc st hst; simp [h0, names] at this
        | some l₀ => exact ⟨l₀, rfl⟩
      simp only [hl₀, Option.getD_some, eraseLast_append_mk]
    · simp only [Dict.get?_set, hne, if_false, hR, get?_eraseAll_of_not_mem _ _ _ hk]
      exact hoff k hk
  · have hc : ¬ (q ≠ [] ∧ l.isEmpty) := fun ⟨h₁, h₂⟩ => hr ⟨h₁, l, hl, List.isEmpty_iff.mp h₂⟩
    refine ⟨appendStep A (q, r₀), addEntryAndDirectory_of_present _ _ _ l hAq hc, by simp [appendStep, hAq, hl],
      fun st hst => ?_, fun k hk hne => ?_⟩
    · simp [appendStep, Ne.symm (hqA st hst), hr, hAanc st hst]
    · simp [appendStep, hne, hoff k hk]

theorem addEntriesAndDirectoriesRecursive_spec (q : FakePath) (r₀ : Seg) (r₁ : FakePath)
    (s : EntryStore μ) (hq : s.entries.contains q)
    (hanc : ∀ st ∈ iterDirectoriesAndEntries [] q, st.2 ∈ names ((s.entries.get? st.1).getD []))
    (hfresh : ∀ st ∈ iterDirectoriesAndEntries (q ++ [r₀]) r₁, s.entries.get? st.1 = none) :
    ∃ s', addEntriesAndDirectoriesRecursive (q ++ r₀ :: r₁) s = .ok ⟨⟩ s' ∧ AddedAlong q r₀ r₁ s s' := by
  have hsplit : iterDirectoriesAndEntries [] (q ++ r₀ :: r₁) =
      iterDirectoriesAndEntries [] q ++ (q, r₀) :: iterDirectoriesAndEntries (q ++ [r₀]) r₁ := by
    simp [iterDirectoriesAndEntries_append, iterDirectoriesAndEntries]
  have hndC := iterDirectoriesAndEntries_nodup (q ++ [r₀]) r₁
  have shortA : ∀ st ∈ iterDirectoriesAndEntries [] q, ∀ k, q.length ≤ k.length → st.1 ≠ k :=
    fun st h k hk e => by have := (length_of_mem_iterDirectoriesAndEntries h).2; subst e; simp at this; omega
  have longC : ∀ st ∈ iterDirectoriesAndEntries (q ++ [r₀]) r₁, ∀ k, k.length ≤ q.length → st.1 ≠ k :=
    fun st h k hk e => by have := (length_of_mem_iterDirectoriesAndEntries h).1; subst e; simp at this; omega
  obtain ⟨l, hl⟩ := Dict.exists_of_contains hq
  have runA := forM_addEntryAndDirectory_present _ (iterDirectoriesAndEntries_nodup [] q) s hanc
  obtain ⟨B, runB, hBq, hBanc, hBother⟩ := addEntryAndDirectory_after_ancestors q r₀ s hl hanc
  have hBC : ∀ st ∈ iterDirectoriesAndEntries (q ++ [r₀]) r₁, B.entries.get? st.1 = none := fun st hst => by
    have hlen : q.length < st.1.length := by simpa using (length_of_mem_iterDirectoriesAndEntries hst).1
    rw [hBother _ (fun x hx => shortA x hx _ (le_of_lt hlen)) (fun e => by rw [e] at hlen; omega)]
    exact hfresh st hst
  have runC := forM_addEntryAndDirectory_fresh _ hndC B hBC
  refine ⟨(iterDirectoriesAndEntries (q ++ [r₀]) r₁).foldl appendStep B, ?_, ?_⟩
  · unfold addEntriesAndDirectoriesRecursive
    simp only [List.append_eq_nil, List.cons_ne_nil, and_false, if_false, pure_apply, bind_apply,
      EStateM.bind, hsplit, List.forM_append, List.forM_cons', runA, runB, runC]
  · refine ⟨fun st hst => ?_, ?_, fun st hst => ?_, fun k hk => ?_⟩
    · rw [get?_foldl_appendStep_of_not_mem _ _ _ fun x hx => longC x hx _
        (le_of_lt (by simpa using (length_of_mem_iterDirectoriesAndEntries hst).2))]
      exact hBanc st hst
    · rw [get?_foldl_appendStep_of_not_mem _ _ _ fun x hx => longC x hx q le_rfl]; exact hBq
    · rw [get?_foldl_appendStep_of_mem hndC B hst, hBC st hst]; rfl
    · rw [hsplit] at hk
      rw [get?_foldl_appendStep_of_not_mem _ _ _ fun x hx => hk x (by simp [hx])]
      exact hBother k (fun x hx => hk x (by simp [hx])) (hk (q, r₀) (by simp))

end EntryStore

end PyTagsFs
