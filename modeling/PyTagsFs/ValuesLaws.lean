import PyTagsFs.Values
import Mathlib.Algebra.BigOperators.Group.List
import Mathlib.Algebra.Order.Ring.Nat

/-! # Laws of `iter_permutations` and `diff3`

`iter_permutations` is the Cartesian product of the value lists, in the order of
`List.sections`: the last popped key varies fastest. `diff3` rebases the difference of old
and new onto a base key by key, except that it reads `old[k]` for a key of the base that
the new values add, which raises `KeyError`. Each dict loop of the source updates one key
per item, so both rest on one lemma: a fold over distinct keys, read at one key. -/
namespace PyTagsFs

namespace Dict
variable {κ ν : Type} [DecidableEq κ]

/-- A fold whose step writes only the key of its item, read at one key: the item of that
key, if any, is applied once to the starting value. -/
theorem get?_foldl_pointwise (g : κ → ν → Option ν → Option ν) (step : Dict κ ν → κ × ν → Dict κ ν)
    (hstep : ∀ acc kv x, (step acc kv).get? x = if kv.1 = x then g x kv.2 (acc.get? x) else acc.get? x) :
    ∀ (items : List (κ × ν)), (items.map Prod.fst).Nodup → ∀ acc x,
      (items.foldl step acc).get? x = match lookup items x with
        | some v => g x v (acc.get? x)
        | none => acc.get? x
  | [], _, _, _ => rfl
  | (k, v) :: rest, hnd, acc, x => by
    obtain ⟨hk, hnd⟩ := List.nodup_cons.1 hnd
    rw [List.foldl_cons, get?_foldl_pointwise g step hstep rest hnd, hstep]
    by_cases hkx : k = x
    · subst hkx
      simp [(lookup_eq_none_iff _ _).2 hk, lookup]
    · cases h : lookup rest x <;> simp [lookup, hkx, h]

/-- Erasing every listed key that fails a test. -/
theorem get?_foldl_erase_unless (p : κ → Bool) :
    ∀ (ks : List κ) (m : Dict κ ν) (x : κ),
      (ks.foldl (fun m k => if p k then m else m.erase k) m).get? x = if x ∈ ks ∧ p x = false then none else m.get? x
  | [], _, _ => by simp
  | k :: ks, m, x => by
    rw [List.foldl_cons, get?_foldl_erase_unless p ks]
    by_cases hkx : k = x
    · subst hkx
      cases hp : p k <;> simp [hp]
    · by_cases hx : x ∈ ks <;> cases hp : p k <;> simp [hp, hx, hkx, Ne.symm hkx]

theorem lookup_items (d : Dict κ ν) (k : κ) : lookup d.items k = d.get? k := rfl

theorem get?_of_mem_items (d : Dict κ ν) {k : κ} {v : ν} (h : (k, v) ∈ d.items) : d.get? k = some v := by
  obtain ⟨d, hnd⟩ := d
  induction d with
  | nil => simp at h
  | cons a d ih =>
    simp only [List.map_cons, List.nodup_cons] at hnd
    simp only [get?, lookup] at ih ⊢
    rcases List.mem_cons.1 h with rfl | h
    · simp
    · have hak : a.1 ≠ k := fun e => hnd.1 (e ▸ List.mem_map_of_mem Prod.fst h)
      rw [if_neg hak]
      exact ih hnd.2 h

theorem mem_items_of_get? (d : Dict κ ν) {k : κ} {v : ν} (h : d.get? k = some v) : (k, v) ∈ d.items := by
  obtain ⟨items, _⟩ := d
  simp only [get?] at h
  induction items with
  | nil => simp [lookup] at h
  | cons p items ih =>
    obtain ⟨a, b⟩ := p
    by_cases hak : a = k
    · subst hak; simp only [lookup, if_true, Option.some.injEq] at h; subst h; simp
    · rw [lookup, if_neg hak] at h; exact List.mem_cons_of_mem _ (ih (List.nodup_cons.1 ‹_›).2 h)

theorem items_eq_nil (d : Dict κ ν) (h : ∀ k, d.get? k = none) : d.items = [] := by
  obtain ⟨_ | ⟨⟨k, v⟩, items⟩, _⟩ := d
  · rfl
  · simpa [get?, lookup] using h k

end Dict

namespace Values

/-! ## `iter_permutations` -/

/-- A permutation picks one value of each key of the items, and has no other key. -/
theorem get?_of_mem_iterPermutationsOf :
    ∀ (items : List (String × List String)) {d : Substitutions}, d ∈ iterPermutationsOf items → ∀ x,
      (d.get? x).isSome = (Dict.lookup items x).isSome ∧
        ∀ v, d.get? x = some v → ∃ vs, Dict.lookup items x = some vs ∧ v ∈ vs
  | [], d, h, x => by
    simp only [iterPermutationsOf, List.mem_singleton] at h
    subst h
    simp [Dict.lookup]
  | (key, vs) :: rest, d, h, x => by
    simp only [iterPermutationsOf, List.mem_flatMap, List.mem_map] at h
    obtain ⟨d', hd', v, hv, rfl⟩ := h
    have ih := get?_of_mem_iterPermutationsOf rest hd' x
    by_cases hkx : key = x
    · subst hkx; simp [Dict.lookup, hv]
    · simpa [Dict.lookup, hkx] using ih

/-- Read at the keys, the permutations are the sections of the value lists. -/
theorem iterPermutationsOf_sections :
    ∀ items : List (String × List String), (items.map Prod.fst).Nodup →
      (iterPermutationsOf items).map (fun d => (items.map Prod.fst).map d.get?) =
        (items.map Prod.snd).sections.map (List.map some)
  | [], _ => rfl
  | (k, vs) :: rest, hnd => by
    obtain ⟨hk, hnd⟩ := List.nodup_cons.1 hnd
    have hF : ∀ (d : Substitutions) a, (((k, vs) :: rest).map Prod.fst).map (d.set k a).get? =
        some a :: (rest.map Prod.fst).map d.get? := fun d a => by
      rw [List.map_cons, List.map_cons, Dict.get?_set, if_pos rfl]
      exact congrArg _ (List.map_congr_left fun k' hk' => by
        rw [Dict.get?_set, if_neg fun (h : k = k') => hk (h ▸ hk')])
    calc (iterPermutationsOf ((k, vs) :: rest)).map (fun d => (((k, vs) :: rest).map Prod.fst).map d.get?)
        = ((iterPermutationsOf rest).map fun d => (rest.map Prod.fst).map d.get?).flatMap
            (fun t => vs.map fun a => some a :: t) := by
          rw [iterPermutationsOf, List.map_flatMap, List.flatMap_map]
          congr 1; funext d
          rw [List.map_map]
          exact List.map_congr_left fun a _ => hF d a
      _ = (((k, vs) :: rest).map Prod.snd).sections.map (List.map some) := by
          rw [iterPermutationsOf_sections rest hnd, List.flatMap_map, List.map_cons, List.sections, List.map_flatMap]
          congr 1; funext s
          rw [List.map_map]
          rfl

theorem length_iterPermutationsOf :
    ∀ items : List (String × List String),
      (iterPermutationsOf items).length = (items.map fun kv => kv.2.length).prod
  | [] => rfl
  | (k, vs) :: rest => by
    simp [iterPermutationsOf, length_iterPermutationsOf rest, Function.comp_def, mul_comm]

/-- `iter_permutations` yields one dict per choice of a value of every key, in the order of
`List.sections`, each with exactly the keys of `V`: `|L₁| * ... * |Lₙ|` of them. -/
theorem iterPermutations_eq_sections (V : Values) :
    V.iterPermutations.map (fun d => V.keys.map d.get?) = (V.items.map Prod.snd).sections.map (List.map some) ∧
      (∀ d ∈ V.iterPermutations, ∀ k, (d.get? k).isSome = true ↔ k ∈ V.keys) ∧
      V.iterPermutations.length = (V.items.map fun kv => kv.2.length).prod := by
  refine ⟨iterPermutationsOf_sections V.items V.nodup, fun d hd k => ?_, length_iterPermutationsOf V.items⟩
  rw [(get?_of_mem_iterPermutationsOf V.items hd k).1, Dict.mem_keys_iff]
  rfl

/-! ## `diff2` and `diff3` -/

/-- The keys `diff2` reports: in one of `old` and `new` only, or with other sets of values. -/
def changed (old new : Values) (k : String) : Bool :=
  match old.get? k, new.get? k with
  | some o, some n => !sameSet n o
  | none, none => false
  | _, _ => true

theorem get?_diff2 (old new : Values) (k : String) :
    (diff2 old new).get? k = if changed old new k then some ((new.get? k).getD []) else none := by
  have h := Dict.get?_foldl_pointwise
    (fun _ v cur => match cur with | some l => if sameSet l v then none else some l | none => some [])
    (fun difference kv => match difference.get? kv.1 with
      | some l => if sameSet l kv.2 then difference.erase kv.1 else difference
      | none => difference.set kv.1 [])
    (fun acc kv x => by
      by_cases hx : kv.1 = x
      · subst hx
        cases hl : acc.get? kv.1 with
        | none => simp [hl]
        | some l => by_cases hs : sameSet l kv.2 <;> simp [hl, hs]
      · cases hl : acc.get? kv.1 with
        | none => simp [hl, hx]
        | some l => by_cases hs : sameSet l kv.2 <;> simp [hl, hs, hx])
    old.items old.nodup new k
  rw [diff2]
  refine h.trans ?_
  rw [Dict.lookup_items]
  cases ho : old.get? k with
  | none => cases hn : new.get? k <;> simp [changed, ho, hn]
  | some o =>
    cases hn : new.get? k with
    | none => simp [changed, ho, hn]
    | some n => cases hs : sameSet n o <;> simp [changed, ho, hn, hs]

theorem removeValues_nil (oldValues : List String) : removeValues [] oldValues = [] := by
  unfold removeValues
  induction oldValues with
  | nil => rfl
  | cons a l ih => simpa using ih

theorem removeValues_self (l : List String) : removeValues l l = [] := by
  have h : ∀ m, l.foldl List.erase (l ++ m) = m := by
    induction l with
    | nil => intro m; rfl
    | cons a l ih => intro m; simpa using ih m
  simpa using h []

section Diff3
variable (base old new : Values)

/-- The loop of `diff3` over the difference, from the pruned copy of the base. -/
def rebaseStep (merged : Values) (kv : String × List String) : Except Error Values :=
  match base.get? kv.1 with
  | none => pure (merged.set kv.1 kv.2)
  | some baseValues => match old.get? kv.1 with
    | none => throw .keyError
    | some oldValues => pure (merged.set kv.1 (removeValues baseValues oldValues ++ kv.2))

/-- A key of the base that `old` lacks. -/
def Unreadable (kv : String × List String) : Prop := (base.get? kv.1).isSome ∧ old.get? kv.1 = none

theorem rebaseStep_eq (merged : Values) (kv : String × List String) (h : ¬Unreadable base old kv) :
    rebaseStep base old merged kv =
      .ok (merged.set kv.1 (removeValues ((base.get? kv.1).getD []) ((old.get? kv.1).getD []) ++ kv.2)) := by
  unfold Unreadable at h
  unfold rebaseStep
  cases hb : base.get? kv.1 with
  | none => simp [removeValues_nil, pure, Except.pure]
  | some bv => cases ho : old.get? kv.1 <;> simp_all [pure, Except.pure]

theorem foldlM_rebaseStep_error :
    ∀ (items : List (String × List String)) (merged : Values), (∃ kv ∈ items, Unreadable base old kv) →
      items.foldlM (rebaseStep base old) merged = .error .keyError
  | [], _, ⟨_, h, _⟩ => absurd h (List.not_mem_nil _)
  | kv :: rest, merged, ⟨kv', hkv', hu⟩ => by
    rw [List.foldlM_cons]
    by_cases h : Unreadable base old kv
    · obtain ⟨hb, ho⟩ := h
      obtain ⟨bv, hbv⟩ := Option.isSome_iff_exists.1 hb
      simp [rebaseStep, hbv, ho, throw, throwThe, MonadExceptOf.throw, bind, Except.bind]
    · rw [rebaseStep_eq base old merged kv h]
      rcases List.mem_cons.1 hkv' with rfl | hkv'
      · exact absurd hu h
      · exact foldlM_rebaseStep_error rest _ ⟨kv', hkv', hu⟩

theorem foldlM_rebaseStep_ok :
    ∀ (items : List (String × List String)) (merged : Values), (∀ kv ∈ items, ¬Unreadable base old kv) →
      items.foldlM (rebaseStep base old) merged = .ok (items.foldl (fun m kv =>
        m.set kv.1 (removeValues ((base.get? kv.1).getD []) ((old.get? kv.1).getD []) ++ kv.2)) merged)
  | [], _, _ => rfl
  | kv :: rest, merged, h => by
    rw [List.foldlM_cons, rebaseStep_eq base old merged kv (h kv (List.mem_cons_self _ _))]
    exact foldlM_rebaseStep_ok rest _ fun kv' hkv' => h kv' (List.mem_cons_of_mem _ hkv')

theorem diff3_eq_foldlM : diff3 base old new =
    (diff2 old new).items.foldlM (rebaseStep base old)
      (base.keys.foldl (fun m k => if (diff2 old new).contains k then m else m.erase k) base) := rfl

/-- The loop meets a key of the base that `old` lacks exactly when `new` adds a key of the base. -/
theorem exists_unreadable_iff : (∃ kv ∈ (diff2 old new).items, Unreadable base old kv) ↔
    ∃ k ∈ new.keys, k ∉ old.keys ∧ k ∈ base.keys := by
  constructor
  · rintro ⟨⟨k, dv⟩, hkv, hb, ho⟩
    have hd := Dict.get?_of_mem_items _ hkv
    rw [get?_diff2] at hd
    have hn : (new.get? k).isSome := by
      cases hn : new.get? k
      · simp [changed, ho, hn] at hd
      · rfl
    exact ⟨k, (Dict.mem_keys_iff _ _).2 hn, (Dict.get?_eq_none_iff _ _).1 ho, (Dict.mem_keys_iff _ _).2 hb⟩
  · rintro ⟨k, hn, ho, hb⟩
    rw [Dict.mem_keys_iff, Option.isSome_iff_exists] at hn
    obtain ⟨nv, hnv⟩ := hn
    have ho' : old.get? k = none := (Dict.get?_eq_none_iff _ _).2 ho
    refine ⟨(k, nv), Dict.mem_items_of_get? _ ?_, (Dict.mem_keys_iff _ _).1 hb, ho'⟩
    simp [get?_diff2, changed, ho', hnv]

/-- What `diff3` does: it raises `KeyError` exactly when a key of the base is added by
`new` and missing from `old`; otherwise it writes each key `diff2` reports, as the base's
values less one occurrence of each old value, followed by the new values, and nothing else. -/
theorem diff3_rebases :
    ((∃ k ∈ new.keys, k ∉ old.keys ∧ k ∈ base.keys) ∧ diff3 base old new = .error .keyError) ∨
      ((∀ k ∈ new.keys, k ∉ old.keys → k ∉ base.keys) ∧ ∃ D, diff3 base old new = .ok D ∧ ∀ k, D.get? k =
        if changed old new k then
          some (removeValues ((base.get? k).getD []) ((old.get? k).getD []) ++ (new.get? k).getD [])
        else none) := by
  by_cases hbad : ∃ k ∈ new.keys, k ∉ old.keys ∧ k ∈ base.keys
  · exact .inl ⟨hbad, foldlM_rebaseStep_error base old _ _ ((exists_unreadable_iff base old new).2 hbad)⟩
  · have hgood : ∀ kv ∈ (diff2 old new).items, ¬Unreadable base old kv :=
      fun kv hkv hu => hbad ((exists_unreadable_iff base old new).1 ⟨kv, hkv, hu⟩)
    refine .inr ⟨fun k hn ho hb => hbad ⟨k, hn, ho, hb⟩, _,
      by rw [diff3_eq_foldlM, foldlM_rebaseStep_ok base old _ _ hgood], fun k => ?_⟩
    rw [Dict.get?_foldl_pointwise
      (fun x dv _ => some (removeValues ((base.get? x).getD []) ((old.get? x).getD []) ++ dv)) _
      (fun acc kv x => by by_cases hx : kv.1 = x <;> simp [hx]) _ (diff2 old new).nodup, Dict.get?_foldl_erase_unless]
    rw [Dict.lookup_items, get?_diff2]
    by_cases hc : changed old new k
    · simp [hc]
    · have hnone : (diff2 old new).get? k = none := by simp [get?_diff2, hc]
      have hdk : (diff2 old new).contains k = false :=
        Bool.eq_false_iff.2 fun h => (Dict.get?_eq_none_iff _ _).1 hnone ((Dict.contains_iff _ _).1 h)
      by_cases hk : k ∈ base.keys
      · simp [hc, hk, hdk]
      · simp [hc, hk, (Dict.get?_eq_none_iff _ _).2 hk]

end Diff3

/-- A key that `new` adds while the base already has it: `diff3` reads `old["a"]` and
raises `KeyError` instead of appending `y` to the base's values. -/
theorem diff3_of_added_key_in_base_raises :
    diff3 (Dict.empty.set "a" ["x"]) Dict.empty (Dict.empty.set "a" ["y"]) = .error .keyError := rfl

/-- Rebasing onto `old` itself gives `diff2`, and `diff3(V, V, V)` is empty. -/
theorem diff3_self_base (old new V : Values) :
    (∃ D, diff3 old old new = .ok D ∧ ∀ k, D.get? k = (diff2 old new).get? k) ∧
      ∃ D, diff3 V V V = .ok D ∧ D.items = [] := by
  have hsame : ∀ k, changed V V k = false := fun k => by
    cases h : V.get? k <;> simp [changed, h, sameSet]
  constructor
  · rcases diff3_rebases old old new with ⟨⟨k, -, ho, hb⟩, -⟩ | ⟨-, D, hD, hget⟩
    · exact absurd hb ho
    · exact ⟨D, hD, fun k => by rw [hget, get?_diff2, removeValues_self, List.nil_append]⟩
  · rcases diff3_rebases V V V with ⟨⟨k, -, ho, hb⟩, -⟩ | ⟨-, D, hD, hget⟩
    · exact absurd hb ho
    · exact ⟨D, hD, Dict.items_eq_nil D fun k => by rw [hget, hsame]; rfl⟩

end Values

end PyTagsFs
