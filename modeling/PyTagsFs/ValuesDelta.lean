import PyTagsFs.SplitRoundTrip
import PyTagsFs.ValuesLaws
import PyTagsFs.Unique

/-! # The delta of one changed value

What `rename_path` computes when the renamed segment's pattern is one variable `%k`: the
splitter reads the old and the new segment back as one value of `k` each, `combine` of
copies of one value is that value, and `diff3` then replaces one occurrence of the old value
of `k` by the new one and writes no other key. A fill reads only the variables of its
pattern, so a permutation of the new values that takes the new value for `k` fills every
pattern without `k` as the old one did. -/
namespace PyTagsFs

namespace Dict
variable {κ ν : Type} [DecidableEq κ]

@[simp] theorem items_set_empty (k : κ) (v : ν) : ((empty : Dict κ ν).set k v).items = [(k, v)] :=
  set_items_of_not_mem _ _ _ (by simp)

end Dict

section Unique
variable {α : Type} [DecidableEq α]

theorem unique_cons_replicate (a : α) (n : Nat) : unique (a :: List.replicate n a) = [a] := by
  rw [unique_cons, List.filter_eq_nil_iff.2 fun x hx => by
    simp [List.eq_of_mem_replicate ((mem_unique _ x).1 hx)]]

end Unique

/-! ## The splitter of one variable -/

namespace RegexNode

/-- `.+?` as the whole regex takes the whole line. -/
theorem lazyDot_whole (name : String) :
    ∀ (taken o : List Char), o ≠ [] → '\n' ∉ o →
      lazyDot name [] (fun rest captures => if rest = [] ∨ rest = ['\n'] then some captures else none) taken o =
        some [(name, taken ++ o)]
  | _, [], h, _ => absurd rfl h
  | taken, [c], _, hnl => by
    have hc : c ≠ '\n' := fun e => hnl (by simp [e])
    simp [lazyDot, hc]
  | taken, c :: d :: o, _, hnl => by
    have hc : c ≠ '\n' := fun e => hnl (by simp [e])
    have hd : d ≠ '\n' := fun e => hnl (by simp [e])
    have ih := lazyDot_whole name (taken ++ [c]) (d :: o) (by simp) fun h => hnl (List.mem_cons_of_mem _ h)
    rw [lazyDot, if_neg hc]
    simp [hd, ih]

end RegexNode

namespace Splitter

/-- The splitter of a single variable reads a whole line back as that variable. -/
theorem split_of_single_group {S : Splitter} {k : String} (hn : S.nodes = [.group k]) (hg : S.groupNames = [k])
    {o : String} (ho : o.data ≠ []) (hnl : '\n' ∉ o.data) : S.split o = .ok (Dict.empty.set k (some o)) := by
  simp [split, hn, hg, RegexNode.matchWhole, RegexNode.matchNode, RegexNode.lazyDot_whole k [] o.data ho hnl,
    pure, Except.pure]

end Splitter

namespace SubstitutionPattern

theorem getSplitter_of_single_variable {P : SubstitutionPattern} {ex k : String}
    (hP : P.childNodes = [.variableNode ex none k]) (hk : '>' ∉ k.toList) {v : Substitutions} {S : Splitter}
    (hS : P.getSplitter v = .ok S) : S.nodes = [.group k] ∧ S.groupNames = [k] := by
  simp [getSplitter, hP, Node.getRegexSegments, Node.getRegexSegment, Splitter.compile, Segment.evalAll,
    Segment.eval, Context.getNamedGroupNames, Context.scanNames, RegexNode.ofNamedGroup_of_not_mem hk,
    RegexNode.checkGroupsAll, RegexNode.checkGroups, bind, Except.bind, pure, Except.pure] at hS
  by_cases hk : RegexNode.isName k = false
  · simp [hk, throw, throwThe, MonadExceptOf.throw] at hS
  · simp only [hk, if_false] at hS
    cases hS
    exact ⟨rfl, rfl⟩

end SubstitutionPattern

/-! ## Fills read only their variables -/

namespace Node

mutual
/-- A fill reads only the variables of the node. -/
theorem fill_congr (p q : Substitutions) :
    ∀ node : Node, (∀ n ∈ variableNames node, p.get? n = q.get? n) → fill p node = fill q node
  | .textNode _, _ => rfl
  | .variableNode _ _ name, h => by rw [fill, fill, h name (by simp [variableNames])]
  | .conditionalNode _ childNodes, h => by
    rw [fill, fill, fillAll_congr p q childNodes fun n hn => h n (by simpa [variableNames] using hn)]
  | .ifElseNode _ left right, h => by
    rw [fill, fill, fillAll_congr p q left fun n hn => h n (by simp [variableNames, hn]),
      fillAll_congr p q right fun n hn => h n (by simp [variableNames, hn])]

theorem fillAll_congr (p q : Substitutions) :
    ∀ nodes : List Node, (∀ n ∈ variableNamesAll nodes, p.get? n = q.get? n) → fillAll p nodes = fillAll q nodes
  | [], _ => rfl
  | node :: nodes, h => by
    rw [fillAll, fillAll, fill_congr p q node fun n hn => h n (by simp [variableNamesAll, hn]),
      fillAll_congr p q nodes fun n hn => h n (by simp [variableNamesAll, hn])]
end

end Node

namespace SubstitutionPattern

theorem fill_congr (P : SubstitutionPattern) {p q : Substitutions}
    (h : ∀ n ∈ Node.variableNamesAll P.childNodes, p.get? n = q.get? n) : P.fill p = P.fill q :=
  Node.fillAll_congr p q P.childNodes h

theorem fill_of_single_variable {P : SubstitutionPattern} {ex k : String}
    (hP : P.childNodes = [.variableNode ex none k]) {p : Substitutions} {value : String} (hp : p.get? k = some value) :
    P.fill p = .ok value := by
  simp [fill, hP, Node.fillAll, Node.fill, hp, Modifier.apply, bind, Except.bind, pure, Except.pure]

end SubstitutionPattern

/-! ## `combine` and `diff3` of one changed value -/

namespace Values

/-- The values of one key. -/
def single (k : String) (values : List String) : Values := Dict.empty.set k values

theorem combineInto_single (k : String) (L : List String) (o : String) :
    combineInto (single k L) (single k [o]) = single k (L ++ [o]) := by
  simp [combineInto, single]

/-- `combine` of copies of one key's value gives that value once. -/
theorem combine_copies (k o : String) {β : Type} (l : List β) (hl : l ≠ []) :
    combine (l.map fun _ => single k [o]) = single k [o] := by
  obtain ⟨b, l, rfl⟩ := List.exists_cons_of_ne_nil hl
  have hfold : ∀ (l : List β) (L : List String), (l.map fun _ => single k [o]).foldl combineInto (single k L) =
      single k (L ++ List.replicate l.length o) := by
    intro l
    induction l with
    | nil => intro L; simp
    | cons _ l ih =>
      intro L
      simp only [List.map_cons, List.foldl_cons, combineInto_single, ih, List.length_cons, List.replicate_succ,
        List.append_assoc, List.singleton_append]
  have h0 : combineInto Dict.empty (single k [o]) = single k [o] := by simp [combineInto, single]
  apply Dict.ext_items
  simp only [combine, List.map_cons, List.foldl_cons, h0, hfold, List.singleton_append]
  simp [single, Dict.mapValues, unique_cons_replicate]

/-- `diff3` of a base with one key whose one value changes from `o` to `t`: the key gets the
base's values with one `o` removed and `t` appended, and no other key is written. -/
theorem diff3_single (B : Values) (k o t : String) (hot : o ≠ t) :
    ∃ merged, diff3 B (single k [o]) (single k [t]) = .ok merged ∧
      merged.items = [(k, ((B.get? k).getD []).erase o ++ [t])] := by
  have hdiff : diff2 (single k [o]) (single k [t]) = single k [t] := by
    simp [diff2, single, sameSet, hot.symm]
  have hm0 := @Dict.get?_foldl_erase_unless String (List String) _ (single k [t]).contains
  simp only [diff3, hdiff]
  generalize hm : List.foldl _ B B.keys = m0
  have hm0' : ∀ x, x ≠ k → m0.get? x = none := fun x hx => by
    rw [← hm, hm0]
    by_cases hxB : x ∈ B.keys
    · simp [hxB, hx, Ne.symm hx, single, Dict.contains]
    · simpa [hxB] using (Dict.get?_eq_none_iff B x).2 hxB
  have hitems : ∀ L, (m0.set k L).items = [(k, L)] := fun L => by
    rcases Dict.items_of_keys_eq (m0.set k L) k (fun x hx => by
      by_contra hxk
      rw [Dict.mem_keys_iff, Dict.get?_set, if_neg (Ne.symm hxk), hm0' x hxk] at hx
      simp at hx) with h | ⟨v, h⟩
    · have := Dict.mem_keys_set (m0) k L
      simp [Dict.keys, h] at this
    · have hv := Dict.get?_of_mem_items (m0.set k L) (k := k) (v := v) (by rw [h]; simp)
      rw [Dict.get?_set, if_pos rfl] at hv
      rw [h, ← Option.some.inj hv]
  cases hB : B.get? k with
  | none => exact ⟨m0.set k [t], by simp [single, hB, pure, Except.pure, bind, Except.bind], by simp [hitems]⟩
  | some bv => exact ⟨_, by simp [single, hB, removeValues, pure, Except.pure, bind, Except.bind], hitems _⟩

/-- Every choice of one value per key is a permutation. -/
theorem exists_mem_iterPermutationsOf (f : String → String) :
    ∀ (items : List (String × List String)), (∀ p ∈ items, f p.1 ∈ p.2) →
      ∃ d ∈ iterPermutationsOf items, ∀ x, d.get? x = (Dict.lookup items x).map fun _ => f x
  | [], _ => ⟨Dict.empty, by simp [iterPermutationsOf], fun x => by simp [Dict.lookup]⟩
  | (key, vs) :: rest, h => by
    obtain ⟨d', hd', hget⟩ := exists_mem_iterPermutationsOf f rest fun p hp => h p (List.mem_cons_of_mem _ hp)
    refine ⟨d'.set key (f key), ?_, fun x => ?_⟩
    · simp only [iterPermutationsOf, List.mem_flatMap, List.mem_map]
      exact ⟨d', hd', f key, h (key, vs) (List.mem_cons_self _ _), rfl⟩
    · by_cases hkx : key = x
      · subst hkx; simp [Dict.lookup]
      · simp [Dict.lookup, hkx, hget]

/-- Setting the values of `k` to a list holding `t`: every permutation of the old values,
with `k` set to `t`, is one of the new values, key by key. -/
theorem exists_permutation_of_set (B : Values) (k t : String) (L : List String) (ht : t ∈ L) {q : Substitutions}
    (hq : q ∈ B.iterPermutations) :
    ∃ p ∈ iterPermutations (B.set k L), p.get? k = some t ∧ ∀ x, x ≠ k → p.get? x = q.get? x := by
  have hq' : ∀ x, (q.get? x).isSome = (B.get? x).isSome ∧
      ∀ v, q.get? x = some v → ∃ vs, B.get? x = some vs ∧ v ∈ vs := get?_of_mem_iterPermutationsOf B.items hq
  let f := fun x => if x = k then t else (q.get? x).getD ""
  have hf : ∀ p ∈ (B.set k L).items, f p.1 ∈ p.2 := fun ⟨x, vs⟩ hx => by
    have hvs := Dict.get?_of_mem_items _ hx
    by_cases hxk : x = k
    · subst hxk
      simp only [Dict.get?_set, if_true, Option.some.injEq] at hvs
      subst hvs
      simpa [f] using ht
    · rw [Dict.get?_set, if_neg (Ne.symm hxk)] at hvs
      obtain ⟨v, hv⟩ := Option.isSome_iff_exists.1 (by rw [(hq' x).1, hvs]; rfl : (q.get? x).isSome = true)
      obtain ⟨vs', hvs', hmem⟩ := (hq' x).2 v hv
      rw [hvs] at hvs'
      cases hvs'
      simpa [f, hxk, hv] using hmem
  obtain ⟨p, hp, hget⟩ := exists_mem_iterPermutationsOf f (B.set k L).items hf
  have hget' : ∀ x, p.get? x = ((B.set k L).get? x).map fun _ => f x := hget
  refine ⟨p, hp, by simp [hget', f], fun x hxk => ?_⟩
  rw [hget', Dict.get?_set, if_neg (Ne.symm hxk)]
  cases hqx : q.get? x with
  | none =>
    have h1 := (hq' x).1
    cases hB : Dict.get? B x with
    | none => rfl
    | some _ => rw [hqx, hB] at h1; cases h1
  | some v =>
    obtain ⟨vs, hvs, -⟩ := (hq' x).2 v hqx
    simp [hvs, f, hxk, hqx]


theorem fromFlatDict_single (k o : String) : fromFlatDict (Dict.empty.set k (some o)) = single k [o] :=
  Dict.ext_items (by simp [fromFlatDict, Dict.mapValues, single])

/-- The values of a real path after one value `o` of `k` is replaced by `t`. -/
def replaceValue (B : Values) (k o t : String) : Values := B.set k (((B.get? k).getD []).erase o ++ [t])

/-- A permutation of the old values, with `k` moved to `t`, is a permutation of the new
values: it fills the single-variable pattern to `t`, and every pattern without `k` as before. -/
theorem exists_permutation_of_replaceValue (B : Values) (k o t : String) {P : SubstitutionPattern}
    {ex : String} (hP : P.childNodes = [.variableNode ex none k]) {q : Substitutions} (hq : q ∈ B.iterPermutations) :
    ∃ p ∈ (B.replaceValue k o t).iterPermutations, P.fill p = .ok t ∧
      ∀ Q : SubstitutionPattern, k ∉ Node.variableNamesAll Q.childNodes → Q.fill p = Q.fill q := by
  obtain ⟨p, hp, hk, hx⟩ := exists_permutation_of_set B k t _ (List.mem_append_right _ (List.mem_singleton_self t)) hq
  exact ⟨p, hp, SubstitutionPattern.fill_of_single_variable hP hk,
    fun Q hQ => Q.fill_congr fun n hn => hx n fun h => hQ (h ▸ hn)⟩

end Values

end PyTagsFs
