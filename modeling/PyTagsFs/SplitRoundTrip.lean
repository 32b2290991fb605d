import PyTagsFs.Regex

/-! # Splitting what a pattern filled

A plain pattern, of text and unmodified variables, compiles to a linear regex: literal
characters, lazy groups and back-references. On such a regex the backtracking matcher is
sound (what it returns describes how the input was consumed) and complete (it finds a match
whenever one exists), and the two together give the round trip `fill (split s) = s`. -/
namespace PyTagsFs

namespace Node

/-- Text without a newline, or a variable without a case modifier whose name has no `>`. -/
def isPlain : Node → Bool
  | textNode expression => '\n' ∉ expression.toList
  | variableNode _ none name => '>' ∉ name.toList
  | _ => false

end Node

namespace RegexNode

def isLinear : RegexNode → Bool
  | literal _ | group _ | backReference _ => true
  | _ => false

/-- The names of the groups a regex defines, in order. -/
def groupNames : List RegexNode → List String
  | [] => []
  | group name :: nodes => name :: groupNames nodes
  | _ :: nodes => groupNames nodes

/-- The text a linear regex spells when each group and back-reference stands for `value`. -/
def expand (value : String → List Char) : List RegexNode → List Char
  | [] => []
  | literal c :: nodes => c :: expand value nodes
  | group name :: nodes | backReference name :: nodes => value name ++ expand value nodes
  | _ :: nodes => expand value nodes

/-- Every back-reference names a group defined before it, `defined` counting as before. -/
def BackReferencesDefined : List RegexNode → List String → Prop
  | [], _ => True
  | group name :: nodes, defined => BackReferencesDefined nodes (defined ++ [name])
  | backReference name :: nodes, defined => name ∈ defined ∧ BackReferencesDefined nodes defined
  | _ :: nodes, defined => BackReferencesDefined nodes defined

/-- How a linear regex consumed a text, from the captures before it to those after it. -/
inductive Consumes : List RegexNode → Captures → List Char → Captures → Prop
  | nil (captures) : Consumes [] captures [] captures
  | literal {c nodes captures s captures'} :
      Consumes nodes captures s captures' → Consumes (literal c :: nodes) captures (c :: s) captures'
  | group {name v nodes captures s captures'} :
      Consumes nodes ((name, v) :: captures) s captures' →
      Consumes (group name :: nodes) captures (v ++ s) captures'
  | backReference {name v nodes captures s captures'} : captures.lookup name = some v →
      Consumes nodes captures s captures' → Consumes (backReference name :: nodes) captures (v ++ s) captures'

section Matcher
variable {name : String} {captures : Captures} {k : List Char → Captures → Option Captures}

theorem lookup_cons_of_ne {m : String} (v : List Char) (h : m ≠ name) :
    ((name, v) :: captures).lookup m = captures.lookup m := by
  have : (m == name) = false := by simpa using h
  simp [List.lookup_cons, this]

@[simp] theorem matchNodes_nil (s : List Char) : matchNodes [] s captures k = k s captures := by
  simp [matchNodes]

@[simp] theorem matchNodes_cons (node : RegexNode) (nodes : List RegexNode) (s : List Char) :
    matchNodes (node :: nodes) s captures k = matchNode node s captures fun s c => matchNodes nodes s c k := by
  simp [matchNodes]

theorem lazyDot_sound {r : Captures} :
    ∀ {taken s : List Char}, lazyDot name captures k taken s = some r →
      ∃ v rest, v ≠ [] ∧ s = v ++ rest ∧ k rest ((name, taken ++ v) :: captures) = some r := by
  intro taken s
  induction s generalizing taken with
  | nil => simp [lazyDot]
  | cons c s ih =>
    intro h
    simp only [lazyDot] at h
    split_ifs at h
    cases hk : k s ((name, taken ++ [c]) :: captures) with
    | some r' =>
      rw [hk] at h; cases h
      exact ⟨[c], s, by simp, rfl, hk⟩
    | none =>
      rw [hk] at h
      obtain ⟨v, rest, -, rfl, hv⟩ := ih h
      exact ⟨c :: v, rest, by simp, rfl, by simpa using hv⟩

theorem lazyDot_complete {v rest : List Char} (hv : v ≠ []) (hnl : '\n' ∉ v) :
    ∀ {taken : List Char}, (k rest ((name, taken ++ v) :: captures)).isSome →
      (lazyDot name captures k taken (v ++ rest)).isSome := by
  induction v with
  | nil => exact absurd rfl hv
  | cons c v ih =>
    intro taken h
    have hc : c ≠ '\n' := fun e => hnl (e ▸ List.mem_cons_self _ _)
    simp only [List.cons_append, lazyDot, if_neg hc]
    cases hk : k (v ++ rest) ((name, taken ++ [c]) :: captures) with
    | some _ => rfl
    | none =>
      by_cases hv' : v = []
      · subst hv'; simp_all
      · simpa using ih hv' (fun h => hnl (List.mem_cons_of_mem _ h)) (by simpa using h)

/-- Soundness: a match of a linear regex splits the input into what the regex consumed and
what the continuation accepted. -/
theorem matchNodes_sound {r : Captures} :
    ∀ {nodes : List RegexNode} {s : List Char} {captures : Captures}, (∀ x ∈ nodes, x.isLinear) →
      matchNodes nodes s captures k = some r →
      ∃ t rest captures', s = t ++ rest ∧ Consumes nodes captures t captures' ∧ k rest captures' = some r := by
  intro nodes
  induction nodes with
  | nil => intro s captures _ h; exact ⟨[], s, captures, rfl, .nil _, by simpa using h⟩
  | cons node nodes ih =>
    intro s captures hlin h
    have hrest := fun x hx => hlin x (List.mem_cons_of_mem _ hx)
    rw [matchNodes_cons] at h
    cases node with
    | literal c =>
      cases s with
      | nil => simp [matchNode] at h
      | cons a s =>
        simp only [matchNode] at h
        split_ifs at h with ha
        subst ha
        obtain ⟨t, rest, c', rfl, hc, hk⟩ := ih hrest h
        exact ⟨a :: t, rest, c', rfl, .literal hc, hk⟩
    | group n =>
      simp only [matchNode] at h
      obtain ⟨v, rest₀, -, rfl, hm⟩ := lazyDot_sound h
      obtain ⟨t, rest, c', rfl, hc, hk⟩ := ih hrest hm
      exact ⟨v ++ t, rest, c', by simp, .group (by simpa using hc), hk⟩
    | backReference n =>
      simp only [matchNode] at h
      split at h
      · rename_i v hv
        split_ifs at h with hp
        obtain ⟨t, rest, c', he, hc, hk⟩ := ih hrest h
        refine ⟨v ++ t, rest, c', ?_, .backReference hv hc, hk⟩
        obtain ⟨u, rfl⟩ := hp
        simpa using he
      · cases h
    | prefixedGroup _ _ | optional _ | alternation _ _ => simp [isLinear] at hlin

/-- Completeness: if the input spells the regex under `value`, with captures that agree
with `value` on every group defined so far, the matcher finds a match. -/
theorem matchNodes_complete (value : String → List Char) (rest : List Char) :
    ∀ {nodes : List RegexNode} {defined : List String} {captures : Captures},
      (∀ x ∈ nodes, x.isLinear) → BackReferencesDefined nodes defined →
      (∀ n ∈ defined, captures.lookup n = some (value n)) →
      (∀ n ∈ groupNames nodes, value n ≠ [] ∧ '\n' ∉ value n) →
      (∀ captures', (∀ n ∈ defined ++ groupNames nodes, captures'.lookup n = some (value n)) →
        (k rest captures').isSome) →
      (matchNodes nodes (expand value nodes ++ rest) captures k).isSome := by
  intro nodes
  induction nodes with
  | nil => intro defined captures _ _ hc _ hk; simpa using hk captures (by simpa [groupNames] using hc)
  | cons node nodes ih =>
    intro defined captures hlin hdef hc hval hk
    have hrest := fun x hx => hlin x (List.mem_cons_of_mem _ hx)
    rw [matchNodes_cons]
    cases node with
    | literal c =>
      simpa [matchNode, expand] using ih hrest hdef hc (by simpa [groupNames] using hval)
        (by simpa [groupNames] using hk)
    | group n =>
      obtain ⟨hne, hnl⟩ := hval n (List.mem_cons_self _ _)
      simp only [matchNode, expand, List.append_assoc]
      refine lazyDot_complete hne hnl ?_
      refine ih hrest hdef (fun m hm => ?_) (fun m hm => hval m (List.mem_cons_of_mem _ hm))
        (fun c' hc' => hk c' (by simpa [groupNames] using hc'))
      by_cases e : n = m
      · subst e; simp
      · have hne : (m == n) = false := by simp [Ne.symm e]
        rcases List.mem_append.mp hm with hm | hm
        · simp [List.lookup_cons, hne, hc m hm]
        · simp at hm; exact absurd hm.symm e
    | backReference n =>
      obtain ⟨hn, hdef⟩ := hdef
      simp only [matchNode, expand, hc n hn, List.append_assoc, List.prefix_append, if_true,
        List.drop_left]
      exact ih hrest hdef hc (by simpa [groupNames] using hval) (by simpa [groupNames] using hk)
    | prefixedGroup _ _ | optional _ | alternation _ _ => simp [isLinear] at hlin

/-- What a linear regex consumed is what it spells under the final captures, when no group
name is defined twice or already captured. -/
theorem Consumes.eq_expand {nodes : List RegexNode} {captures captures' : Captures} {t : List Char}
    (h : Consumes nodes captures t captures') (hnd : (groupNames nodes).Nodup)
    (hfresh : ∀ n ∈ groupNames nodes, captures.lookup n = none) :
    t = expand (fun n => (captures'.lookup n).getD []) nodes ∧
      (∀ n, (captures.lookup n).isSome → captures'.lookup n = captures.lookup n) ∧
      (∀ n ∈ groupNames nodes, (captures'.lookup n).isSome) := by
  induction h with
  | nil => simp [expand, groupNames]
  | literal _ ih =>
    obtain ⟨h₁, h₂, h₃⟩ := ih (by simpa [groupNames] using hnd) (by simpa [groupNames] using hfresh)
    exact ⟨by simp [expand, h₁], h₂, by simpa [groupNames] using h₃⟩
  | @group name v nodes captures s captures' _ ih =>
    simp only [groupNames, List.nodup_cons, List.mem_cons, forall_eq_or_imp] at hnd hfresh ⊢
    have hne : ∀ m ∈ groupNames nodes, m ≠ name := fun m hm e => hnd.1 (e ▸ hm)
    obtain ⟨h₁, h₂, h₃⟩ := ih hnd.2 fun m hm => by rw [lookup_cons_of_ne _ (hne m hm), hfresh.2 m hm]
    have hname : captures'.lookup name = some v := by simpa using h₂ name (by simp)
    refine ⟨by simp [expand, hname, h₁], fun m hm => ?_, ⟨by simp [hname], h₃⟩⟩
    have hm' : m ≠ name := fun e => by simp [e, hfresh.1] at hm
    rw [h₂ m (by rwa [lookup_cons_of_ne _ hm']), lookup_cons_of_ne _ hm']
  | @backReference name v nodes captures s captures' hv _ ih =>
    obtain ⟨h₁, h₂, h₃⟩ := ih (by simpa [groupNames] using hnd) (by simpa [groupNames] using hfresh)
    have hname : captures'.lookup name = some v := by rw [h₂ name (by simp [hv]), hv]
    exact ⟨by simp [expand, hname, h₁], h₂, by simpa [groupNames] using h₃⟩

/-- The names of the groups and back-references, in order. -/
def referencedNames : List RegexNode → List String
  | [] => []
  | group name :: nodes | backReference name :: nodes => name :: referencedNames nodes
  | _ :: nodes => referencedNames nodes

theorem checkGroupsAll_linear :
    ∀ {nodes : List RegexNode} {defined defined' : List String}, (∀ x ∈ nodes, x.isLinear) →
      checkGroupsAll nodes defined = .ok defined' →
      defined' = defined ++ groupNames nodes ∧ (defined.Nodup → defined'.Nodup) ∧
        BackReferencesDefined nodes defined := by
  intro nodes
  induction nodes with
  | nil =>
    intro defined defined' _ h
    cases h
    exact ⟨by simp [groupNames], id, trivial⟩
  | cons node nodes ih =>
    intro defined defined' hlin h
    have hrest := fun x hx => hlin x (List.mem_cons_of_mem _ hx)
    cases node with
    | literal c =>
      obtain ⟨h₁, h₂, h₃⟩ := ih hrest (by simpa [checkGroupsAll, checkGroups] using h)
      exact ⟨by simpa [groupNames] using h₁, h₂, h₃⟩
    | group n =>
      by_cases hn : isName n = true ∧ n ∉ defined
      · simp only [checkGroupsAll, checkGroups, hn, Bool.not_true, decide_False, Bool.or_false] at h
        obtain ⟨h₁, h₂, h₃⟩ := ih hrest h
        refine ⟨by simpa [groupNames] using h₁, fun hd => h₂ ?_, h₃⟩
        exact List.nodup_append.mpr ⟨hd, List.nodup_singleton _, by simpa using hn.2⟩
      · rw [not_and_or, not_not] at hn
        rcases hn with hn | hn <;> simp [checkGroupsAll, checkGroups, hn] at h <;> cases h
    | backReference n =>
      by_cases hn : n ∈ defined
      · simp only [checkGroupsAll, checkGroups, hn, if_true] at h
        obtain ⟨h₁, h₂, h₃⟩ := ih hrest h
        exact ⟨by simpa [groupNames] using h₁, h₂, hn, h₃⟩
      · simp [checkGroupsAll, checkGroups, hn] at h
        cases h
    | prefixedGroup _ _ | optional _ | alternation _ _ => simp [isLinear] at hlin

theorem referencedNames_of_backReferencesDefined :
    ∀ {nodes : List RegexNode} {defined : List String}, BackReferencesDefined nodes defined →
      ∀ n ∈ referencedNames nodes, n ∈ defined ++ groupNames nodes := by
  intro nodes
  induction nodes with
  | nil => simp [referencedNames]
  | cons node nodes ih =>
    intro defined h n hn
    cases node with
    | literal c => simpa [groupNames] using ih h n (by simpa [referencedNames] using hn)
    | group m =>
      simp only [referencedNames, List.mem_cons] at hn
      rcases hn with rfl | hn
      · simp [groupNames]
      · simpa [groupNames] using ih h n hn
    | backReference m =>
      simp only [referencedNames, List.mem_cons] at hn
      rcases hn with rfl | hn
      · simp [groupNames, h.1]
      · simpa [groupNames] using ih h.2 n hn
    | prefixedGroup _ _ | optional _ | alternation _ _ =>
      simpa [groupNames] using ih h n (by simpa [referencedNames] using hn)

theorem groupNames_subset_referencedNames :
    ∀ {nodes : List RegexNode} {n : String}, n ∈ groupNames nodes → n ∈ referencedNames nodes := by
  intro nodes
  induction nodes with
  | nil => simp [groupNames]
  | cons node nodes ih =>
    intro n hn
    cases node <;> simp only [groupNames, referencedNames, List.mem_cons] at hn ⊢ <;>
      first | exact hn.imp id ih | exact Or.inr (ih hn) | exact ih hn

@[simp] theorem expand_literals (value : String → List Char) (e : List Char) (nodes : List RegexNode) :
    expand value (e.map literal ++ nodes) = e ++ expand value nodes := by
  induction e with
  | nil => rfl
  | cons c e ih => simp [expand, ih]

@[simp] theorem groupNames_literals (e : List Char) (nodes : List RegexNode) :
    groupNames (e.map literal ++ nodes) = groupNames nodes := by
  induction e with
  | nil => rfl
  | cons c e ih => simp [groupNames, ih]

@[simp] theorem referencedNames_literals (e : List Char) (nodes : List RegexNode) :
    referencedNames (e.map literal ++ nodes) = referencedNames nodes := by
  induction e with
  | nil => rfl
  | cons c e ih => simp [referencedNames, ih]

/-- The dict `groupdict` builds, one `set` per group name. -/
theorem get?_foldl_set (g : String → Option String) :
    ∀ (names : List String) (d : Dict String (Option String)) (n : String),
      (names.foldl (fun d name => d.set name (g name)) d).get? n = if n ∈ names then some (g n) else d.get? n := by
  intro names
  induction names with
  | nil => simp
  | cons a names ih =>
    intro d n
    rw [List.foldl_cons, ih]
    by_cases h₁ : n ∈ names
    · simp [h₁]
    · by_cases h₂ : a = n
      · simp [h₁, h₂]
      · simp [h₁, h₂, Ne.symm h₂]

end Matcher

end RegexNode

namespace Node

/-- How plain nodes compile: text to its literal characters, a variable to a group or, when
the rescan found its name, a back-reference. -/
inductive CompilesTo : List Node → List RegexNode → Prop
  | nil : CompilesTo [] []
  | textNode {expression nodes regex} : CompilesTo nodes regex →
      CompilesTo (textNode expression :: nodes) (expression.toList.map .literal ++ regex)
  | group {expression name nodes regex} : CompilesTo nodes regex →
      CompilesTo (variableNode expression none name :: nodes) (.group name :: regex)
  | backReference {expression name nodes regex} : CompilesTo nodes regex →
      CompilesTo (variableNode expression none name :: nodes) (.backReference name :: regex)

theorem compilesTo_evalAll (substitutions : Substitutions) :
    ∀ {nodes : List Node}, (∀ n ∈ nodes, n.isPlain) → ∀ content,
      CompilesTo nodes (Segment.evalAll (getRegexSegments substitutions nodes) content).2 := by
  intro nodes
  induction nodes with
  | nil => intro _ content; simpa [getRegexSegments, Segment.evalAll] using CompilesTo.nil
  | cons node nodes ih =>
    intro hplain content
    have hrest := fun n hn => hplain n (List.mem_cons_of_mem _ hn)
    have hnode := hplain node (List.mem_cons_self _ _)
    cases node with
    | textNode e =>
      simpa [getRegexSegments, getRegexSegment, Segment.evalAll, Segment.eval] using (ih hrest _).textNode
    | variableNode x m n =>
      cases m with
      | none =>
        simp only [getRegexSegments, getRegexSegment, Segment.evalAll, Segment.eval]
        split_ifs
        · exact (ih hrest _).backReference
        · rw [RegexNode.ofNamedGroup_of_not_mem (by simpa [isPlain] using hnode)]
          exact (ih hrest _).group
      | some _ => simp [isPlain] at hnode
    | conditionalNode _ _ => simp [isPlain] at hnode
    | ifElseNode _ _ _ => simp [isPlain] at hnode

section CompilesTo
variable {nodes : List Node} {regex : List RegexNode}

theorem CompilesTo.linear (h : CompilesTo nodes regex) : ∀ x ∈ regex, x.isLinear := by
  induction h with
  | nil => simp
  | textNode _ ih => intro x hx; simp at hx; rcases hx with ⟨c, -, rfl⟩ | hx <;> simp_all [RegexNode.isLinear]
  | group _ ih => intro x hx; simp at hx; rcases hx with rfl | hx <;> simp_all [RegexNode.isLinear]
  | backReference _ ih => intro x hx; simp at hx; rcases hx with rfl | hx <;> simp_all [RegexNode.isLinear]

theorem CompilesTo.referencedNames_eq (h : CompilesTo nodes regex) :
    RegexNode.referencedNames regex = variableNamesAll nodes := by
  induction h with
  | nil => simp [RegexNode.referencedNames, variableNamesAll]
  | textNode _ ih => simp [ih, variableNamesAll, variableNames]
  | group _ ih | backReference _ ih => simp [RegexNode.referencedNames, ih, variableNamesAll, variableNames]

/-- Filling plain nodes spells their regex, each variable standing for its value. -/
theorem CompilesTo.fillAll_eq (h : CompilesTo nodes regex) (substitutions : Substitutions)
    (value : String → List Char)
    (hv : ∀ n ∈ variableNamesAll nodes, substitutions.get? n = some (String.mk (value n))) :
    fillAll substitutions nodes = .ok (String.mk (RegexNode.expand value regex)) := by
  induction h with
  | nil => rfl
  | textNode _ ih =>
    rw [fillAll, fill, ih (by simpa [variableNamesAll, variableNames] using hv)]
    simp [String.ext_iff]
  | @group _ name _ _ _ ih | @backReference _ name _ _ _ ih =>
    simp only [variableNamesAll, variableNames, List.singleton_append, List.mem_cons, forall_eq_or_imp] at hv
    rw [fillAll, fill, hv.1, ih hv.2]
    simp [RegexNode.expand, Modifier.apply, String.ext_iff]

theorem CompilesTo.newline_not_mem (h : CompilesTo nodes regex) (hplain : ∀ n ∈ nodes, n.isPlain)
    (value : String → List Char) (hv : ∀ n ∈ RegexNode.referencedNames regex, '\n' ∉ value n) :
    '\n' ∉ RegexNode.expand value regex := by
  induction h with
  | nil => simp [RegexNode.expand]
  | textNode _ ih =>
    have := hplain _ (List.mem_cons_self _ _)
    simp only [isPlain, decide_eq_true_eq, String.toList] at this
    simpa [this] using ih (fun n hn => hplain n (List.mem_cons_of_mem _ hn)) (by simpa using hv)
  | group _ ih | backReference _ ih =>
    simp only [RegexNode.referencedNames, List.mem_cons, forall_eq_or_imp] at hv
    simpa [RegexNode.expand, hv.1] using ih (fun n hn => hplain n (List.mem_cons_of_mem _ hn)) hv.2

end CompilesTo

end Node

namespace SubstitutionPattern

/-- The split of a string a plain pattern filled, with values that are not empty and hold
no newline, fills back to that string. -/
theorem split_fill_round_trip (p : SubstitutionPattern) (substitutions : Substitutions) (s : String)
    (splitter : Splitter) (hplain : ∀ n ∈ p.childNodes, n.isPlain)
    (hvalues : ∀ name ∈ Node.variableNamesAll p.childNodes,
      ∃ v, substitutions.get? name = some v ∧ v ≠ "" ∧ '\n' ∉ v.toList)
    (hs : p.fill substitutions = .ok s) (hsplitter : p.getSplitter substitutions = .ok splitter) :
    ∃ m, splitter.split s = .ok m ∧ p.fill (m.filterMap id) = .ok s := by
  set ev := Segment.evalAll (Node.getRegexSegments substitutions p.childNodes) "^".toList with hev
  have hc : Node.CompilesTo p.childNodes ev.2 := Node.compilesTo_evalAll substitutions hplain _
  have hlin := hc.linear
  obtain ⟨names, hnames, rfl⟩ : ∃ names, RegexNode.checkGroupsAll ev.2 [] = .ok names ∧
      splitter = ⟨ev.2, names, String.mk (ev.1 ++ "$".toList)⟩ := by
    simp only [getSplitter, Splitter.compile, ← hev] at hsplitter
    cases h : RegexNode.checkGroupsAll ev.2 [] with
    | error e => rw [h] at hsplitter; cases hsplitter
    | ok names => rw [h] at hsplitter; cases hsplitter; exact ⟨names, rfl, rfl⟩
  obtain ⟨rfl, hnd, hdefined⟩ := RegexNode.checkGroupsAll_linear hlin hnames
  simp only [List.nil_append] at hnd hdefined ⊢
  have hreferenced := hc.referencedNames_eq
  -- the values the pattern was filled with
  let value := fun n => ((substitutions.get? n).getD "").toList
  have hvalue : ∀ n ∈ Node.variableNamesAll p.childNodes, substitutions.get? n = some (String.mk (value n)) := by
    intro n hn
    obtain ⟨v, hv, -⟩ := hvalues n hn
    simp [value, hv]
  have hsexp : s.toList = RegexNode.expand value ev.2 := by
    have := hc.fillAll_eq substitutions value hvalue
    rw [fill, this] at hs
    cases hs; rfl
  have hgroups : ∀ n ∈ RegexNode.groupNames ev.2, value n ≠ [] ∧ '\n' ∉ value n := by
    intro n hn
    have : n ∈ Node.variableNamesAll p.childNodes := by
      rw [← hreferenced]; exact RegexNode.groupNames_subset_referencedNames hn
    obtain ⟨v, hv, hne, hnl⟩ := hvalues n this
    simp only [value, hv, Option.getD_some]
    exact ⟨fun h => hne (String.ext h), hnl⟩
  -- the matcher finds a match, and it consumed all of `s`
  obtain ⟨r, hr⟩ : ∃ r, RegexNode.matchWhole ev.2 s.toList = some r := by
    refine Option.isSome_iff_exists.mp ?_
    have := @RegexNode.matchNodes_complete (fun rest captures =>
        if rest = [] ∨ rest = ['\n'] then some captures else none) value [] ev.2 [] [] hlin hdefined (by simp)
      hgroups (fun _ _ => by simp)
    rwa [List.append_nil, ← hsexp] at this
  obtain ⟨t, rest, captures, hst, hcons, hk⟩ := RegexNode.matchNodes_sound hlin hr
  have hnl : '\n' ∉ s.toList := by
    rw [hsexp]
    refine hc.newline_not_mem hplain value fun n hn => ?_
    rw [hreferenced] at hn
    obtain ⟨v, hv, -, hnl⟩ := hvalues n hn
    simpa [value, hv] using hnl
  split_ifs at hk with hrest
  cases hk
  have hrest : rest = [] := by
    rcases hrest with h | rfl
    · exact h
    · exact absurd (by rw [hst]; simp) hnl
  subst hrest
  rw [List.append_nil] at hst
  obtain ⟨ht, -, hbound⟩ := hcons.eq_expand (hnd List.nodup_nil) (by simp)
  refine ⟨_, by simp only [Splitter.split, hr]; rfl, ?_⟩
  rw [fill, hc.fillAll_eq _ (fun n => (r.lookup n).getD []) fun n hn => ?_, ← ht, ← hst]
  · rfl
  have hg : n ∈ RegexNode.groupNames ev.2 := by
    rw [← hreferenced] at hn
    simpa using RegexNode.referencedNames_of_backReferencesDefined hdefined n hn
  obtain ⟨v, hv⟩ := Option.isSome_iff_exists.mp (hbound n hg)
  simp [RegexNode.get?_foldl_set, hg, hv]

/-- `%a-%b-%a`, as `SubstitutionPattern` parses it. -/
def repeatedKeyPattern : SubstitutionPattern :=
  ⟨"%a-%b-%a", [.variableNode "%a" none "a", .textNode "-", .variableNode "%b" none "b", .textNode "-",
    .variableNode "%a" none "a"]⟩

/-- Its splitter: the second `%a` is a back-reference. -/
def repeatedKeySplitter : Splitter :=
  ⟨[.group "a", .literal '-', .group "b", .literal '-', .backReference "a"], ["a", "b"],
    "^(?P<a>.+?)\\-(?P<b>.+?)\\-(?P=a)$"⟩

theorem split_fill_round_trip_repeated_key :
    parse "%a-%b-%a" = .ok repeatedKeyPattern ∧
      ∃ m, repeatedKeySplitter.split "x-y-x" = .ok m ∧ repeatedKeyPattern.fill (m.filterMap id) = .ok "x-y-x" :=
  ⟨rfl, split_fill_round_trip repeatedKeyPattern ((Dict.empty.set "a" "x").set "b" "y") "x-y-x" repeatedKeySplitter
    (by decide) (by decide) rfl rfl⟩

/-- An empty value: the pattern fills it, but `.+?` needs a character, so the split of the
filled text raises `SplitError`. -/
theorem split_of_empty_value_fails :
    ((parse "%a").bind fun p => p.fill (Dict.empty.set "a" "")) = .ok "" ∧
      ((parse "%a").bind fun p => (p.getSplitter (Dict.empty.set "a" "")).bind fun sp => sp.split "") =
        .error (.splitError "^(?P<a>.+?)$" "") :=
  ⟨rfl, rfl⟩

/-- A variable name with a `>`: `sre_parse` ends the group name at the `>`, so `%{a>b}`
compiles to a group `a` whose text must start with `b>`, and the split of a fill raises. -/
theorem split_of_gt_in_variable_name_fails :
    ((parse "%{a>b}").bind fun p => p.fill (Dict.empty.set "a>b" "x")) = .ok "x" ∧
      ((parse "%{a>b}").bind fun p => (p.getSplitter (Dict.empty.set "a>b" "x")).bind fun sp => sp.split "x") =
        .error (.splitError "^(?P<a>b>.+?)$" "x") :=
  ⟨rfl, rfl⟩

end SubstitutionPattern

end PyTagsFs
