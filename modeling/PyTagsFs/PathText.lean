import PyTagsFs.Basic

/-! # Path strings: `posixpath.split`, `posixpath.join` and `split_path`

Everywhere else the model keeps a fake path as its list of segments. The code keeps a unicode
string and moves between the two with `split_path` and `join_path_abs` of `pytagsfs.util`,
which call `posixpath.split` and `posixpath.join`. Here those run on the string's code points.
`split_path` computes `components`, the nonempty runs between slashes, and it refuses exactly
the paths that end with a slash. So `split_path` undoes `join_path_abs` on every list of
segments but the empty one: `join_path_abs([])` is `/`, and `split_path` refuses `/`. -/
namespace PyTagsFs

namespace PosixPath

/-- `str.rstrip('/')`. -/
def rstripSep (s : List Char) : List Char :=
  (s.reverse.dropWhile (· == '/')).reverse

/-- `p.rfind('/') + 1`: the index just past the last slash, `0` when there is none. -/
def afterLastSep (p : List Char) : Nat :=
  p.length - (p.reverse.takeWhile (· != '/')).length

/-- `posixpath.split`: the tail is what follows the last slash; the head loses its trailing
slashes unless it is made of slashes only. -/
def split (p : List Char) : List Char × List Char :=
  let i := afterLastSep p
  let head := p.take i
  let tail := p.drop i
  (if head ≠ [] ∧ ¬ head.all (· == '/') then rstripSep head else head, tail)

/-- `posixpath.join(a, *p)`. -/
def join (a : List Char) (p : List (List Char)) : List Char :=
  p.foldl (fun path b =>
    if b.head? = some '/' then b
    else if path = [] ∨ path.getLast? = some '/' then path ++ b
    else path ++ '/' :: b) a

end PosixPath

/-- The loop of `split_path`: `posixpath.split` until the tail comes back empty, collecting
the tails. Each turn that goes on drops a character, so a path's length plus one turns are
enough. -/
def splitPathLoop : Nat → List Char → List (List Char) → List (List Char)
  | 0, _, parts => parts.reverse
  | fuel + 1, path, parts =>
    let (path', part) := PosixPath.split path
    if part = [] then parts.reverse else splitPathLoop fuel path' (parts ++ [part])

/-- `split_path`. -/
def splitPath (path : List Char) : Except Error (List (List Char)) :=
  if path.getLast? = some '/' then .error .valueError
  else .ok (splitPathLoop (path.length + 1) path [])

/-- `join_path_abs`: `os.path.join('/', *path_parts)`. -/
def joinPathAbs (pathParts : List (List Char)) : List Char :=
  PosixPath.join ['/'] pathParts

/-- `re.sub(ur'/{2,}', u'/', s)`: each run of two or more slashes becomes one, that is, a
slash followed by a slash goes. -/
def collapseSeps : List Char → List Char
  | [] => []
  | c :: tl => if c = '/' ∧ tl.head? = some '/' then collapseSeps tl else c :: collapseSeps tl

/-- `PyTagsFileSystem.process_options` on the format string: trailing slashes go, a leading
slash is added when missing, runs of slashes become one; then `split_path` gives the parts,
one substitution pattern per directory level. -/
def formatStringParts (formatString : List Char) : Except Error (List (List Char)) :=
  let formatString := PosixPath.rstripSep formatString
  let formatString :=
    if formatString.head? = some '/' then formatString else '/' :: formatString
  splitPath (collapseSeps formatString)

/-- A fake path as the code's strings see it: the names of its segments. -/
def segNames (p : FakePath) : List (List Char) := p.map (·.name.data)

/-! ## What a path names

`components` says what `split_path` is for: the levels of a path are the nonempty runs
between its slashes. -/

/-- The nonempty runs between the slashes of a path. -/
def components (p : List Char) : List (List Char) :=
  (p.splitOn '/').filter (!·.isEmpty)

theorem splitOn_append_cons {α : Type} [DecidableEq α] (x : α) (a b : List α) :
    (a ++ x :: b).splitOn x = a.splitOn x ++ b.splitOn x := by
  induction a with
  | nil => simp [List.splitOn]
  | cons c a ih =>
    simp only [List.splitOn] at ih ⊢
    rw [List.cons_append, List.splitOnP_cons, List.splitOnP_cons, ih]
    split
    · rfl
    · obtain ⟨h, t, ht⟩ := List.exists_cons_of_ne_nil (List.splitOnP_ne_nil (· == x) a)
      simp [ht]

theorem not_mem_of_mem_splitOn {α : Type} [DecidableEq α] (x : α) :
    ∀ (p c : List α), c ∈ p.splitOn x → x ∉ c
  | [], c, h => by simp_all
  | y :: p, c, h => by
    have ih := not_mem_of_mem_splitOn x p
    simp only [List.splitOn, List.splitOnP_cons] at h ih
    split at h
    · simp only [List.mem_cons] at h
      rcases h with rfl | h
      · simp
      · exact ih c h
    · rename_i hyx
      obtain ⟨h', t, ht⟩ := List.exists_cons_of_ne_nil (List.splitOnP_ne_nil (· == x) p)
      simp only [ht, List.modifyHead_cons, List.mem_cons] at h ih
      rcases h with rfl | h
      · simp only [List.mem_cons, not_or]
        exact ⟨fun hxy => hyx (by simp [hxy]), ih _ (.inl rfl)⟩
      · exact ih c (.inr h)

@[simp] theorem components_nil : components [] = [] := rfl

theorem components_append_sep (a b : List Char) :
    components (a ++ '/' :: b) = components a ++ components b := by
  simp [components, splitOn_append_cons]

@[simp] theorem components_sep_cons (b : List Char) : components ('/' :: b) = components b := by
  simpa using components_append_sep [] b

theorem components_of_sepFree {t : List Char} (hne : t ≠ []) (hsep : '/' ∉ t) :
    components t = [t] := by
  have : t.splitOn '/' = [t] :=
    List.splitOnP_eq_single _ _ fun c hc => by simpa using ne_of_mem_of_not_mem hc hsep
  simp [components, this, hne]

theorem components_of_all_sep : ∀ {p : List Char}, (∀ c ∈ p, c = '/') → components p = []
  | [], _ => rfl
  | c :: p, h => by
    obtain rfl : c = '/' := h c (List.mem_cons_self c p)
    simpa using components_of_all_sep fun d hd => h d (List.mem_cons_of_mem _ hd)

/-- Every component is a segment. -/
theorem components_eq_segNames (p : List Char) : ∃ segs : FakePath, components p = segNames segs := by
  have hwf : ∀ c ∈ components p, c ≠ [] ∧ '/' ∉ c := fun c hc => by
    simp only [components, List.mem_filter] at hc
    exact ⟨by simpa using hc.2, not_mem_of_mem_splitOn '/' p c hc.1⟩
  refine ⟨(components p).attach.map fun c =>
    Seg.mk (String.mk c.1) (by simpa [String.ext_iff] using (hwf c.1 c.2).1) (hwf c.1 c.2).2, ?_⟩
  simp [segNames, Function.comp_def]

/-! ## Trailing and repeated slashes -/

/-- A list is its `rstrip` followed by slashes. -/
theorem rstripSep_append (s : List Char) :
    ∃ t, s = PosixPath.rstripSep s ++ t ∧ ∀ c ∈ t, c = '/' := by
  refine ⟨(s.reverse.takeWhile (· == '/')).reverse, ?_, fun c hc => ?_⟩
  · have h := congrArg List.reverse (List.takeWhile_append_dropWhile (· == '/') s.reverse)
    rw [List.reverse_append, List.reverse_reverse] at h
    exact h.symm
  · simpa using List.mem_takeWhile_imp (List.mem_reverse.mp hc)

theorem getLast?_rstripSep (s : List Char) : (PosixPath.rstripSep s).getLast? ≠ some '/' := by
  have h := List.head?_dropWhile_not (· == '/') s.reverse
  intro hs
  simp only [PosixPath.rstripSep, List.getLast?_reverse] at hs
  simp [hs] at h

theorem components_append_all_sep {a t : List Char} (ht : ∀ c ∈ t, c = '/') :
    components (a ++ t) = components a := by
  cases t with
  | nil => simp
  | cons c t =>
    obtain rfl : c = '/' := ht c (List.mem_cons_self c t)
    rw [components_append_sep, components_of_all_sep fun d hd => ht d (List.mem_cons_of_mem _ hd),
      List.append_nil]

theorem components_rstripSep (s : List Char) : components (PosixPath.rstripSep s) = components s := by
  obtain ⟨t, hs, ht⟩ := rstripSep_append s
  conv_rhs => rw [hs]
  exact (components_append_all_sep ht).symm

theorem components_append_collapseSeps (s : List Char) :
    ∀ pre, components (pre ++ collapseSeps s) = components (pre ++ s) := by
  induction s with
  | nil => simp [collapseSeps]
  | cons c s ih =>
    intro pre
    rw [collapseSeps]
    split
    · next h =>
      obtain ⟨rfl, hs⟩ := h
      obtain ⟨s, rfl⟩ : ∃ t, s = '/' :: t := by
        cases s with
        | nil => cases hs
        | cons d t => exact ⟨t, by simpa using hs⟩
      rw [ih, components_append_sep, components_append_sep, components_sep_cons]
    · simpa using ih (pre ++ [c])

theorem getLast?_collapseSeps : ∀ {p : List Char}, p.getLast? ≠ some '/' →
    (collapseSeps p).getLast? = p.getLast?
  | [], _ => rfl
  | c :: tl, h => by
    have ih := @getLast?_collapseSeps tl
    rw [collapseSeps]
    split
    · next hc =>
      obtain ⟨d, t, rfl⟩ := List.exists_cons_of_ne_nil (show tl ≠ [] from fun h' => by simp [h'] at hc)
      rw [List.getLast?_cons_cons] at h ⊢
      exact ih h
    · cases tl with
      | nil => simp [collapseSeps]
      | cons d t =>
        rw [List.getLast?_cons_cons] at h
        have hne : collapseSeps (d :: t) ≠ [] := fun hn => by
          have := ih h
          rw [hn, List.getLast?_nil] at this
          exact absurd this.symm (by simp)
        obtain ⟨e, u, hu⟩ := List.exists_cons_of_ne_nil hne
        rw [hu, List.getLast?_cons_cons, ← hu, ih h, List.getLast?_cons_cons]

/-! ## `posixpath.split` and the loop of `split_path` -/

namespace PosixPath

/-- `posixpath.split` cuts a path after its last slash: the part before ends with that slash
or is empty, the tail has no slash. -/
theorem split_eq (p : List Char) :
    ∃ pre tail, p = pre ++ tail ∧ '/' ∉ tail ∧ (pre = [] ∨ pre.getLast? = some '/') ∧
      split p = (if pre ≠ [] ∧ ¬ pre.all (· == '/') then rstripSep pre else pre, tail) := by
  obtain ⟨tw, dw, htw, hdw⟩ : ∃ tw dw, tw = p.reverse.takeWhile (· != '/') ∧
      dw = p.reverse.dropWhile (· != '/') := ⟨_, _, rfl, rfl⟩
  have hp : p = dw.reverse ++ tw.reverse := by
    rw [← List.reverse_append, htw, hdw, List.takeWhile_append_dropWhile, List.reverse_reverse]
  have hi : afterLastSep p = dw.reverse.length := by
    have h := congrArg List.length hp
    rw [List.length_append, List.length_reverse, List.length_reverse] at h
    rw [afterLastSep, ← htw, List.length_reverse]
    omega
  refine ⟨dw.reverse, tw.reverse, hp, fun h => ?_, ?_, ?_⟩
  · rw [htw] at h
    simpa using List.mem_takeWhile_imp (List.mem_reverse.mp h)
  · have h := List.head?_dropWhile_not (· != '/') p.reverse
    rw [← hdw] at h
    rw [List.getLast?_reverse]
    cases hd : dw.head? with
    | none => exact .inl (by simpa using hd)
    | some c => rw [hd] at h; exact .inr (by simpa using h)
  · simp only [split, hi]
    rw [hp, List.take_left' rfl, List.drop_left' rfl]

end PosixPath

/-- What the loop of `split_path` keeps true of its path: it does not end with a slash, or it
is made of slashes only. -/
def SplitReady (p : List Char) : Prop := p.getLast? ≠ some '/' ∨ ∀ c ∈ p, c = '/'

theorem components_append_tail {pre tail : List Char} (hpre : pre = [] ∨ pre.getLast? = some '/')
    (hne : tail ≠ []) (hsep : '/' ∉ tail) : components (pre ++ tail) = components pre ++ [tail] := by
  rcases hpre with rfl | hpre
  · simpa using components_of_sepFree hne hsep
  · obtain ⟨ys, rfl⟩ := List.getLast?_eq_some_iff.mp hpre
    rw [List.append_assoc, List.singleton_append, components_append_sep, components_append_sep,
      components_of_sepFree hne hsep, components_nil, List.append_nil]

/-- The head `posixpath.split` hands back names the same levels as the part it came from, and
it is again a path the loop can take. -/
theorem split_head {pre head : List Char}
    (hhead : head = if pre ≠ [] ∧ ¬ pre.all (· == '/') then PosixPath.rstripSep pre else pre) :
    components head = components pre ∧ SplitReady head ∧ head.length ≤ pre.length := by
  subst hhead
  split_ifs with h
  · obtain ⟨t, ht, -⟩ := rstripSep_append pre
    refine ⟨components_rstripSep pre, .inl (getLast?_rstripSep pre), ?_⟩
    conv_rhs => rw [ht]
    simp
  · refine ⟨rfl, .inr fun c hc => ?_, le_rfl⟩
    have : pre.all (· == '/') = true := by
      by_contra hall
      exact h ⟨List.ne_nil_of_mem hc, hall⟩
    simpa using List.all_eq_true.mp this c hc

theorem splitPathLoop_eq : ∀ (fuel : Nat) (p : List Char) (parts : List (List Char)),
    p.length < fuel → SplitReady p → splitPathLoop fuel p parts = components p ++ parts.reverse
  | 0, _, _, h, _ => absurd h (Nat.not_lt_zero _)
  | fuel + 1, p, parts, hlen, hp => by
    obtain ⟨pre, tail, rfl, hsep, hpre, hsplit⟩ := PosixPath.split_eq p
    rw [splitPathLoop, hsplit]
    dsimp only
    split
    · next htail =>
      subst htail
      rw [List.append_nil] at hp ⊢
      have : components pre = [] := by
        rcases hpre with rfl | hpre
        · rfl
        · exact components_of_all_sep (hp.resolve_left (not_not.mpr hpre))
      rw [this, List.nil_append]
    · next hne =>
      obtain ⟨hcomp, hready, hle⟩ := split_head rfl
      have hlt : pre.length < pre.length + tail.length := by
        have := List.length_pos.mpr hne
        omega
      rw [splitPathLoop_eq fuel _ _ (by simp at hlen; omega) hready, hcomp,
        components_append_tail hpre hne hsep]
      simp

theorem splitPath_eq (p : List Char) :
    splitPath p = if p.getLast? = some '/' then .error .valueError else .ok (components p) := by
  rw [splitPath]
  split
  · rfl
  · next h => rw [splitPathLoop_eq _ _ _ (Nat.lt_succ_self _) (.inl h), List.reverse_nil,
      List.append_nil]

/-- `split_path` refuses exactly the paths that end with a slash and otherwise returns their
components, each of which is a segment. -/
theorem split_path_components (p : List Char) :
    splitPath p = (if p.getLast? = some '/' then .error .valueError else .ok (components p)) ∧
      ∃ segs : FakePath, components p = segNames segs :=
  ⟨splitPath_eq p, components_eq_segNames p⟩

example : splitPath "//music/a//b".data = .ok ["music".data, "a".data, "b".data] := rfl

/-! ## `join_path_abs` and the round trip -/

namespace Seg

theorem head?_ne_sep (s : Seg) : s.name.data.head? ≠ some '/' :=
  fun h => s.no_sep (List.mem_of_mem_head? h)

theorem getLast?_append_ne_sep (x : List Char) (s : Seg) : (x ++ s.name.data).getLast? ≠ some '/' := by
  obtain ⟨c, hc⟩ := Option.ne_none_iff_exists'.mp (mt List.getLast?_eq_none_iff.mp s.data_ne_nil)
  rw [List.getLast?_append, hc]
  rintro ⟨⟩
  exact s.no_sep (List.mem_of_getLast?_eq_some hc)

end Seg

/-- Past a path that does not end with a slash, `posixpath.join` puts one slash before each
segment. -/
theorem join_segNames (segs : FakePath) :
    ∀ acc : List Char, acc ≠ [] → acc.getLast? ≠ some '/' →
      PosixPath.join acc (segNames segs) = acc ++ (segNames segs).flatMap ('/' :: ·) ∧
        (acc ++ (segNames segs).flatMap ('/' :: ·)).getLast? ≠ some '/' := by
  induction segs with
  | nil => intro acc _ hlast; simpa [PosixPath.join, segNames] using hlast
  | cons s segs ih =>
    intro acc hne hlast
    have hstep := ih (acc ++ '/' :: s.name.data) (by simp)
      (by simpa using Seg.getLast?_append_ne_sep (acc ++ ['/']) s)
    simp only [segNames, List.map_cons, List.flatMap_cons] at hstep ⊢
    simp only [PosixPath.join, List.foldl_cons, s.head?_ne_sep, hne, hlast, if_false, or_self,
      false_or] at hstep ⊢
    simpa using hstep

theorem joinPathAbs_cons (s : Seg) (segs : FakePath) :
    joinPathAbs (segNames (s :: segs)) = '/' :: s.name.data ++ (segNames segs).flatMap ('/' :: ·) := by
  have h := join_segNames segs ('/' :: s.name.data) (by simp)
    (by simpa using Seg.getLast?_append_ne_sep ['/'] s)
  simpa [joinPathAbs, PosixPath.join, segNames, s.head?_ne_sep] using h.1

theorem getLast?_joinPathAbs_cons (s : Seg) (segs : FakePath) :
    (joinPathAbs (segNames (s :: segs))).getLast? ≠ some '/' := by
  rw [joinPathAbs_cons]
  exact (join_segNames segs ('/' :: s.name.data) (by simp)
    (by simpa using Seg.getLast?_append_ne_sep ['/'] s)).2

theorem components_append_flatMap (segs : FakePath) :
    ∀ x : List Char, components (x ++ (segNames segs).flatMap ('/' :: ·)) = components x ++ segNames segs := by
  induction segs with
  | nil => simp [segNames]
  | cons s segs ih =>
    intro x
    simp only [segNames, List.map_cons, List.flatMap_cons] at ih ⊢
    rw [List.cons_append, components_append_sep, ih,
      components_of_sepFree s.data_ne_nil s.no_sep, List.singleton_append]

theorem components_joinPathAbs (segs : FakePath) : components (joinPathAbs (segNames segs)) = segNames segs := by
  cases segs with
  | nil => rfl
  | cons s segs =>
    rw [joinPathAbs_cons, List.cons_append, components_sep_cons, components_append_flatMap,
      components_of_sepFree s.data_ne_nil s.no_sep]
    rfl

/-- `split_path` undoes `join_path_abs` on every fake path but the root, whose string `/` it
refuses. -/
theorem split_path_join_path_abs (segs : FakePath) :
    splitPath (joinPathAbs (segNames segs)) =
      if segs = [] then .error .valueError else .ok (segNames segs) := by
  rw [splitPath_eq, components_joinPathAbs]
  cases segs with
  | nil => rfl
  | cons s segs => simp [getLast?_joinPathAbs_cons]

theorem head?_joinPathAbs (segs : FakePath) : (joinPathAbs (segNames segs)).head? = some '/' := by
  cases segs with
  | nil => rfl
  | cons s segs => rw [joinPathAbs_cons]; rfl

/-- `join_path_abs([fake_path, entry])`, as `get_end_points` names an entry below a directory,
is the string of the fake path one segment longer. -/
theorem join_path_abs_entry (p : FakePath) (e : Seg) :
    joinPathAbs [joinPathAbs (segNames p), e.name.data] = joinPathAbs (segNames (p ++ [e])) := by
  have hJ := head?_joinPathAbs p
  simp only [joinPathAbs, PosixPath.join, segNames, List.map_append, List.map_cons, List.map_nil,
    List.foldl_append, List.foldl_cons, List.foldl_nil] at hJ ⊢
  rw [if_pos hJ]

/-! ## The format string -/

theorem components_ne_nil {p : List Char} (hne : p ≠ []) (hlast : p.getLast? ≠ some '/') :
    components p ≠ [] := by
  obtain ⟨pre, tail, rfl, hsep, hpre, -⟩ := PosixPath.split_eq p
  by_cases ht : tail = []
  · subst ht
    rw [List.append_nil] at hne hlast
    exact absurd (hpre.resolve_left hne) hlast
  · simp [components_append_tail hpre ht hsep]

theorem components_collapseSeps (s : List Char) : components (collapseSeps s) = components s := by
  simpa using components_append_collapseSeps s []

/-- After `process_options` normalises it, the format string's parts are its components, and
a format string without any is refused with `ValueError`. -/
theorem format_string_parts_components (formatString : List Char) :
    formatStringParts formatString =
      if components formatString = [] then .error .valueError else .ok (components formatString) := by
  rw [formatStringParts, splitPath_eq, components_collapseSeps, ← components_rstripSep formatString]
  have hlast := getLast?_rstripSep formatString
  generalize PosixPath.rstripSep formatString = f at hlast ⊢
  have hcomp : components (if f.head? = some '/' then f else '/' :: f) = components f := by
    split <;> simp
  rw [hcomp]
  rcases f with _ | ⟨c, f⟩
  · rfl
  · have hl : (if (c :: f).head? = some '/' then c :: f else '/' :: c :: f).getLast? =
        (c :: f).getLast? := by
      split <;> simp only [List.getLast?_cons_cons]
    rw [if_neg (by rwa [getLast?_collapseSeps (hl ▸ hlast), hl]),
      if_neg (components_ne_nil (List.cons_ne_nil c f) hlast)]

example : formatStringParts "%a//%l/".data = .ok ["%a".data, "%l".data] := rfl

example : formatStringParts "//".data = .error .valueError := rfl

end PyTagsFs
