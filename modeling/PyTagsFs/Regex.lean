import PyTagsFs.Pattern

/-! # Split regexes: `pytagsfs.regex` and `Splitter`

Evaluating the segments `get_split_regex` builds yields the regex text and the nodes
`re.compile` reads from it. The matcher follows `sre`'s backtracking order: a lazy group
tries the shortest text first, an optional group its body, an alternation its first
branch. -/
namespace PyTagsFs

/-- The segments `get_regex_segment` builds. -/
inductive Segment where
  | escaped (text : String)
  | namedGroup (name : String)
  | optional (segments : List Segment)
  | alternation (first second : List Segment)
  deriving Repr

/-- What `re.compile` reads back from the text of a segment. -/
inductive RegexNode where
  | literal (c : Char)
  | group (name : String)
  | prefixedGroup (name : String) (pre : List Char)
  | backReference (name : String)
  | optional (body : List RegexNode)
  | alternation (first second : List RegexNode)
  deriving Repr

/-- What `sre_parse` reads from `(?P<name>.+?)`: the group name up to the first `>`, then
the rest of `name` and the `>` as literal text before `.+?`. -/
def RegexNode.ofNamedGroup (name : String) : RegexNode :=
  match name.toList.span (· ≠ '>') with
  | (_, []) => .group name
  | (pre, _ :: rest) => .prefixedGroup (String.mk pre) (rest ++ ['>'])

theorem RegexNode.ofNamedGroup_of_not_mem {name : String} (h : '>' ∉ name.toList) :
    RegexNode.ofNamedGroup name = .group name := by
  have hrest : name.data.dropWhile (fun c => !decide (c = '>')) = [] :=
    List.dropWhile_eq_nil_iff.2 fun c hc => by
      have : c ≠ '>' := fun he => h (he ▸ hc)
      simpa using this
  simp [ofNamedGroup, hrest]

namespace Node

mutual
/-- The names of the `VariableNode`s that `iter_child_nodes_recursive` visits. -/
def variableNames : Node → List String
  | textNode _ => []
  | variableNode _ _ name => [name]
  | conditionalNode _ childNodes => variableNamesAll childNodes
  | ifElseNode _ left right => variableNamesAll right ++ variableNamesAll left

def variableNamesAll : List Node → List String
  | [] => []
  | node :: nodes => variableNames node ++ variableNamesAll nodes
end

/-- `IfElseNode.get_regex_segment`'s order: the side with fewer unknown variables first,
then the side with fewer variables, the left side on a tie. -/
def leftFirst (substitutions : Substitutions) (left right : List Node) : Bool :=
  let unknowns := fun (names : List String) => (names.filter fun n => !substitutions.contains n).length
  let vl := variableNamesAll left
  let vr := variableNamesAll right
  if unknowns vl < unknowns vr then true
  else if unknowns vr < unknowns vl then false
  else vl.length ≤ vr.length

mutual
def getRegexSegment (substitutions : Substitutions) : Node → Segment
  | textNode expression => .escaped expression
  | variableNode _ _ variableName => .namedGroup variableName
  | conditionalNode _ childNodes => .optional (getRegexSegments substitutions childNodes)
  | ifElseNode _ left right =>
    if leftFirst substitutions left right then
      .alternation (getRegexSegments substitutions left) (getRegexSegments substitutions right)
    else .alternation (getRegexSegments substitutions right) (getRegexSegments substitutions left)

def getRegexSegments (substitutions : Substitutions) : List Node → List Segment
  | [] => []
  | node :: nodes => getRegexSegment substitutions node :: getRegexSegments substitutions nodes
end

end Node

namespace Context

/-- `_alphanum` of Python 2's `re.escape`. -/
def isAlphanum (c : Char) : Bool := c = '_' || Node.isAsciiLetter c || ('0' ≤ c && c ≤ '9')

/-- `re.escape`: a backslash before every other character, `\000` for a NUL. -/
def reEscape (s : List Char) : List Char :=
  s.flatMap fun c => if isAlphanum c then [c] else if c = '\x00' then "\\000".toList else ['\\', c]

/-- The name part `.*?[^\\]` of `named_group_start_regex` up to its `>`: the shortest
run, without a newline before its last character, that ends in a non-backslash followed
by `>`. Returns the name and what follows the `>`. -/
def lazyName : List Char → Option (List Char × List Char)
  | c :: d :: rest =>
    if c ≠ '\\' ∧ d = '>' then some ([c], rest)
    else if c = '\n' then none
    else (lazyName (d :: rest)).map fun (name, after) => (c :: name, after)
  | _ => none

/-- `finditer` of `(?<!\\)\(\?P\<(?P<name>.*?[^\\])\>`: `previous` is the character before
`s`, for the look-behind. -/
def scanNames : Nat → Option Char → List Char → List String
  | 0, _, _ => []
  | _ + 1, _, [] => []
  | fuel + 1, previous, c :: cs =>
    let next := fun (_ : Unit) => scanNames fuel (some c) cs
    if previous ≠ some '\\' ∧ (c :: cs).take 4 = "(?P<".toList then
      match lazyName (cs.drop 3) with
      | some (name, after) => String.mk name :: scanNames fuel (some '>') after
      | none => next ()
    else next ()

/-- `Context.get_named_group_names` of the text written so far. -/
def getNamedGroupNames (content : List Char) : List String := scanNames (content.length + 1) none content

end Context

namespace Segment

mutual
/-- `Segment.eval`: the text written to the context, and the nodes it compiles to. -/
def eval : Segment → List Char → List Char × List RegexNode
  | escaped text, content => (content ++ Context.reEscape text.toList, text.toList.map .literal)
  | namedGroup name, content =>
    if name ∈ Context.getNamedGroupNames content then (content ++ ("(?P=" ++ name ++ ")").toList, [.backReference name])
    else (content ++ ("(?P<" ++ name ++ ">" ++ ".+?" ++ ")").toList, [RegexNode.ofNamedGroup name])
  | optional segments, content =>
    let (content, body) := evalAll segments (content ++ "(?:".toList)
    (content ++ ")?".toList, [.optional body])
  | alternation first second, content =>
    let (content, firstNodes) := evalAll first (content ++ "(?:".toList)
    let (content, secondNodes) := evalAll second (content ++ "|".toList)
    (content ++ ")".toList, [.alternation firstNodes secondNodes])

def evalAll : List Segment → List Char → List Char × List RegexNode
  | [], content => (content, [])
  | segment :: segments, content =>
    let (content, nodes) := eval segment content
    let (content, rest) := evalAll segments content
    (content, nodes ++ rest)
end

end Segment

namespace RegexNode

/-- A group name of `sre_parse.isname`: an ASCII letter or `_`, then also digits. -/
def isName (name : String) : Bool :=
  match name.toList with
  | c :: cs => (c = '_' || Node.isAsciiLetter c) && cs.all Context.isAlphanum
  | [] => false

mutual
/-- The group checks of `sre_parse`: a valid name, no name defined twice, no
back-reference before its group. Returns the names defined, in order. -/
def checkGroups : RegexNode → List String → Except Error (List String)
  | literal _, defined => pure defined
  | group name, defined | prefixedGroup name _, defined =>
    if !isName name || name ∈ defined then throw .reError else pure (defined ++ [name])
  | backReference name, defined => if name ∈ defined then pure defined else throw .reError
  | optional body, defined => checkGroupsAll body defined
  | alternation first second, defined => do checkGroupsAll second (← checkGroupsAll first defined)

def checkGroupsAll : List RegexNode → List String → Except Error (List String)
  | [], defined => pure defined
  | node :: nodes, defined => do checkGroupsAll nodes (← checkGroups node defined)
end

/-- Captures, the latest binding of a name first. -/
abbrev Captures := List (String × List Char)

/-- `.+?` inside a group: the shortest run of non-newlines first; `taken` is what the
group has matched so far. -/
def lazyDot (name : String) (captures : Captures) (k : List Char → Captures → Option Captures)
    (taken : List Char) : List Char → Option Captures
  | [] => none
  | c :: rest =>
    if c = '\n' then none
    else (k rest ((name, taken ++ [c]) :: captures)).orElse fun _ => lazyDot name captures k (taken ++ [c]) rest

mutual
/-- Backtracking match of one node, continuing with `k` on what it leaves. -/
def matchNode : RegexNode → List Char → Captures → (List Char → Captures → Option Captures) → Option Captures
  | literal c, s, captures, k => match s with
    | a :: rest => if a = c then k rest captures else none
    | [] => none
  | group name, s, captures, k => lazyDot name captures k [] s
  | prefixedGroup name pre, s, captures, k =>
    if pre <+: s then lazyDot name captures k pre (s.drop pre.length) else none
  | backReference name, s, captures, k => match captures.lookup name with
    | some v => if v <+: s then k (s.drop v.length) captures else none
    | none => none
  | optional body, s, captures, k => (matchNodes body s captures k).orElse fun _ => k s captures
  | alternation first second, s, captures, k =>
    (matchNodes first s captures k).orElse fun _ => matchNodes second s captures k

def matchNodes : List RegexNode → List Char → Captures → (List Char → Captures → Option Captures) → Option Captures
  | [], s, captures, k => k s captures
  | node :: nodes, s, captures, k => matchNode node s captures fun s captures => matchNodes nodes s captures k
end

/-- `re.match` of `^` nodes `$`: `$` matches at the end or before a final newline. -/
def matchWhole (nodes : List RegexNode) (s : List Char) : Option Captures :=
  matchNodes nodes s [] fun rest captures => if rest = [] ∨ rest = ['\n'] then some captures else none

end RegexNode

/-- A `Splitter`: the compiled regex, its group names in order, and its text. -/
structure Splitter where
  nodes : List RegexNode
  groupNames : List String
  string : String

namespace Splitter

/-- `Regex.get_regex` and `get_string` of `^` segments `$`: `re.compile` raises on a bad
group. -/
def compile (segments : List Segment) : Except Error Splitter := do
  let (content, nodes) := Segment.evalAll segments "^".toList
  let groupNames ← RegexNode.checkGroupsAll nodes []
  pure ⟨nodes, groupNames, String.mk (content ++ "$".toList)⟩

/-- `Splitter.split`: `mo.groupdict()`, `None` for a group that took no part. -/
def split (sp : Splitter) (s : String) : Except Error (Dict String (Option String)) :=
  match RegexNode.matchWhole sp.nodes s.toList with
  | some captures => pure (sp.groupNames.foldl (fun d name => d.set name ((captures.lookup name).map String.mk)) Dict.empty)
  | none => throw (.splitError sp.string s)

end Splitter

namespace SubstitutionPattern

def getSplitter (p : SubstitutionPattern) (substitutions : Substitutions) : Except Error Splitter :=
  Splitter.compile (Node.getRegexSegments substitutions p.childNodes)

/-- The pattern `\%a%a`: a literal backslash, then `%a` twice. -/
def backslashPattern : SubstitutionPattern :=
  ⟨"\\%a%a", [.textNode "\\", .variableNode "%a" none "a", .variableNode "%a" none "a"]⟩

/-- `re.escape` doubles the backslash, so the `(?P<a>` written after it follows a backslash,
and the rescan of `get_named_group_names` skips it: the second `%a` defines `a` again where
it should refer back to it, and `re.compile` refuses the regex. -/
theorem escaped_backslash_hides_group_definition :
    parse "\\%a%a" = .ok backslashPattern ∧
      Segment.evalAll (Node.getRegexSegments Dict.empty backslashPattern.childNodes) "^".toList =
        ("^\\\\(?P<a>.+?)(?P<a>.+?)".toList, [.literal '\\', .group "a", .group "a"]) ∧
      backslashPattern.getSplitter Dict.empty = .error .reError :=
  ⟨rfl, rfl, rfl⟩

end SubstitutionPattern

end PyTagsFs
