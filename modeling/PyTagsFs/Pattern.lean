import PyTagsFs.Values

/-! # Segment patterns of `pytagsfs.subspat`

The parser tries the node types in the order they are registered: `IfElseNode`,
`ConditionalNode`, `TextNode`, `LongKeyVariableNode`, `ShortKeyVariableNode`. Case
modifiers act on ASCII letters only. -/
namespace PyTagsFs

/-- The modifiers of `VariableNode.modifiers`: `_`, `^` and `!`. -/
inductive Modifier where
  | lower
  | upper
  | title
  deriving DecidableEq, Repr

namespace Modifier

def ofChar : Char → Option Modifier
  | '_' => some .lower
  | '^' => some .upper
  | '!' => some .title
  | _ => none

/-- `str.title`: a letter is upper-cased after a non-letter and lower-cased after a letter. -/
def titleCase (s : String) : String := String.mk (go s.toList false)
where
  go : List Char → Bool → List Char
    | [], _ => []
    | c :: cs, previousIsCased =>
      if c.isAlpha then (if previousIsCased then c.toLower else c.toUpper) :: go cs true
      else c :: go cs false

def apply : Option Modifier → String → String
  | none, s => s
  | some .lower, s => s.toLower
  | some .upper, s => s.toUpper
  | some .title, s => titleCase s

end Modifier

/-- A node of the pattern tree; `expression` is the text the node was parsed from. -/
inductive Node where
  | textNode (expression : String)
  | variableNode (expression : String) (modifier : Option Modifier) (variableName : String)
  | conditionalNode (expression : String) (childNodes : List Node)
  | ifElseNode (expression : String) (leftSideChildNodes rightSideChildNodes : List Node)
  deriving Repr

namespace Node

/-! ## Parsing -/

/-- The position of the first two-character delimiter `a b`, as `str.index` finds it. -/
def findPair (a b : Char) : List Char → Option Nat
  | x :: y :: rest => if x = a ∧ y = b then some 0 else (findPair a b (y :: rest)).map (· + 1)
  | _ => none

/-- `TextNode.consume`'s index: stop at a `%` that does not start `%%`, skip a `%%` whole. -/
def textLength : List Char → Nat
  | '%' :: '%' :: rest => textLength rest + 2
  | '%' :: _ => 0
  | [] => 0
  | _ :: rest => textLength rest + 1

def consumeText (s : List Char) : Option (Node × List Char) :=
  match textLength s with
  | 0 => none
  | n => some (.textNode (String.mk (s.take n)), s.drop n)

/-- The optional `(?P<modifier>[_^!])?` group; no modifier character is `{` or a letter. -/
def optionalModifier : List Char → Option Modifier × List Char
  | c :: rest => match Modifier.ofChar c with
    | some m => (some m, rest)
    | none => (none, c :: rest)
  | [] => (none, [])

/-- `^%(?P<modifier>[_^!])?{(?P<name>[^}]+?)}`: the name runs to the first `}`. -/
def consumeLongKeyVariable : List Char → Option (Node × List Char)
  | '%' :: rest =>
    match optionalModifier rest with
    | (modifier, '{' :: body) =>
      let name := body.takeWhile (· ≠ '}')
      match body.drop name.length with
      | '}' :: after =>
        if name = [] then none
        else
          let used := rest.length - after.length + 1
          some (.variableNode (String.mk (('%' :: rest).take used)) modifier (String.mk name), after)
      | _ => none
    | _ => none
  | _ => none

/-- An ASCII letter, `[A-Za-z]`. -/
def isAsciiLetter (c : Char) : Bool := ('a' ≤ c && c ≤ 'z') || ('A' ≤ c && c ≤ 'Z')

/-- `^%(?P<modifier>[_^!])?(?P<name>[A-Za-z])`. -/
def consumeShortKeyVariable : List Char → Option (Node × List Char)
  | '%' :: rest =>
    match optionalModifier rest with
    | (modifier, c :: after) =>
      if isAsciiLetter c then
        some (.variableNode (String.mk (('%' :: rest).take (rest.length - after.length + 1))) modifier c.toString, after)
      else none
    | _ => none
  | _ => none

/-- `TextNode`, `LongKeyVariableNode`, `ShortKeyVariableNode`, in registration order. -/
def consumeLeaf (s : List Char) : Option (Node × List Char) :=
  (consumeText s).orElse fun _ => (consumeLongKeyVariable s).orElse fun _ => consumeShortKeyVariable s

/-- The group a `%?` opens: its expression, its contents and what follows it. -/
def splitGroup : List Char → Option (List Char × List Char × List Char)
  | '%' :: '?' :: body => (findPair '%' '?' body).map fun j => ((('%' :: '?' :: body).take (j + 4)), body.take j,
      body.drop (j + 2))
  | _ => none

/-- `IfElseNode.consume`: the sides are split at the first `%:` of the group. -/
def splitIfElse (s : List Char) : Option (List Char × List Char × List Char × List Char) :=
  (splitGroup s).bind fun (expression, _, rest) =>
    (findPair '%' ':' expression).map fun m =>
      (expression, (expression.take m).drop 2, (expression.take (expression.length - 2)).drop (m + 2), rest)

/-- `SectionNode.get_nodes_from_expression`; `orig` is the expression being parsed. Each
round consumes a character, so `s.length + 1` is enough fuel. -/
def getNodesFromExpression : Nat → List Char → List Char → Except Error (List Node)
  | 0, _, _ => throw .assertionError
  | _ + 1, _, [] => pure []
  | fuel + 1, orig, s@(_ :: _) => do
    let (node, rest) ← match splitIfElse s with
      | some (expression, left, right, rest) => do
        let leftNodes ← getNodesFromExpression fuel left left
        let rightNodes ← getNodesFromExpression fuel right right
        pure (ifElseNode (String.mk expression) leftNodes rightNodes, rest)
      | none => match splitGroup s with
        | some (expression, contents, rest) => do
          let childNodes ← getNodesFromExpression fuel contents contents
          pure (conditionalNode (String.mk expression) childNodes, rest)
        | none => match consumeLeaf s with
          | some (node, rest) => pure (node, rest)
          | none => throw (.patternSyntaxError (String.mk orig) (orig.length - s.length))
    let nodes ← getNodesFromExpression fuel orig rest
    pure (node :: nodes)

/-! ## Filling -/

mutual
/-- `Node.fill`; a conditional swallows a `FillError` of its body, an if/else tries its
left side, then its right side. -/
def fill (substitutions : Substitutions) : Node → Except Error String
  | textNode expression => pure expression
  | variableNode expression modifier variableName => match substitutions.get? variableName with
    | some value => pure (Modifier.apply modifier value)
    | none => throw (.fillError expression [variableName])
  | conditionalNode _ childNodes => match fillAll substitutions childNodes with
    | .error (.fillError _ _) => pure ""
    | r => r
  | ifElseNode expression leftSideChildNodes rightSideChildNodes =>
    match fillAll substitutions leftSideChildNodes with
    | .error (.fillError _ e1) => match fillAll substitutions rightSideChildNodes with
      | .error (.fillError _ e2) => throw (.fillError expression (e1 ++ e2))
      | r => r
    | r => r

/-- `SectionNode.fill`: the children's fills joined, the first error raised. -/
def fillAll (substitutions : Substitutions) : List Node → Except Error String
  | [] => pure ""
  | node :: nodes => do
    let s ← fill substitutions node
    let t ← fillAll substitutions nodes
    pure (s ++ t)
end

end Node

/-- A parsed `SubstitutionPattern`. -/
structure SubstitutionPattern where
  expression : String
  childNodes : List Node

namespace SubstitutionPattern

def parse (expression : String) : Except Error SubstitutionPattern := do
  let childNodes ← Node.getNodesFromExpression (expression.length + 1) expression.toList expression.toList
  pure ⟨expression, childNodes⟩

def fill (p : SubstitutionPattern) (substitutions : Substitutions) : Except Error String :=
  Node.fillAll substitutions p.childNodes

/-- `TextNode.fill` returns its raw text, so the escape `%%` fills as `%%`; and the closing
`%?` and the `%:` of a group are found by `str.index`, which does not skip `%%`, so the
conditional whose body is `a`, `%%`, `:b` is split inside the escape and refused. -/
theorem escaped_percent_is_not_unescaped :
    ((parse "100%%").bind fun p => p.fill Dict.empty) = .ok "100%%" ∧
      parse "%?a%%:b%?" = .error (.patternSyntaxError "a%" 1) :=
  ⟨rfl, rfl⟩

end SubstitutionPattern

end PyTagsFs
