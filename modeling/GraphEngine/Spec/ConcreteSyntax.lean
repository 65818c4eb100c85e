/-
Module: GraphEngine.Spec.ConcreteSyntax
Layer: Spec
Purpose: The texts of a query: which queries can be written, the tokens that
  spell one out in the order of the grammar's rules, and the texts that have
  these tokens with white space or comments between them.
Trusted boundary: none
Main exports: Query.Writable, QueryTokens, Gap, LaidOut
-/
import GraphEngine.Lib.PegTokens
import GraphEngine.Model.Dsl
import GraphEngine.Model.Numerals

namespace GraphEngine

/-! ### Queries that can be written -/

/-- The characters that a name starts with. -/
def isIdentStart (c : Char) : Bool := c.isAlpha || c == '_'

/-- The characters that a name goes on with. -/
def isIdentPart (c : Char) : Bool := c.isAlphanum || c == '_'

/-- The names that the rule `ident` matches, keywords included. -/
def isIdent (name : String) : Bool :=
  match name.toList with
  | [] => false
  | c :: rest => isIdentStart c && rest.all isIdentPart

/-- Floats are left out; strings cannot hold their delimiter. -/
def Literal.Writable : Literal → Prop
  | .int64 value => -2 ^ 63 ≤ value ∧ value < 2 ^ 63
  | .float64 _ => False
  | .bool _ => True
  | .string value => '"' ∉ value.toList

/-- The filter has a name for its property and a literal that is written; in
braces it is an equality. -/
def PropertyFilter.Writable (filter : PropertyFilter) : Prop :=
  isIdent filter.property ∧ filter.value.Writable

/-- The names are names, and the filters can be written in braces. -/
structure NodePattern.Writable (node : NodePattern) : Prop where
  aliasName : isIdent node.aliasName
  label : ∀ label ∈ node.label, isIdent label.name
  filters : ∀ filter ∈ node.propertyFilters, filter.Writable

/-- The names are names, and the bounds are numbers of 32 bits. -/
structure EdgePattern.Writable (edge : EdgePattern) : Prop where
  aliasName : ∀ aliasName ∈ edge.aliasName, isIdent aliasName
  edgeType : ∀ edgeType ∈ edge.edgeType, isIdent edgeType.name
  min : edge.hops.min < 2 ^ 32
  max : edge.hops.max < 2 ^ 32

/-- Nodes and edges in turn, a node at either end. -/
inductive Alternates : List PatternStep → Prop where
  | single (node : NodePattern) : Alternates [.node node]
  | step (node : NodePattern) (edge : EdgePattern) {steps : List PatternStep}
      (later : Alternates steps) :
      Alternates (.node node :: .edge edge :: steps)

/-- Nodes and edges take turns, and each of them can be written. -/
structure Pattern.Writable (pattern : Pattern) : Prop where
  alternates : Alternates pattern.steps
  nodes : ∀ node, .node node ∈ pattern.steps → node.Writable
  edges : ∀ edge, .edge edge ∈ pattern.steps → edge.Writable

/-- Both names are names. -/
def PropertyRef.Writable (ref : PropertyRef) : Prop :=
  isIdent ref.aliasName ∧ isIdent ref.property

mutual

/-- The names of the condition are names, and its literal can be written. -/
def WhereCondition.Writable : WhereCondition → Prop
  | .property aliasName filter => isIdent aliasName ∧ filter.Writable
  | .aliasComparison left _ right => isIdent left ∧ isIdent right
  | .propertyComparison left _ right => left.Writable ∧ right.Writable
  | .notExists subquery => subquery.Writable

/-- The pattern and the conditions can be written. -/
def ExistsSubquery.Writable : ExistsSubquery → Prop
  | .mk pattern conditions => pattern.Writable ∧ AllWritable conditions

/-- Every condition can be written. -/
def AllWritable : List WhereCondition → Prop
  | [] => True
  | condition :: conditions => condition.Writable ∧ AllWritable conditions

end

/-- What the grammar can spell: names that are names, numbers that fit, at least
one item to return. -/
structure Query.Writable (query : Query) : Prop where
  pattern : query.pattern.Writable
  conditions : AllWritable query.whereConditions
  returnsSome : query.returns ≠ []
  returns : ∀ item ∈ query.returns, isIdent item.aliasName ∧
    ∀ property ∈ item.property, isIdent property
  orderBy : ∀ orderBy ∈ query.orderBy, isIdent orderBy.aliasName ∧
    isIdent orderBy.property
  limit : ∀ limit ∈ query.limit, limit < 2 ^ 64

/-! ### Tokens -/

/-- A token that is always spelled the same. -/
abbrev tok (text : String) : Token := text.toList

/-- Lists of tokens with a separator between them. -/
def sepBy (sep : String) : List (List Token) → List Token
  | [] => []
  | part :: parts => part ++ (parts.map fun part => tok sep :: part).flatten

/-- A numeral, leading zeros allowed. -/
def NumberToken (value : Nat) (t : Token) : Prop :=
  isNumeral t = true ∧ digitsValue t = value

/-- A whole number by its decimal digits, with a sign if it is negative. -/
def IntToken (value : Int) (t : Token) : Prop :=
  ∃ digits, isNumeral digits = true ∧
    (t = digits ∧ value = digitsValue digits ∨ t = '-' :: digits ∧
      value = -digitsValue digits)

/-- The spelling of a literal, of which a text and a fraction have several. -/
def LiteralToken : Literal → Token → Prop
  | .int64 value, t => IntToken value t
  | .float64 _, _ => False
  | .bool value, t => t = tok (if value then "true" else "false")
  | .string value, t => t = '"' :: (value.toList ++ ['"'])

/-- The spelling of a comparison. -/
def opToken : ComparisonOp → Token
  | .eq => tok "="
  | .ne => tok "<>"
  | .lt => tok "<"
  | .lte => tok "<="
  | .gt => tok ">"
  | .gte => tok ">="

/-- `key: value`, which stands for equality. -/
def KvTokens (filter : PropertyFilter) (ts : List Token) : Prop :=
  filter.op = .eq ∧ ∃ value, LiteralToken filter.value value ∧
    ts = [tok filter.property, tok ":", value]

/-- The property map of a node; an empty one may be left out. -/
def MapTokens (filters : List PropertyFilter) (ts : List Token) : Prop :=
  filters = [] ∧ ts = [] ∨
    ∃ parts, List.Forall₂ KvTokens filters parts ∧
      ts = tok "\x7b" :: (sepBy "," parts ++ [tok "\x7d"])

/-- `: name`, if there is a name. -/
def typeTokens : Option String → List Token
  | none => []
  | some name => [tok ":", tok name]

/-- A node in its parentheses. -/
def NodeTokens (node : NodePattern) (ts : List Token) : Prop :=
  ∃ propertyMap, MapTokens node.propertyFilters propertyMap ∧
    ts = tok "(" :: tok node.aliasName ::
      (typeTokens (node.label.map Label.name) ++ (propertyMap ++ [tok ")"]))

/-- The hops of an edge; a single one may be left out. -/
def HopTokens (hops : HopRange) (ts : List Token) : Prop :=
  hops = { min := 1, max := 1 } ∧ ts = [] ∨
    ∃ min max, NumberToken hops.min min ∧ NumberToken hops.max max ∧
      ts = [tok "*", min, tok "..", max]

/-- The alias of an edge, if it has one. -/
def aliasTokens : Option String → List Token
  | none => []
  | some name => [tok name]

/-- The brackets of an edge; they may be left out when there is nothing in
them. -/
def DetailTokens (edge : EdgePattern) (ts : List Token) : Prop :=
  (edge.aliasName = none ∧ edge.edgeType = none ∧
    edge.hops = { min := 1, max := 1 }) ∧ ts = [] ∨
    ∃ hops, HopTokens edge.hops hops ∧
      ts = tok "[" :: (aliasTokens edge.aliasName ++
        (typeTokens (edge.edgeType.map EdgeType.name) ++ (hops ++ [tok "]"])))

/-- An edge with its arrow. -/
def EdgeTokens (edge : EdgePattern) (ts : List Token) : Prop :=
  ∃ detail, DetailTokens edge detail ∧
    ts = match edge.direction with
      | .outgoing => tok "-" :: (detail ++ [tok "->"])
      | .incoming => tok "<-" :: (detail ++ [tok "-"])

/-- A node or an edge of a pattern. -/
def StepTokens : PatternStep → List Token → Prop
  | .node node => NodeTokens node
  | .edge edge => EdgeTokens edge

/-- The steps of a pattern one behind the other. -/
def PatternTokens (pattern : Pattern) (ts : List Token) : Prop :=
  ∃ parts, List.Forall₂ StepTokens pattern.steps parts ∧ ts = parts.flatten

/-- The `WHERE` clause over the conditions' tokens; without conditions there is
none. -/
def whereTokens : List (List Token) → List Token
  | [] => []
  | part :: parts => tok "WHERE" :: sepBy "AND" (part :: parts)

mutual

/-- A condition of a `WHERE` clause. -/
def ConditionTokens : WhereCondition → List Token → Prop
  | .property aliasName filter, ts => ∃ value, LiteralToken filter.value value ∧
      ts = [tok aliasName, tok ".", tok filter.property, opToken filter.op, value]
  | .aliasComparison left op right, ts => ts = [tok left, opToken op, tok right]
  | .propertyComparison left op right, ts =>
      ts = [tok left.aliasName, tok ".", tok left.property, opToken op,
        tok right.aliasName, tok ".",
        tok right.property]
  | .notExists subquery, ts => ∃ inner, SubqueryTokens subquery inner ∧
      ts = tok "NOT" :: tok "EXISTS" :: tok "\x7b" :: tok "MATCH" ::
        (inner ++ [tok "\x7d"])

/-- What stands between the braces of `NOT EXISTS`. -/
def SubqueryTokens : ExistsSubquery → List Token → Prop
  | .mk pattern conditions, ts =>
      ∃ patternTokens parts, PatternTokens pattern patternTokens ∧
      EachTokens conditions parts ∧ ts = patternTokens ++ whereTokens parts

/-- The tokens of each condition. -/
def EachTokens : List WhereCondition → List (List Token) → Prop
  | [], parts => parts = []
  | condition :: conditions, parts =>
      ∃ first rest, ConditionTokens condition first ∧ EachTokens conditions rest ∧
      parts = first :: rest

end

/-- An item of the `RETURN` clause. -/
def returnTokens (item : ReturnItem) : List Token :=
  tok item.aliasName ::
    match item.property with
    | none => []
    | some property => [tok ".", tok property]

/-- Ascending order may be left implicit. -/
def DirectionTokens : SortDirection → List Token → Prop
  | .asc, ts => ts = [] ∨ ts = [tok "ASC"]
  | .desc, ts => ts = [tok "DESC"]

/-- The `ORDER BY` clause, if there is one; `ASC` may be left out. -/
def OrderTokens : Option OrderBy → List Token → Prop
  | none, ts => ts = []
  | some orderBy, ts => ∃ direction, DirectionTokens orderBy.direction direction ∧
      ts = tok "ORDER" :: tok "BY" :: tok orderBy.aliasName :: tok "." ::
        tok orderBy.property :: direction

/-- The `LIMIT` clause, if there is one. -/
def LimitTokens : Option Nat → List Token → Prop
  | none, ts => ts = []
  | some limit, ts => ∃ number, NumberToken limit number ∧ ts = [tok "LIMIT", number]

/-- The tokens that spell out a query. -/
def QueryTokens (query : Query) (ts : List Token) : Prop :=
  ∃ patternTokens parts order limit, PatternTokens query.pattern patternTokens ∧
    EachTokens query.whereConditions parts ∧ OrderTokens query.orderBy order ∧
      LimitTokens query.limit limit ∧
      ts = tok "MATCH" :: (patternTokens ++ (whereTokens parts ++
        (tok "RETURN" ::
          (sepBy "," (query.returns.map returnTokens) ++ (order ++ limit)))))

/-! ### Texts -/

/-- The characters that count as white space. -/
def isSpace (c : Char) : Bool := c == ' ' || c == '\t' || c == '\n' || c == '\r'

/-- White space and comments, each comment up to the end of its line. -/
inductive Blank : List Char → Prop where
  | none : Blank []
  | space {c : Char} {rest : List Char} (white : isSpace c = true)
      (later : Blank rest) : Blank (c :: rest)
  | comment {words rest : List Char} (oneLine : '\n' ∉ words) (later : Blank rest) :
      Blank ('/' :: '/' :: (words ++ '\n' :: rest))

/-- At least one character of white space, or a comment. -/
def Gap (text : List Char) : Prop := text ≠ [] ∧ Blank text

/-- The text has these tokens with gaps between them; before the first and after
the last one there may be another. -/
def LaidOut (ts : List Token) (text : List Char) : Prop :=
  ∃ before rest, text = before ++ rest ∧ Blank before ∧ Spaced Gap ts rest

end GraphEngine
