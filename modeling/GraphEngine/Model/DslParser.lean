/-
Module: GraphEngine.Model.DslParser
Layer: Model
Purpose: The walk from the parse tree of a query text to the query.  Whatever
  the source expects of the tree without checking is a panic here.
Trusted boundary: the position and the message of a syntax error are the grammar
  runtime's and stay a parameter
Main exports: DslError, PestParser.parse
-/
import GraphEngine.Model.Dsl
import GraphEngine.Model.DslGrammar
import GraphEngine.Model.Numerals

namespace GraphEngine

/-- The one error of the parser: where it stopped, and what pest says. -/
inductive DslError where
  | syntaxError (pos : Nat) (message : String)
deriving DecidableEq, Repr

namespace DslParser

/-! ### Literals and operators -/

/-- The comparison that the text of a pair spells. -/
def parseComparisonOp (pair : Pair DslRule) : Except PanicMessage ComparisonOp :=
  if pair.asStr = "=" then .ok .eq
  else if pair.asStr = "<>" then .ok .ne
  else if pair.asStr = "<" then .ok .lt
  else if pair.asStr = "<=" then .ok .lte
  else if pair.asStr = ">" then .ok .gt
  else if pair.asStr = ">=" then .ok .gte
  else .error "grammar's comparison_op alternatives are exhaustive"

/-- `&s[1..s.len() - 1]`. -/
def unquote (text : List Char) : Except PanicMessage String :=
  if 2 ≤ text.length then .ok (String.ofList (text.drop 1).dropLast)
  else .error "begin <= end when slicing"

/-- A literal of any kind; a number out of range panics. -/
def parseLiteral (pair : Pair DslRule) : Except PanicMessage Literal := do
  let inner ← expect "literal always wraps exactly one alternative" pair.intoInner.head?
  match inner.asRule with
  | .stringLiteral => (unquote inner.text).map .string
  | .floatLiteral =>
      (expect "float_literal only matches valid floats"
        (parseF64 inner.text)).map .float64
  | .intLiteral =>
      (expect "int_literal only matches valid integers"
        (parseSigned 64 inner.text)).map .int64
  | .boolLiteral => .ok (.bool (decide (inner.asStr = "true")))
  | _ => .error "literal only wraps string/float/int/bool_literal"

/-- `.as_str().parse().expect(..)` on a `number`. -/
def parseNumber (bits : Nat) (pair : Pair DslRule) : Except PanicMessage Nat :=
  expect "the `number` rule only matches ASCII digits" (parseUnsigned bits pair.text)

/-! ### Patterns -/

/-- `name: literal`, an equality. -/
def parsePropertyKv (kv : Pair DslRule) : Except PanicMessage PropertyFilter := do
  let property ← expect "property_kv always starts with its key ident" kv.intoInner[0]?
  let value ← expect "property_kv always has a literal value" kv.intoInner[1]?
  let value ← parseLiteral value
  .ok { property := property.asStr, op := .eq, value := value }

/-- The equalities in the braces of a node. -/
def parsePropertyMap (pair : Pair DslRule) : Except PanicMessage (List PropertyFilter) :=
  pair.intoInner.mapM parsePropertyKv

/-- One part of a node pattern after its alias. -/
def addNodePart (node : NodePattern) (p : Pair DslRule) :
    Except PanicMessage NodePattern :=
  match p.asRule with
  | .ident => .ok { node with label := some { name := p.asStr } }
  | .propertyMap =>
      (parsePropertyMap p).map fun filters => { node with propertyFilters := filters }
  | _ => .error "node_pattern body only yields ident/property_map"

/-- A node: its alias, then a label and filters if they are there. -/
def parseNodePattern (pair : Pair DslRule) : Except PanicMessage NodePattern := do
  let aliasPair ← expect "node_pattern always starts with its alias ident"
      pair.intoInner.head?
  pair.intoInner.tail.foldlM addNodePart
    { aliasName := aliasPair.asStr, label := none, propertyFilters := [] }

/-- `*min..max`; a bound out of range panics. -/
def parseHopRange (pair : Pair DslRule) : Except PanicMessage HopRange := do
  let min ← expect "hop_range always has a min number" pair.intoInner[0]?
  let min ← parseNumber 32 min
  let max ← expect "hop_range always has a max number" pair.intoInner[1]?
  let max ← parseNumber 32 max
  .ok { min := min, max := max }

/-- One part of an edge's brackets. -/
def addEdgePart (edge : EdgePattern) (d : Pair DslRule) :
    Except PanicMessage EdgePattern :=
  match d.asRule with
  | .edgeAlias => .ok { edge with aliasName := some d.asStr }
  | .ident => .ok { edge with edgeType := some { name := d.asStr } }
  | .hopRange => (parseHopRange d).map fun hops => { edge with hops := hops }
  | _ => .error "edge_detail only yields edge_alias/ident/hop_range"

/-- What one part of an edge's brackets sets. -/
def addEdgeDetail (edge : EdgePattern) (detail : Pair DslRule) :
    Except PanicMessage EdgePattern :=
  match detail.asRule with
  | .edgeDetail => detail.intoInner.foldlM addEdgePart edge
  | _ => .error "outgoing_edge/incoming_edge only yield edge_detail"

/-- An edge of either direction. -/
def parseEdgePattern (pair : Pair DslRule) : Except PanicMessage EdgePattern := do
  let directed ← expect "edge_pattern always wraps outgoing_edge/incoming_edge"
      pair.intoInner.head?
  let direction ←
    match directed.asRule with
    | .outgoingEdge => .ok .outgoing
    | .incomingEdge => .ok .incoming
    | _ => .error "edge_pattern only wraps outgoing_edge/incoming_edge"
  directed.intoInner.foldlM addEdgeDetail
    { aliasName := none, edgeType := none, direction := direction,
      hops := { min := 1, max := 1 } }

/-- One step of a pattern, a node or an edge. -/
def parsePatternStep (p : Pair DslRule) : Except PanicMessage PatternStep :=
  match p.asRule with
  | .nodePattern => (parseNodePattern p).map .node
  | .edgePattern => (parseEdgePattern p).map .edge
  | _ => .error "pattern only yields node_pattern/edge_pattern"

/-- The steps of a pattern in order. -/
def parsePattern (pair : Pair DslRule) : Except PanicMessage Pattern :=
  (pair.intoInner.mapM parsePatternStep).map fun steps => { steps := steps }

/-! ### Conditions -/

/-- `a.p op b.q`. -/
def parsePropertyPropertyComparison (pair : Pair DslRule) :
    Except PanicMessage WhereCondition := do
  let inner := pair.intoInner
  let leftAlias ← expect
      "property_property_comparison always starts with the left alias ident" inner[0]?
  let leftProperty ← expect
      "property_property_comparison always has a left property ident" inner[1]?
  let op ← expect "property_property_comparison always has a comparison_op" inner[2]?
  let op ← parseComparisonOp op
  let rightAlias ← expect
      "property_property_comparison always has a right alias ident" inner[3]?
  let rightProperty ← expect
      "property_property_comparison always has a right property ident" inner[4]?
  .ok (.propertyComparison
    { aliasName := leftAlias.asStr, property := leftProperty.asStr } op
    { aliasName := rightAlias.asStr, property := rightProperty.asStr })

/-- `a.p op literal`. -/
def parsePropertyCondition (pair : Pair DslRule) :
    Except PanicMessage WhereCondition := do
  let inner := pair.intoInner
  let aliasPair ← expect "property_condition always starts with its alias ident" inner[0]?
  let property ← expect "property_condition always has a property ident" inner[1]?
  let op ← expect "property_condition always has a comparison_op" inner[2]?
  let op ← parseComparisonOp op
  let value ← expect "property_condition always has a literal value" inner[3]?
  let value ← parseLiteral value
  .ok (.property aliasPair.asStr { property := property.asStr, op := op, value := value })

/-- `a op b`. -/
def parseAliasComparison (pair : Pair DslRule) : Except PanicMessage WhereCondition := do
  let inner := pair.intoInner
  let left ← expect "alias_comparison always starts with its left ident" inner[0]?
  let op ← expect "alias_comparison always has a comparison_op" inner[1]?
  let op ← parseComparisonOp op
  let right ← expect "alias_comparison always has a right ident" inner[2]?
  .ok (.aliasComparison left.asStr op right.asStr)

mutual

/-- The conditions inside a `where_clause`. -/
def parseWhereConditions : List (Pair DslRule) → Except PanicMessage (List WhereCondition)
  | [] => .ok []
  | pair :: pairs => do
      let condition ← parseWhereCondition pair
      let conditions ← parseWhereConditions pairs
      .ok (condition :: conditions)

/-- One condition of a `WHERE` clause, of four kinds. -/
def parseWhereCondition : Pair DslRule → Except PanicMessage WhereCondition
  | .node _ _ [] => .error "where_condition always wraps one of its four alternatives"
  | .node _ _ (inner :: _) => parseConditionAlternative inner

/-- The alternative that a `where_condition` wraps. -/
def parseConditionAlternative : Pair DslRule → Except PanicMessage WhereCondition
  | .node .notExistsClause _ children => do
      let (pattern, whereConditions) ← parseNotExistsParts children none []
      let pattern ← expect
          "grammar requires a pattern after NOT EXISTS \x7b MATCH" pattern
      .ok (.notExists (.mk pattern whereConditions))
  | .node .propertyPropertyComparison text children =>
      parsePropertyPropertyComparison (.node .propertyPropertyComparison text children)
  | .node .propertyCondition text children =>
      parsePropertyCondition (.node .propertyCondition text children)
  | .node .aliasComparison text children =>
      parseAliasComparison (.node .aliasComparison text children)
  | _ => .error "where_condition only wraps its four alternatives"

/-- The parts of a `not_exists_clause`, with the pattern and the conditions
found so far. -/
def parseNotExistsParts : List (Pair DslRule) → Option Pattern → List WhereCondition →
    Except PanicMessage (Option Pattern × List WhereCondition)
  | [], pattern, whereConditions => .ok (pattern, whereConditions)
  | .node .pattern text children :: rest, _, whereConditions => do
      let pattern ← parsePattern (.node .pattern text children)
      parseNotExistsParts rest (some pattern) whereConditions
  | .node .whereClause _ children :: rest, pattern, _ => do
      let whereConditions ← parseWhereConditions children
      parseNotExistsParts rest pattern whereConditions
  | _ :: _, _, _ => .error "not_exists_clause only yields pattern/where_clause"

end

/-- The conditions of a `WHERE` clause in order. -/
def parseWhereClause (pair : Pair DslRule) : Except PanicMessage (List WhereCondition) :=
  parseWhereConditions pair.intoInner

/-! ### The rest of a query -/

/-- `a` or `a.p`. -/
def parseReturnItem (pair : Pair DslRule) : Except PanicMessage ReturnItem := do
  let aliasPair ← expect "return_item always starts with its alias ident"
      pair.intoInner[0]?
  .ok { aliasName := aliasPair.asStr, property := pair.intoInner[1]?.map Pair.asStr }

/-- The items of a `RETURN` clause in order. -/
def parseReturnClause (pair : Pair DslRule) : Except PanicMessage (List ReturnItem) :=
  pair.intoInner.mapM parseReturnItem

/-- `ASC` unless `DESC` is written. -/
def parseSortDirection : Option (Pair DslRule) → Except PanicMessage SortDirection
  | some d =>
      if d.asStr = "ASC" then .ok .asc
      else if d.asStr = "DESC" then .ok .desc
      else .error "sort_direction alternatives are exhaustive"
  | none => .ok .asc

/-- The property to sort by and the direction. -/
def parseOrderByClause (pair : Pair DslRule) : Except PanicMessage OrderBy := do
  let aliasPair ← expect "order_by_clause always starts with its alias ident"
      pair.intoInner[0]?
  let property ← expect "order_by_clause always has a property ident" pair.intoInner[1]?
  let direction ← parseSortDirection pair.intoInner[2]?
  .ok { aliasName := aliasPair.asStr, property := property.asStr, direction := direction }

/-- The number of a `LIMIT` clause; one out of range panics. -/
def parseLimitClause (pair : Pair DslRule) : Except PanicMessage Nat := do
  let number ← expect "limit_clause always has a number" pair.intoInner.head?
  parseNumber 64 number

/-- What the walk has found of a query. -/
structure QueryParts where
  pattern : Option Pattern
  whereConditions : List WhereCondition
  returns : List ReturnItem
  orderBy : Option OrderBy
  limit : Option Nat

/-- What one clause sets in the query read so far; a clause of the same kind
overwrites the one before. -/
def addQueryPart (parts : QueryParts) (p : Pair DslRule) :
    Except PanicMessage QueryParts :=
  match p.asRule with
  | .pattern => (parsePattern p).map fun pattern => { parts with pattern := some pattern }
  | .whereClause =>
      (parseWhereClause p).map fun conditions =>
        { parts with whereConditions := conditions }
  | .returnClause =>
      (parseReturnClause p).map fun returns => { parts with returns := returns }
  | .orderByClause =>
      (parseOrderByClause p).map fun orderBy => { parts with orderBy := some orderBy }
  | .limitClause =>
      (parseLimitClause p).map fun limit => { parts with limit := some limit }
  | .endOfInput => .ok parts
  | _ =>
      .error
        "query only yields pattern/where_clause/return_clause/order_by_clause/limit_clause/EOI"

/-- The clauses of a query put together; a query without a pattern panics, which
the grammar rules out. -/
def parseQuery (queryPair : Pair DslRule) : Except PanicMessage Query := do
  let parts ← queryPair.intoInner.foldlM addQueryPart
    { pattern := none, whereConditions := [], returns := [], orderBy := none,
      limit := none }
  let pattern ← expect "grammar requires a pattern after MATCH" parts.pattern
  .ok
    { pattern := pattern
      whereConditions := parts.whereConditions
      returns := parts.returns
      orderBy := parts.orderBy
      limit := parts.limit }

end DslParser

/-- `PestParser::parse`.  `report` is what the grammar runtime says of a text it
cannot parse. -/
def PestParser.parse (report : String → Nat × String) (source : String) :
    Except PanicMessage (Except DslError Query) :=
  match dslParse .query source.toList with
  | none => .ok (.error (.syntaxError (report source).1 (report source).2))
  | some (pairs, _) => do
      let queryPair ← expect "query is the grammar's only top-level rule" pairs.head?
      let query ← DslParser.parseQuery queryPair
      .ok (.ok query)

end GraphEngine
