/-
Module: GraphEngine.Model.Dsl
Layer: Model
Purpose: The abstract syntax of the traversal language: patterns, conditions and
  queries.
Trusted boundary: none
Main exports: Pattern, WhereCondition, ExistsSubquery, Query
-/
import GraphEngine.Model.Storage

namespace GraphEngine

/-- The comparisons of a `WHERE` clause. -/
inductive ComparisonOp where
  | eq | ne | lt | lte | gt | gte
deriving DecidableEq, Repr

/-- The literals a property is compared with. -/
inductive Literal where
  | int64 (value : Int)
  | float64 (value : F64)
  | bool (value : Bool)
  | string (value : String)
deriving DecidableEq, Repr

/-- `Literal::eq`: floats compare as floats. -/
def Literal.beq : Literal → Literal → Bool
  | .int64 v, .int64 w => decide (v = w)
  | .float64 v, .float64 w => v.eq w
  | .bool v, .bool w => decide (v = w)
  | .string v, .string w => decide (v = w)
  | _, _ => false

/-- A property compared with a literal. -/
structure PropertyFilter where
  property : String
  op : ComparisonOp
  value : Literal
deriving DecidableEq, Repr

/-- `PropertyFilter::eq`. -/
def PropertyFilter.beq (f g : PropertyFilter) : Bool :=
  decide (f.property = g.property) && decide (f.op = g.op) && f.value.beq g.value

/-- `Vec<PropertyFilter>::eq`. -/
def PropertyFilter.listBeq : List PropertyFilter → List PropertyFilter → Bool
  | [], [] => true
  | f :: fs, g :: gs => f.beq g && listBeq fs gs
  | _, _ => false

/-- The direction an edge is followed in. -/
inductive Direction where
  | outgoing
  | incoming
deriving DecidableEq, Repr

/-- Hop-count range of a variable-length traversal, e.g. `*1..3`. -/
structure HopRange where
  min : Nat
  max : Nat
deriving DecidableEq, Repr

/-- A node of a pattern: its alias, its label and the filters in its braces. -/
structure NodePattern where
  aliasName : String
  label : Option Label
  propertyFilters : List PropertyFilter
deriving DecidableEq, Repr

/-- An edge of a pattern: its alias, its type, its direction and how many hops
it stands for. -/
structure EdgePattern where
  aliasName : Option String
  edgeType : Option EdgeType
  direction : Direction
  hops : HopRange
deriving DecidableEq, Repr

/-- A step of a pattern: nodes and edges take turns. -/
inductive PatternStep where
  | node (node : NodePattern)
  | edge (edge : EdgePattern)
deriving DecidableEq, Repr

/-- A chain of node and edge steps. -/
structure Pattern where
  steps : List PatternStep
deriving DecidableEq, Repr

/-- `alias.property`. -/
structure PropertyRef where
  aliasName : String
  property : String
deriving DecidableEq, Repr

mutual

/-- One condition of a `WHERE` clause; conditions are combined by conjunction. -/
inductive WhereCondition where
  | property (aliasName : String) (filter : PropertyFilter)
  | aliasComparison (left : String) (op : ComparisonOp) (right : String)
  | propertyComparison (left : PropertyRef) (op : ComparisonOp) (right : PropertyRef)
  | notExists (subquery : ExistsSubquery)

/-- `NOT EXISTS { MATCH <pattern> [WHERE <conditions>] }`. -/
inductive ExistsSubquery where
  | mk (pattern : Pattern) (whereConditions : List WhereCondition)

end

/-- The pattern of the subquery. -/
def ExistsSubquery.pattern : ExistsSubquery → Pattern
  | .mk pattern _ => pattern

/-- The conditions of the subquery. -/
def ExistsSubquery.whereConditions : ExistsSubquery → List WhereCondition
  | .mk _ whereConditions => whereConditions

/-- One projection item: `alias` or `alias.property`. -/
structure ReturnItem where
  aliasName : String
  property : Option String
deriving DecidableEq, Repr

/-- `ASC` or `DESC`. -/
inductive SortDirection where
  | asc
  | desc
deriving DecidableEq, Repr

/-- The property rows are sorted by, and which way. -/
structure OrderBy where
  aliasName : String
  property : String
  direction : SortDirection
deriving DecidableEq, Repr

/-- A query as it is parsed. -/
structure Query where
  pattern : Pattern
  whereConditions : List WhereCondition
  returns : List ReturnItem
  orderBy : Option OrderBy
  limit : Option Nat

end GraphEngine
