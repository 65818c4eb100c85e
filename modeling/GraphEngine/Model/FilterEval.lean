/-
Module: GraphEngine.Model.FilterEval
Layer: Model
Purpose: Comparison of a stored property value with a literal.
Trusted boundary: the RFC 3339 parser is a third-party function and stays a
  parameter
Main exports: Chrono, literalMatches, evaluateFilter
-/
import GraphEngine.Model.Dsl

namespace GraphEngine

/-- The RFC 3339 parser: the microseconds since the epoch that a timestamp text
denotes. -/
class Chrono where
  parseRfc3339Micros : String → Option Int

/-- What an operator asks of the order of its operands. -/
def ComparisonOp.accepts (op : ComparisonOp) (ordering : Ordering) : Bool :=
  match op with
  | .eq => ordering == .eq
  | .ne => ordering != .eq
  | .lt => ordering == .lt
  | .lte => ordering != .gt
  | .gt => ordering == .gt
  | .gte => ordering != .lt

variable [Chrono]

/-- How a stored value compares with a literal; values of different types do not
compare. -/
def literalOrdering (value : PropertyValue) (literal : Literal) : Option Ordering :=
  match value, literal with
  | .int64 v, .int64 l => some (compare v l)
  | .float64 v, .float64 l => v.partialCmp l
  | .bool v, .bool l => some (compare v l)
  | .string v, .string l => some (compare v l)
  | .timestamp v, .string l =>
      (Chrono.parseRfc3339Micros l).map fun parsed => compare v parsed
  | _, _ => none

/-- A value compared with a literal; what cannot be compared matches nothing. -/
def literalMatches (value : PropertyValue) (op : ComparisonOp) (literal : Literal) :
    Bool :=
  match literalOrdering value literal with
  | some ordering => op.accepts ordering
  | none => false

/-- A filter on a property that the record lacks never holds. -/
def evaluateFilter (properties : Properties) (filter : PropertyFilter) : Bool :=
  match properties[filter.property]? with
  | some value => literalMatches value filter.op filter.value
  | none => false

/-- All filters of a list. -/
def evaluateFilters (properties : Properties) (filters : List PropertyFilter) : Bool :=
  filters.all (evaluateFilter properties)

end GraphEngine
