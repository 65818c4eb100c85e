/-
Module: GraphEngine.Spec.Answers
Layer: Spec
Purpose: What a query answers over the tables: one row for each binding that its
  plan denotes, with the ids and the stored values that the bound nodes and
  edges have in the tables, ordered and cut as the query says.
Trusted boundary: none
Main exports: Dataset.valueAt, Dataset.Row, Dataset.compareAt, Dataset.Answers,
  Dataset.SameAnswer
-/
import GraphEngine.Model.QueryService
import GraphEngine.Spec.Dataset

namespace GraphEngine

open GraphServiceImpl

namespace Dataset

variable (dataset : Dataset)

/-! ### What a binding binds -/

/-- The record of a node in the tables. -/
def findNode (v : NodeId) : Option NodeRecord :=
  (dataset.nodes.find? fun node => node.2.id = v).map fun node =>
    { label := node.1, properties := node.2.properties }

/-- The record of an edge in the tables. -/
def findEdge (e : EdgeId) : Option EdgeRecord :=
  (dataset.edges.find? fun edge => edge.2.id = e).map fun edge =>
    { edgeType := edge.1, properties := edge.2.properties }

/-- The edge that an alias is bound to. -/
def edgeAt (b : Binding) (aliasName : String) : Option EdgeRecord :=
  (b.edges[aliasName]?).bind dataset.findEdge

/-- The node that an alias is bound to, unless it is bound to an edge. -/
def nodeAt (b : Binding) (aliasName : String) : Option NodeRecord :=
  if aliasName ∈ b.edges then none else (b.nodes[aliasName]?).bind dataset.findNode

/-- The stored value of `alias.property`. -/
def valueAt (b : Binding) (aliasName property : String) : Option PropertyValue :=
  (((dataset.edgeAt b aliasName).map EdgeRecord.properties).or
    ((dataset.nodeAt b aliasName).map NodeRecord.properties)).bind fun properties =>
      properties[property]?

end Dataset

/-! ### Rows -/

/-- The column of an item: `alias` or `alias.property`. -/
def ReturnItem.column (item : ReturnItem) : String :=
  match item.property with
  | none => item.aliasName
  | some property => item.aliasName ++ "." ++ property

namespace Dataset

variable (dataset : Dataset)

/-- The stored value, unless the wire has no variant for it. -/
def sentValue (b : Binding) (aliasName property : String) : Option PropertyValue :=
  (dataset.valueAt b aliasName property).filter fun value =>
    (propertyValueToProto value).isSome

/-- What stands in the column of an item: the id of what the alias is bound to,
or a value that the wire has a variant for. -/
def cell (b : Binding) (item : ReturnItem) : Option ProtoValue :=
  match item.property with
  | none =>
      if item.aliasName ∈ b.edges then (b.edges[item.aliasName]?).map fun e =>
        int64Value e.val
      else (b.nodes[item.aliasName]?).map fun v => int64Value v.val
  | some property => (dataset.valueAt b item.aliasName property).bind propertyValueToProto

/-- The row of a binding: no column is lost to another one, and of a bare alias
the whole record is sent. -/
structure Row (project : List ReturnItem) (b : Binding) (row : QueryResult) : Prop where
  projection : ∀ column value, row.projection[column]? = some value ↔
    ∃ item ∈ project, item.column = column ∧ dataset.cell b item = some value
  properties : ∀ aliasName sent, row.properties[aliasName]? = some sent ↔
    ⟨aliasName, none⟩ ∈ project ∧
      (dataset.nodeAt b aliasName).map nodeRecordToProto = some sent
  edgeProperties : ∀ aliasName sent, row.edgeProperties[aliasName]? = some sent ↔
    ⟨aliasName, none⟩ ∈ project ∧
      (dataset.edgeAt b aliasName).map edgeRecordToProto = some sent

/-! ### Answers -/

/-- The order of two rows by the values sent; a row without one comes last when
the order is ascending. -/
def compareAt (orderBy : OrderBy) (a b : Binding) : Ordering :=
  let ordering := compareKeys (dataset.sentValue a orderBy.aliasName orderBy.property)
    (dataset.sentValue b orderBy.aliasName orderBy.property)
  match orderBy.direction with
  | .asc => ordering
  | .desc => ordering.swap

variable [Chrono]

/-- The rows of the bindings that the plan denotes, each binding once, sorted
where the values can be, and cut. -/
def Answers (query : Query) (start : PlanStep) (steps : List PlanStep)
    (rows : List QueryResult) : Prop :=
  ∃ bindings : List Binding, bindings.Nodup ∧
    (∀ b, b ∈ bindings ↔ Reached dataset.view (Keep dataset.view) start steps b) ∧
    (∀ orderBy ∈ query.orderBy, TotalPreorderOn (dataset.compareAt orderBy) bindings →
      bindings.Pairwise fun a b => (dataset.compareAt orderBy a b).isLE = true) ∧
    List.Forall₂ (dataset.Row query.returns) (applyLimit query.limit bindings) rows

/-- The sort values of the bindings are ordered, and no two bindings have the
same one. -/
structure Separates (orderBy : OrderBy) (among : Binding → Prop) : Prop where
  order : ∀ bindings : List Binding, (∀ b ∈ bindings, among b) →
    TotalPreorderOn (dataset.compareAt orderBy) bindings
  apart : ∀ a b, among a → among b → dataset.compareAt orderBy a b = .eq → a = b

/-- Two result sets are the same up to what the query leaves open: which of the
rows a limit keeps, and the order of rows that compare as equal. -/
structure SameAnswer (query : Query) (start : PlanStep) (steps : List PlanStep)
    (rows rows' : List QueryResult) : Prop where
  length_eq : rows.length = rows'.length
  perm : query.limit = none → rows.Perm rows'
  eq : ∀ orderBy ∈ query.orderBy,
    dataset.Separates orderBy
      (Reached dataset.view (Keep dataset.view) start steps) → rows = rows'

end Dataset

end GraphEngine
