/-
Module: GraphEngine.Spec.SchemaSyntax
Layer: Spec
Purpose: The texts of a schema: which declarations can be written, the tokens
  that spell them out, and what a list of declarations comes to, which is a
  schema or the first thing that is wrong with it.
Trusted boundary: none
Main exports: Declaration, SchemaTokens, Schema.DeclaredBy, DeclaresTo,
  Schema.Declarable
-/
import GraphEngine.Model.SchemaParser
import GraphEngine.Spec.ConcreteSyntax

namespace GraphEngine

open Std (ExtTreeMap)

/-! ### Declarations that can be written -/

/-- A declaration of a schema text. -/
inductive Declaration where
  | nodeDecl (node : NodeDef)
  | edgeDecl (edge : EdgeDef)
deriving DecidableEq, Repr

/-- Vector dimensions are numbers of 32 bits. -/
def ScalarType.Writable : ScalarType → Prop
  | .list element => element.Writable
  | .vector dim => dim < 2 ^ 32
  | .int64 | .float64 | .bool | .string | .timestamp | .bytes => True

/-- The name is a name and no keyword of a field, and the type can be written. -/
def PropertyDef.Writable (property : PropertyDef) : Prop :=
  isIdent property.name ∧ property.ty.Writable

/-- The label and every property can be written. -/
structure NodeDef.Writable (node : NodeDef) : Prop where
  label : isIdent node.label.name
  properties : ∀ property ∈ node.properties, property.Writable

/-- The type, both ends and every property can be written. -/
structure EdgeDef.Writable (edge : EdgeDef) : Prop where
  edgeType : isIdent edge.edgeType.name
  source : isIdent edge.source.name
  target : isIdent edge.target.name
  properties : ∀ property ∈ edge.properties, property.Writable

/-- A declaration of either kind can be written. -/
def Declaration.Writable : Declaration → Prop
  | .nodeDecl node => node.Writable
  | .edgeDecl edge => edge.Writable

/-! ### Tokens -/

/-- The spelling of a type. -/
def ScalarTokens : ScalarType → List Token → Prop
  | .int64, ts => ts = [tok "Int64"]
  | .float64, ts => ts = [tok "Float64"]
  | .bool, ts => ts = [tok "Bool"]
  | .string, ts => ts = [tok "String"]
  | .timestamp, ts => ts = [tok "Timestamp"]
  | .bytes, ts => ts = [tok "Bytes"]
  | .list element, ts =>
      ∃ inner, ScalarTokens element inner ∧
        ts = tok "List" :: tok "<" :: (inner ++ [tok ">"])
  | .vector dim, ts => ∃ number, NumberToken dim number ∧
      ts = [tok "Vector", tok "<", tok "Float32", tok ",", number, tok ">"]

/-- A marker, if it is set. -/
def markTokens (spelling : String) (marked : Bool) : List Token :=
  if marked then [tok spelling] else []

/-- A property: its name, its type and its markers. -/
def PropertyTokens (property : PropertyDef) (ts : List Token) : Prop :=
  ∃ scalar, ScalarTokens property.ty scalar ∧
    ts = markTokens "@indexed" property.indexed ++
      (tok property.name :: tok ":" :: (scalar ++ markTokens "?" property.optional))

/-- A node between its braces. -/
def NodeDeclTokens (node : NodeDef) (ts : List Token) : Prop :=
  ∃ parts, List.Forall₂ PropertyTokens node.properties parts ∧
    ts = tok "node" :: tok node.label.name :: tok "\x7b" :: tok "id" :: tok ":" ::
      tok "NodeId" ::
      (parts.flatten ++ [tok "\x7d"])

/-- An edge between its braces: the two ends, then the properties. -/
def EdgeDeclTokens (edge : EdgeDef) (ts : List Token) : Prop :=
  ∃ parts, List.Forall₂ PropertyTokens edge.properties parts ∧
    ts = tok "edge" :: tok edge.edgeType.name :: tok "\x7b" :: tok "from" ::
      tok ":" :: tok edge.source.name ::
      tok "to" :: tok ":" :: tok edge.target.name :: (parts.flatten ++ [tok "\x7d"])

/-- A declaration of either kind. -/
def DeclarationTokens : Declaration → List Token → Prop
  | .nodeDecl node => NodeDeclTokens node
  | .edgeDecl edge => EdgeDeclTokens edge

/-- The tokens that spell out a schema, its declarations in any order. -/
def SchemaTokens (version : String) (declarations : List Declaration)
    (ts : List Token) : Prop :=
  ∃ parts, List.Forall₂ DeclarationTokens declarations parts ∧
    ts = tok "schema" :: tok version :: tok "\x7b" :: (parts.flatten ++ [tok "\x7d"])

/-! ### What declarations come to -/

/-- Two declarations of the same label or of the same edge type. -/
def Declaration.Clash : Declaration → Declaration → Prop
  | .nodeDecl node, .nodeDecl other => node.label = other.label
  | .edgeDecl edge, .edgeDecl other => edge.edgeType = other.edgeType
  | .nodeDecl _, .edgeDecl _ => False
  | .edgeDecl _, .nodeDecl _ => False

/-- Nothing is declared twice. -/
def Distinct (declarations : List Declaration) : Prop :=
  declarations.Pairwise fun declaration other => ¬ declaration.Clash other

/-- What is said of a declaration that repeats an earlier one. -/
def Declaration.duplicate : Declaration → String
  | .nodeDecl node => "duplicate node label: " ++ node.label.name
  | .edgeDecl edge => "duplicate edge type: " ++ edge.edgeType.name

/-- The maps hold the declarations, each under its name. -/
structure Holds (declarations : List Declaration)
    (nodes : ExtTreeMap Label NodeDef compare)
    (edges : ExtTreeMap EdgeType EdgeDef compare) : Prop where
  node : ∀ label (node : NodeDef), nodes[label]? = some node ↔ node.label = label ∧
    .nodeDecl node ∈ declarations
  edge : ∀ edgeType (edge : EdgeDef), edges[edgeType]? = some edge ↔
    edge.edgeType = edgeType ∧ .edgeDecl edge ∈ declarations

/-- The schema has this version and exactly these declarations. -/
def Schema.DeclaredBy (schema : Schema) (version : String)
    (declarations : List Declaration) : Prop :=
  schema.version = version ∧ Holds declarations schema.nodes schema.edges

/-- Some node is declared with the label. -/
def LabelDeclared (declarations : List Declaration) (label : Label) : Prop :=
  ∃ node, .nodeDecl node ∈ declarations ∧ node.label = label

/-- What is said of an edge between labels that are not both declared; the
source comes first. -/
inductive Dangles (declarations : List Declaration) (edge : EdgeDef) : String → Prop where
  | source (missing : ¬ LabelDeclared declarations edge.source) :
      Dangles declarations edge
        s!"edge {edge.edgeType.name} references unknown source label {edge.source.name}"
  | target (declared : LabelDeclared declarations edge.source)
      (missing : ¬ LabelDeclared declarations edge.target) :
      Dangles declarations edge
        s!"edge {edge.edgeType.name} references unknown target label {edge.target.name}"

/-- The outcome of a list of declarations: the first repetition, or else, in the
order of the edge types, the first edge with a label that is not declared, or
else the schema. -/
inductive DeclaresTo (version : String) (declarations : List Declaration) :
    Except SchemaError Schema → Prop where
  | duplicate {before after : List Declaration} {declaration : Declaration}
      (split : declarations = before ++ declaration :: after) (distinct : Distinct before)
      (repeated : ∃ earlier ∈ before, earlier.Clash declaration) :
      DeclaresTo version declarations (.error (.parse declaration.duplicate))
  | dangling {edge : EdgeDef} {message : String} (distinct : Distinct declarations)
      (member : .edgeDecl edge ∈ declarations)
      (dangles : Dangles declarations edge message)
      (first : ∀ other, .edgeDecl other ∈ declarations →
        (∃ message, Dangles declarations other message) →
        (compare edge.edgeType other.edgeType).isLE) :
      DeclaresTo version declarations (.error (.parse message))
  | schema {schema : Schema} (distinct : Distinct declarations)
      (declared : schema.DeclaredBy version declarations)
      (complete : ∀ edge, .edgeDecl edge ∈ declarations →
        ∀ message, ¬ Dangles declarations edge message) :
      DeclaresTo version declarations (.ok schema)

/-- A schema that some text declares: its names are identifiers, every
declaration stands under its own name and edges run between declared labels. -/
structure Schema.Declarable (schema : Schema) : Prop where
  version : isIdent schema.version
  node : ∀ label (node : NodeDef), schema.nodes[label]? = some node →
    node.label = label ∧ node.Writable
  edge : ∀ edgeType (edge : EdgeDef), schema.edges[edgeType]? = some edge →
    edge.edgeType = edgeType ∧ edge.Writable ∧ edge.source ∈ schema.nodes ∧
      edge.target ∈ schema.nodes

end GraphEngine
