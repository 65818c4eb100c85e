/-
Module: GraphEngine.Model.SchemaParser
Layer: Model
Purpose: The walk from the parse tree of a schema text to the schema.  Whatever
  the source expects of the tree without checking is a panic here.
Trusted boundary: the message of a syntax error is the grammar runtime's and
  stays a parameter
Main exports: SchemaError, PestSchemaParser.parse
-/
import GraphEngine.Model.Schema
import GraphEngine.Model.SchemaGrammar
import GraphEngine.Model.Numerals

namespace GraphEngine

open Std (ExtTreeMap)

/-- The errors of the parser: the text does not match the grammar, or its
declarations do not fit together. -/
inductive SchemaError where
  | parse (reason : String)
deriving DecidableEq, Repr

namespace SchemaParser

/-! ### Properties -/

/-- The type that a keyword spells. -/
def parseSimpleType (pair : Pair SchemaRule) : Except PanicMessage ScalarType :=
  if pair.asStr = "Int64" then .ok .int64
  else if pair.asStr = "Float64" then .ok .float64
  else if pair.asStr = "Bool" then .ok .bool
  else if pair.asStr = "String" then .ok .string
  else if pair.asStr = "Timestamp" then .ok .timestamp
  else if pair.asStr = "Bytes" then .ok .bytes
  else .error "grammar's simple_type alternatives are exhaustive"

mutual

/-- A type: a keyword, a list or a vector. -/
def parseScalarType : Pair SchemaRule → Except PanicMessage ScalarType
  | .node _ _ [] => .error "scalar_type always wraps exactly one alternative"
  | .node _ _ (inner :: _) => parseTypeAlternative inner

/-- The alternative that a `scalar_type` wraps. -/
def parseTypeAlternative : Pair SchemaRule → Except PanicMessage ScalarType
  | .node .simpleType text children => parseSimpleType (.node .simpleType text children)
  | .node .listType _ [] => .error "list_type always wraps its element scalar_type"
  | .node .listType _ (elem :: _) => (parseScalarType elem).map .list
  | .node .vectorType _ children => do
      let dim ← expect "vector_type always wraps its dimension number" children.head?
      let dim ← expect "the `number` rule only matches ASCII digits"
          (parseUnsigned 32 dim.text)
      .ok (.vector dim)
  | _ => .error "scalar_type only wraps simple_type/list_type/vector_type"

end

/-- What the walk has found of a property. -/
structure PropertyParts where
  name : Option String
  ty : Option ScalarType
  optional : Bool
  indexed : Bool

/-- What one part of a property's declaration sets. -/
def addPropertyPart (parts : PropertyParts) (p : Pair SchemaRule) :
    Except PanicMessage PropertyParts :=
  match p.asRule with
  | .indexedMarker => .ok { parts with indexed := true }
  | .ident => .ok { parts with name := some p.asStr }
  | .scalarType => (parseScalarType p).map fun ty => { parts with ty := some ty }
  | .optionalMarker => .ok { parts with optional := true }
  | _ =>
      .error "property_decl only yields indexed_marker/ident/scalar_type/optional_marker"

/-- A property: its name, its type and its markers. -/
def parsePropertyDecl (pair : Pair SchemaRule) : Except PanicMessage PropertyDef := do
  let parts ← pair.intoInner.foldlM addPropertyPart
    { name := none, ty := none, optional := false, indexed := false }
  let name ← expect "grammar requires a property name" parts.name
  let ty ← expect "grammar requires a property type" parts.ty
  .ok { name := name, ty := ty, optional := parts.optional, indexed := parts.indexed }

/-! ### Declarations -/

/-- The label a `from` or `to` field names. -/
def fieldLabel (pair : Pair SchemaRule) : Except PanicMessage Label :=
  (expect "from_field/to_field always wrap a label ident" pair.intoInner.head?).map
    fun ident =>
    { name := ident.asStr }

/-- The properties of a node after one more of its fields. -/
def addNodeField (properties : List PropertyDef) (p : Pair SchemaRule) :
    Except PanicMessage (List PropertyDef) :=
  match p.asRule with
  | .idField => .ok properties
  | .propertyDecl => (parsePropertyDecl p).map fun property => properties ++ [property]
  | _ => .error "node_decl body only yields id_field/property_decl"

/-- A node: its label and its properties. -/
def parseNodeDecl (pair : Pair SchemaRule) : Except PanicMessage NodeDef := do
  let label ← expect "node_decl always starts with its label ident" pair.intoInner.head?
  let properties ← pair.intoInner.tail.foldlM addNodeField []
  .ok { label := { name := label.asStr }, properties := properties }

/-- What the walk has found of an edge declaration after its type. -/
structure EdgeParts where
  source : Option Label
  target : Option Label
  properties : List PropertyDef

/-- The parts of an edge after one more of its fields. -/
def addEdgeField (parts : EdgeParts) (p : Pair SchemaRule) :
    Except PanicMessage EdgeParts :=
  match p.asRule with
  | .fromField => (fieldLabel p).map fun label => { parts with source := some label }
  | .toField => (fieldLabel p).map fun label => { parts with target := some label }
  | .propertyDecl =>
      (parsePropertyDecl p).map fun property =>
        { parts with properties := parts.properties ++ [property] }
  | _ => .error "edge_decl body only yields from_field/to_field/property_decl"

/-- An edge: its type, its ends and its properties. -/
def parseEdgeDecl (pair : Pair SchemaRule) : Except PanicMessage EdgeDef := do
  let edgeType ← expect "edge_decl always starts with its type ident" pair.intoInner.head?
  let parts ← pair.intoInner.tail.foldlM addEdgeField
      { source := none, target := none, properties := [] }
  let source ← expect "grammar requires a from_field" parts.source
  let target ← expect "grammar requires a to_field" parts.target
  .ok
    { edgeType := { name := edgeType.asStr }, source := source, target := target
      properties := parts.properties }

/-! ### Schemas -/

/-- The declarations in order, up to the first duplicate.  A declaration that
cannot be read at all panics when it is come to, before what stands behind it is
looked at. -/
def declareAll : List (Pair SchemaRule) → ExtTreeMap Label NodeDef compare →
    ExtTreeMap EdgeType EdgeDef compare → Except PanicMessage (Except SchemaError
      (ExtTreeMap Label NodeDef compare × ExtTreeMap EdgeType EdgeDef compare))
  | [], nodes, edges => .ok (.ok (nodes, edges))
  | decl :: rest, nodes, edges =>
      match decl.asRule with
      | .nodeDecl => do
          let node ← parseNodeDecl decl
          if node.label ∈ nodes then
            .ok (.error (.parse ("duplicate node label: " ++ node.label.name)))
          else declareAll rest (nodes.insert node.label node) edges
      | .edgeDecl => do
          let edge ← parseEdgeDecl decl
          if edge.edgeType ∈ edges then
            .ok (.error (.parse ("duplicate edge type: " ++ edge.edgeType.name)))
          else declareAll rest nodes (edges.insert edge.edgeType edge)
      | _ => .error "schema_decl only yields node_decl/edge_decl"

/-- The first edge type with an endpoint that is not declared. -/
def checkEndpoints (nodes : ExtTreeMap Label NodeDef compare) :
    List EdgeDef → Except SchemaError Unit
  | [] => .ok ()
  | edge :: rest =>
      if edge.source ∉ nodes then
        .error (.parse
          s!"edge {edge.edgeType.name} references unknown source label {edge.source.name}")
      else if edge.target ∉ nodes then
        .error (.parse
          s!"edge {edge.edgeType.name} references unknown target label {edge.target.name}")
      else checkEndpoints nodes rest

/-- The declarations by label and by type, the last one of a name in place of
the others, and the check of the ends of the edges. -/
def parseSchemaDecl (schemaDecl : Pair SchemaRule) :
    Except PanicMessage (Except SchemaError Schema) := do
  let version ← expect "schema_decl always starts with its version ident"
      schemaDecl.intoInner.head?
  match ← declareAll schemaDecl.intoInner.tail ∅ ∅ with
  | .error error => .ok (.error error)
  | .ok (nodes, edges) =>
      .ok ((checkEndpoints nodes (edges.toList.map Prod.snd)).map fun _ =>
        { version := version.asStr, nodes := nodes, edges := edges })

end SchemaParser

/-- `PestSchemaParser::parse`.  `report` is what the grammar runtime says of a
text it cannot parse. -/
def PestSchemaParser.parse (report : String → String) (source : String) :
    Except PanicMessage (Except SchemaError Schema) :=
  match schemaParse .schemaFile source.toList with
  | none => .ok (.error (.parse (report source)))
  | some (pairs, _) => do
      let schemaFile ← expect
          "schema_file is the grammar's only top-level rule" pairs.head?
      let schemaDecl ← expect "schema_file always contains exactly one schema_decl"
        (schemaFile.intoInner.find? fun p => p.asRule = .schemaDecl)
      SchemaParser.parseSchemaDecl schemaDecl

end GraphEngine
