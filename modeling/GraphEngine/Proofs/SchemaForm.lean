/-
Module: GraphEngine.Proofs.SchemaForm
Layer: Proofs
Purpose: Which schemas the parser returns.  Whatever the text, the schema that
  is read is one that can be declared, and every schema that can be declared is
  read from some text.
Trusted boundary: none
Main exports: reads_of_parse, exists_schemaTokens, DeclaresTo.declarable,
  exists_parse_iff_declarable
-/
import GraphEngine.Proofs.SchemaDeclarations
import GraphEngine.Proofs.SchemaText

namespace GraphEngine

open Std (ExtTreeMap)

namespace SchemaParser

open Grammar (shape_of_derived entered_of_derived only_child size_lt_of_mem)

/-! ### Walks over trees of the grammar -/

/-- What a walk returns of a tree of a rule. -/
def Sound {α : Type} (rule : SchemaRule)
    (walk : Pair SchemaRule → Except PanicMessage α) (P : α → Prop) : Prop :=
  ∀ pair : Pair SchemaRule, pair.asRule = rule → pair.Derived schemaGrammar →
    ∀ a, walk pair = .ok a → P a

theorem isIdent_of_derived {pair : Pair SchemaRule} (rule : pair.asRule = .ident)
    (derived : pair.Derived schemaGrammar) : isIdent pair.asStr = true := by
  obtain ⟨_, text, children⟩ := pair
  cases rule
  have matched : schemaGrammar.Matches true SchemaRule.ident.body text children := derived
  exact isIdent_of_matches matched

theorem parseSimpleType_sound :
    Sound .simpleType parseSimpleType ScalarType.Writable := by
  intro pair _ _ ty parsed
  unfold parseSimpleType at parsed
  repeat' split at parsed
  all_goals
    cases parsed
    try trivial

theorem parseVectorType_sound {text : List Char} {children : List (Pair SchemaRule)}
    {ty : ScalarType}
    (parsed : parseTypeAlternative (.node .vectorType text children) = .ok ty) :
    ty.Writable := by
  have walk : parseTypeAlternative (.node .vectorType text children) =
      expect "vector_type always wraps its dimension number" children.head? >>= fun dim =>
        expect "the `number` rule only matches ASCII digits"
          (parseUnsigned 32 dim.text) >>= fun dim =>
          .ok (.vector dim) := rfl
  simp only [walk, bind_eq_ok_iff] at parsed
  obtain ⟨number, -, dim, expected, ⟨⟩⟩ := parsed
  cases unsigned : parseUnsigned 32 number.text with
  | none =>
      rw [unsigned] at expected
      cases expected
  | some found =>
      rw [unsigned] at expected
      cases expected
      simp only [parseUnsigned, Option.ite_none_right_eq_some,
        Option.some.injEq] at unsigned
      obtain ⟨⟨-, fits⟩, rfl⟩ := unsigned
      exact fits

/-- Types, by induction on the tree: a list type holds its element's. -/
theorem parseScalarType_sound :
    Sound .scalarType parseScalarType ScalarType.Writable := by
  intro pair
  induction size : sizeOf pair using Nat.strongRecOn generalizing pair with
  | _ n inductionHypothesis =>
      subst size
      obtain ⟨_, text, children⟩ := pair
      rintro ⟨⟩ derived ty parsed
      obtain ⟨⟨rule, text', children'⟩, rfl, kind⟩ := @only_child _ children
        [SchemaRule.listType, .vectorType, .simpleType]
        (shape_of_derived derived rfl (by decide) rfl)
      have inner := (entered_of_derived derived rfl [.listType, .vectorType,
          .simpleType] (by decide)
        (by decide) _ List.mem_cons_self).2
      have alternative : parseTypeAlternative (.node rule text' children') = .ok ty :=
        parsed
      simp only [Pair.asRule, List.mem_cons, List.not_mem_nil, or_false] at kind
      rcases kind with rfl | rfl | rfl
      · obtain ⟨elem, rfl, isElem⟩ := @only_child _ children' [SchemaRule.scalarType]
          (shape_of_derived inner rfl (by decide) rfl)
        have elemDerived :=
          (entered_of_derived inner rfl [.scalarType] (by decide) (by decide) _
          List.mem_cons_self).2
        obtain ⟨element, parsedElem, rfl⟩ := map_eq_ok_iff.mp
          (show (parseScalarType elem).map .list = .ok ty from alternative)
        refine inductionHypothesis _ ?_ elem rfl
          (List.mem_singleton.mp isElem) elemDerived element parsedElem
        calc sizeOf elem
            < sizeOf (Pair.node SchemaRule.listType text' [elem]) :=
              size_lt_of_mem List.mem_cons_self
          _ < sizeOf
            (Pair.node SchemaRule.scalarType text [.node .listType text' [elem]]) :=
              size_lt_of_mem List.mem_cons_self
      · exact parseVectorType_sound alternative
      · exact parseSimpleType_sound _ rfl inner ty alternative

/-! ### Declarations -/

/-- What the walk has found of a property can be written. -/
structure PartsFit (parts : PropertyParts) : Prop where
  name : ∀ name ∈ parts.name, isIdent name = true
  ty : ∀ ty ∈ parts.ty, ty.Writable

theorem addPropertyPart_sound {part : Pair SchemaRule}
    (derived : part.Derived schemaGrammar) {parts parts' : PropertyParts}
    (added : addPropertyPart parts part = .ok parts') (fit : PartsFit parts) :
    PartsFit parts' := by
  unfold addPropertyPart at added
  split at added
  case h_1 | h_4 =>
      cases added
      exact ⟨fit.name, fit.ty⟩
  case h_2 rule =>
      cases added
      refine ⟨?_, fit.ty⟩
      rintro _ ⟨⟩
      exact isIdent_of_derived rule derived
  case h_3 rule =>
      obtain ⟨ty, parsed, rfl⟩ := map_eq_ok_iff.mp added
      refine ⟨fit.name, ?_⟩
      rintro _ ⟨⟩
      exact parseScalarType_sound part rule derived ty parsed
  case h_5 => cases added

theorem parsePropertyDecl_sound :
    Sound .propertyDecl parsePropertyDecl PropertyDef.Writable := by
  rintro ⟨_, text, children⟩ ⟨⟩ derived property parsed
  have each := entered_of_derived derived rfl propertyParts (by decide) (by decide)
  simp only [parsePropertyDecl, bind_eq_ok_iff] at parsed
  obtain ⟨parts, walked, name, named, ty, typed, ⟨⟩⟩ := parsed
  have fit : PartsFit parts := foldlM_keeps
    (fun part member _ _ added => addPropertyPart_sound (each part member).2 added)
      walked ⟨by simp, by simp⟩
  exact ⟨fit.name name (expect_eq_ok_iff.mp named), fit.ty ty (expect_eq_ok_iff.mp typed)⟩

theorem fieldLabel_sound {field : Pair SchemaRule} (derived : field.Derived schemaGrammar)
    (endpoint : field.asRule = .fromField ∨ field.asRule = .toField) {label : Label}
    (parsed : fieldLabel field = .ok label) : isIdent label.name = true := by
  obtain ⟨rule, text, children⟩ := field
  simp only [Pair.asRule] at endpoint
  have inside : ∀ child ∈ children, child.asRule = .ident ∧
      child.Derived schemaGrammar := by
    intro child member
    rcases endpoint with rfl | rfl
    · have entered :=
        entered_of_derived derived rfl [.ident] (by decide) (by decide) child member
      exact ⟨List.mem_singleton.mp entered.1, entered.2⟩
    · have entered :=
        entered_of_derived derived rfl [.ident] (by decide) (by decide) child member
      exact ⟨List.mem_singleton.mp entered.1, entered.2⟩
  obtain ⟨ident, found, rfl⟩ := map_eq_ok_iff.mp parsed
  have member := List.mem_of_mem_head? (expect_eq_ok_iff.mp found)
  exact isIdent_of_derived (inside ident member).1 (inside ident member).2

theorem parseNodeDecl_sound : Sound .nodeDecl parseNodeDecl NodeDef.Writable := by
  rintro ⟨_, text, children⟩ ⟨⟩ derived node parsed
  obtain ⟨label, fields, rfl, isLabel, labelDerived, each⟩ := nodeDecl_children derived
  have walk : parseNodeDecl (.node .nodeDecl text (label :: fields)) =
      fields.foldlM addNodeField [] >>= fun properties =>
        .ok { label := { name := label.asStr }, properties := properties } := rfl
  rw [walk, bind_eq_ok_iff] at parsed
  obtain ⟨properties, walked, ⟨⟩⟩ := parsed
  refine ⟨isIdent_of_derived isLabel labelDerived, ?_⟩
  refine @foldlM_keeps _ _ addNodeField
    (fun properties => ∀ property ∈ properties, property.Writable) fields ?_ _ _
    walked (by simp)
  intro field member found found' added fit
  unfold addNodeField at added
  split at added
  case h_1 =>
      cases added
      exact fit
  case h_2 rule =>
      obtain ⟨property, parsedProperty, rfl⟩ := map_eq_ok_iff.mp added
      rw [List.forall_mem_append, List.forall_mem_singleton]
      exact ⟨fit, parsePropertyDecl_sound field rule
        (each field member).2 property parsedProperty⟩
  case h_3 => cases added

/-- What the walk has found of an edge can be written. -/
structure EdgePartsFit (parts : EdgeParts) : Prop where
  source : ∀ label ∈ parts.source, isIdent label.name = true
  target : ∀ label ∈ parts.target, isIdent label.name = true
  properties : ∀ property ∈ parts.properties, property.Writable

theorem addEdgeField_sound {field : Pair SchemaRule}
    (derived : field.Derived schemaGrammar) {parts parts' : EdgeParts}
    (added : addEdgeField parts field = .ok parts') (fit : EdgePartsFit parts) :
    EdgePartsFit parts' := by
  unfold addEdgeField at added
  split at added
  case h_1 rule =>
      obtain ⟨label, parsed, rfl⟩ := map_eq_ok_iff.mp added
      refine { fit with source := ?_ }
      rintro _ ⟨⟩
      exact fieldLabel_sound derived (.inl rule) parsed
  case h_2 rule =>
      obtain ⟨label, parsed, rfl⟩ := map_eq_ok_iff.mp added
      refine { fit with target := ?_ }
      rintro _ ⟨⟩
      exact fieldLabel_sound derived (.inr rule) parsed
  case h_3 rule =>
      obtain ⟨property, parsed, rfl⟩ := map_eq_ok_iff.mp added
      refine { fit with properties := ?_ }
      rw [List.forall_mem_append, List.forall_mem_singleton]
      exact ⟨fit.properties, parsePropertyDecl_sound field rule derived property parsed⟩
  case h_4 => cases added

theorem parseEdgeDecl_sound : Sound .edgeDecl parseEdgeDecl EdgeDef.Writable := by
  rintro ⟨_, text, children⟩ ⟨⟩ derived edge parsed
  obtain ⟨edgeType, fields, rfl, isType, typeDerived, each, -⟩ :=
    edgeDecl_children derived
  have walk : parseEdgeDecl (.node .edgeDecl text (edgeType :: fields)) =
      fields.foldlM addEdgeField
        { source := none, target := none, properties := [] } >>= fun parts =>
        expect "grammar requires a from_field" parts.source >>= fun source =>
          expect "grammar requires a to_field" parts.target >>= fun target =>
            .ok { edgeType := { name := edgeType.asStr }, source := source,
                  target := target
                  properties := parts.properties } := rfl
  simp only [walk, bind_eq_ok_iff] at parsed
  obtain ⟨parts, walked, source, from', target, to', ⟨⟩⟩ := parsed
  have fit : EdgePartsFit parts := foldlM_keeps
    (fun field member _ _ added => addEdgeField_sound (each field member).2 added) walked
    ⟨by simp, by simp, by simp⟩
  exact ⟨isIdent_of_derived isType typeDerived,
    fit.source source (expect_eq_ok_iff.mp from'),
    fit.target target (expect_eq_ok_iff.mp to'), fit.properties⟩

/-- Where the loop over the declarations ends with maps, every pair has been
read. -/
theorem reads_of_declareAll {decls : List (Pair SchemaRule)}
    {nodes nodes' : ExtTreeMap Label NodeDef compare}
    {edges edges' : ExtTreeMap EdgeType EdgeDef compare}
    (derived : ∀ decl ∈ decls, decl.Derived schemaGrammar)
    (declared : declareAll decls nodes edges = .ok (.ok (nodes', edges'))) :
    ∃ declarations rounds, rounds.flatten = decls ∧
      List.Forall₂ ReadsDeclaration declarations rounds ∧
      ∀ declaration ∈ declarations, declaration.Writable := by
  induction decls generalizing nodes edges with
  | nil => exact ⟨[], [], rfl, .nil, nofun⟩
  | cons decl decls inductionHypothesis =>
      obtain ⟨first, later⟩ := List.forall_mem_cons.mp derived
      rw [declareAll] at declared
      split at declared
      case h_1 rule =>
          obtain ⟨node, parsed, declared⟩ := bind_eq_ok_iff.mp declared
          split at declared
          case isTrue => cases declared
          case isFalse =>
              obtain ⟨declarations, rounds, rfl, each, writable⟩ :=
                inductionHypothesis later declared
              obtain ⟨_, text, children⟩ := decl
              cases rule
              exact ⟨.nodeDecl node :: declarations,
                [.node .nodeDecl text children] :: rounds, rfl,
                .cons ⟨text, children, rfl, parsed⟩ each,
                List.forall_mem_cons.mpr
                  ⟨parseNodeDecl_sound _ rfl first node parsed, writable⟩⟩
      case h_2 rule =>
          obtain ⟨edge, parsed, declared⟩ := bind_eq_ok_iff.mp declared
          split at declared
          case isTrue => cases declared
          case isFalse =>
              obtain ⟨declarations, rounds, rfl, each, writable⟩ :=
                inductionHypothesis later declared
              obtain ⟨_, text, children⟩ := decl
              cases rule
              exact ⟨.edgeDecl edge :: declarations,
                [.node .edgeDecl text children] :: rounds, rfl,
                .cons ⟨text, children, rfl, parsed⟩ each,
                List.forall_mem_cons.mpr
                  ⟨parseEdgeDecl_sound _ rfl first edge parsed, writable⟩⟩
      case h_3 => cases declared

/-- A schema that is returned was read from declarations that can be written. -/
theorem reads_of_parse {report : String → String} {source : String}
    {schema : Schema}
    (parsed : PestSchemaParser.parse report source = .ok (.ok schema)) :
    ∃ version declarations, isIdent version = true ∧
      (∀ declaration ∈ declarations, declaration.Writable) ∧
      DeclaresTo version declarations (.ok schema) := by
  unfold PestSchemaParser.parse at parsed
  cases outcome : schemaParse .schemaFile source.toList with
  | none =>
      rw [outcome] at parsed
      cases parsed
  | some matched =>
      obtain ⟨pairs, rest⟩ := matched
      obtain ⟨⟨_, text, children⟩, rfl, ⟨⟩, derived⟩ :=
        Grammar.derived_of_parse rfl outcome
      obtain ⟨⟨_, text', children'⟩, eoi, rfl, ⟨⟩, declDerived, -⟩ :=
        schemaFile_children derived
      rw [outcome] at parsed
      have walked : parseSchemaDecl (.node .schemaDecl text' children') =
          .ok (.ok schema) :=
        parsed
      obtain ⟨⟨_, name, children''⟩, decls, rfl, ⟨⟩, versionDerived, each⟩ :=
        schemaDecl_children declDerived
      have declared : ∃ maps, declareAll decls ∅ ∅ = .ok (.ok maps) := by
        rw [parseSchemaDecl_eq, map_eq_ok_iff] at walked
        obtain ⟨declared, loop, finished⟩ := walked
        cases declared with
        | error error => cases finished
        | ok maps => exact ⟨maps, loop⟩
      obtain ⟨⟨nodes, edges⟩, loop⟩ := declared
      obtain ⟨declarations, rounds, rfl, reads, writable⟩ :=
        reads_of_declareAll (fun decl member => (each decl member).2) loop
      have childless : children'' = [] := Grammar.children_of_atomic versionDerived rfl
      have named : tok (String.ofList name) = name := String.toList_ofList
      have whole : ReadsSchema (String.ofList name) declarations
          [.node .schemaDecl text' (.node .ident name children'' :: rounds.flatten)] :=
        ⟨text', _, rfl, rounds, by rw [named, childless], reads⟩
      obtain ⟨outcome, again, declares⟩ := parseSchemaDecl_of_reads whole
      rw [walked] at again
      cases again
      have isName : isIdent (String.ofList name) = true :=
        isIdent_of_matches versionDerived
      exact ⟨String.ofList name, declarations, isName, writable, declares⟩

end SchemaParser

/-! ### Declarations of a schema -/

theorem DeclaresTo.declarable {version : String} {declarations : List Declaration}
    {schema : Schema} (declares : DeclaresTo version declarations (.ok schema))
    (named : isIdent version = true)
    (writable : ∀ declaration ∈ declarations, declaration.Writable) :
    schema.Declarable := by
  cases declares with
  | schema distinct declared complete =>
      obtain ⟨rfl, holds⟩ := declared
      refine ⟨named, fun label node found => ?_, fun edgeType edge found => ?_⟩
      · obtain ⟨same, member⟩ := (holds.node label node).mp found
        exact ⟨same, writable _ member⟩
      · obtain ⟨same, member⟩ := (holds.edge edgeType edge).mp found
        have source : LabelDeclared declarations edge.source :=
          not_not.mp fun missing => complete edge member _ (.source missing)
        have target : LabelDeclared declarations edge.target :=
          not_not.mp fun missing => complete edge member _ (.target source missing)
        exact ⟨same, writable _ member, (holds.mem_nodes _).mpr source,
          (holds.mem_nodes _).mpr target⟩

/-- The declarations of a schema, nodes first. -/
def Schema.declarations (schema : Schema) : List Declaration :=
  schema.nodes.toList.map (fun entry => .nodeDecl entry.2) ++ schema.edges.toList.map
    fun entry => .edgeDecl entry.2

namespace Schema.Declarable

variable {schema : Schema} (declarable : schema.Declarable)

include declarable

theorem holds : Holds schema.declarations schema.nodes schema.edges where
  node label node := by
    simp only [Schema.declarations, List.mem_append, List.mem_map,
      Declaration.nodeDecl.injEq, reduceCtorEq, and_false, exists_false, or_false]
    constructor
    · intro found
      exact ⟨(declarable.node label node found).1, (label, node),
        ExtTreeMap.mem_toList_iff_getElem?_eq_some.mpr found, rfl⟩
    · rintro ⟨rfl, ⟨label, _⟩, member, rfl⟩
      have found := ExtTreeMap.mem_toList_iff_getElem?_eq_some.mp member
      rw [(declarable.node label _ found).1]
      exact found
  edge edgeType edge := by
    simp only [Schema.declarations, List.mem_append, List.mem_map,
      Declaration.edgeDecl.injEq, reduceCtorEq, and_false, exists_false, false_or]
    constructor
    · intro found
      exact ⟨(declarable.edge edgeType edge found).1, (edgeType, edge),
        ExtTreeMap.mem_toList_iff_getElem?_eq_some.mpr found, rfl⟩
    · rintro ⟨rfl, ⟨edgeType, _⟩, member, rfl⟩
      have found := ExtTreeMap.mem_toList_iff_getElem?_eq_some.mp member
      rw [(declarable.edge edgeType _ found).1]
      exact found

theorem distinct : Distinct schema.declarations := by
  have labels (entry : Label × NodeDef) (member : entry ∈ schema.nodes.toList) :
      entry.2.label = entry.1 :=
    (declarable.node entry.1 entry.2
      (ExtTreeMap.mem_toList_iff_getElem?_eq_some.mp member)).1
  have types (entry : EdgeType × EdgeDef) (member : entry ∈ schema.edges.toList) :
      entry.2.edgeType = entry.1 :=
    (declarable.edge entry.1 entry.2
      (ExtTreeMap.mem_toList_iff_getElem?_eq_some.mp member)).1
  rw [Distinct, Schema.declarations, List.pairwise_append, List.pairwise_map,
    List.pairwise_map]
  refine ⟨?_, ?_, ?_⟩
  · refine ExtTreeMap.ordered_keys_toList.imp_of_mem
      @fun entry other first second order clash => ?_
    have same : entry.2.label = other.2.label := clash
    rw [labels _ first, labels _ second] at same
    rw [Std.LawfulEqOrd.compare_eq_iff_eq.mpr same] at order
    cases order
  · refine ExtTreeMap.ordered_keys_toList.imp_of_mem
      @fun entry other first second order clash => ?_
    have same : entry.2.edgeType = other.2.edgeType := clash
    rw [types _ first, types _ second] at same
    rw [Std.LawfulEqOrd.compare_eq_iff_eq.mpr same] at order
    cases order
  · simp only [List.mem_map]
    rintro _ ⟨_, -, rfl⟩ _ ⟨_, -, rfl⟩ ⟨⟩

theorem writable : ∀ declaration ∈ schema.declarations, declaration.Writable := by
  intro declaration member
  cases declaration with
  | nodeDecl node =>
      exact (declarable.node node.label node
        ((declarable.holds.node _ node).mpr ⟨rfl, member⟩)).2
  | edgeDecl edge =>
      exact (declarable.edge edge.edgeType edge
        ((declarable.holds.edge _ edge).mpr ⟨rfl, member⟩)).2.1

/-- Its declarations come to nothing but the schema. -/
theorem declaresTo_iff (outcome : Except SchemaError Schema) :
    DeclaresTo schema.version schema.declarations outcome ↔ outcome = .ok schema := by
  have complete (edge : EdgeDef) (member : .edgeDecl edge ∈ schema.declarations)
      (message : String) :
      ¬ Dangles schema.declarations edge message := by
    obtain ⟨-, -, source, target⟩ :=
      declarable.edge edge.edgeType edge
        ((declarable.holds.edge _ edge).mpr ⟨rfl, member⟩)
    exact SchemaParser.not_dangles_of_anchored declarable.holds ⟨source, target⟩ message
  have declares : DeclaresTo schema.version schema.declarations (.ok schema) :=
    .schema declarable.distinct ⟨rfl, declarable.holds⟩ complete
  constructor
  · exact fun declares' => declares'.unique declares
  · rintro rfl
    exact declares

end Schema.Declarable

/-! ### Spelling -/

theorem exists_scalarTokens (ty : ScalarType) : ∃ ts, ScalarTokens ty ts := by
  induction ty with
  | int64 | float64 | bool | string | timestamp | bytes => exact ⟨_, rfl⟩
  | list element inductionHypothesis =>
      obtain ⟨inner, tokens⟩ := inductionHypothesis
      exact ⟨_, inner, tokens, rfl⟩
  | vector dim =>
      obtain ⟨number, token⟩ := exists_numberToken dim
      exact ⟨_, number, token, rfl⟩

theorem exists_propertyTokens (properties : List PropertyDef) :
    ∃ parts, List.Forall₂ PropertyTokens properties parts :=
  exists_forall₂ fun property _ =>
    have ⟨scalar, tokens⟩ := exists_scalarTokens property.ty
    ⟨_, scalar, tokens, rfl⟩

/-- Every list of declarations can be spelled out. -/
theorem exists_schemaTokens (version : String) (declarations : List Declaration) :
    ∃ ts, SchemaTokens version declarations ts := by
  have each : ∃ parts, List.Forall₂ DeclarationTokens declarations parts := by
    refine exists_forall₂ fun declaration _ => ?_
    cases declaration with
    | nodeDecl node =>
        obtain ⟨parts, tokens⟩ := exists_propertyTokens node.properties
        exact ⟨_, parts, tokens, rfl⟩
    | edgeDecl edge =>
        obtain ⟨parts, tokens⟩ := exists_propertyTokens edge.properties
        exact ⟨_, parts, tokens, rfl⟩
  obtain ⟨parts, tokens⟩ := each
  exact ⟨_, parts, tokens, rfl⟩

/-! ### Texts and schemas -/

/-- A text that spells out declarations is parsed to what they come to, and to
nothing else. -/
theorem parse_iff_declaresTo {version : String} {declarations : List Declaration}
    {ts : List Token} {source : String} (report : String → String)
    (named : isIdent version = true)
    (writable : ∀ declaration ∈ declarations, declaration.Writable)
    (tokens : SchemaTokens version declarations ts)
    (laidOut : LaidOut ts source.toList) (outcome : Except SchemaError Schema) :
    PestSchemaParser.parse report source = .ok outcome ↔
      DeclaresTo version declarations outcome := by
  obtain ⟨outcome', parsed, declares⟩ :=
    SchemaParser.parse_declarations report named writable tokens laidOut
  constructor
  · intro parsed'
    rw [parsed] at parsed'
    cases parsed'
    exact declares
  · intro declares'
    rw [parsed, declares.unique declares']

/-- Acquaintance ends in a label that is misspelled. -/
def misspelledDeclarations : List Declaration :=
  [.edgeDecl
    { edgeType := { name := "KNOWS" }, source := { name := "Person" },
      target := { name := "Persn" }
      properties :=
        [{ name := "since", ty := .timestamp, optional := true, indexed := false }] },
   .nodeDecl
    { label := { name := "Person" }
      properties := [{ name := "scores", ty := .list .int64, optional := false,
                       indexed := true }] }]

def misspelledTokens : List Token :=
  ["schema", "social", "\x7b", "edge", "KNOWS", "\x7b", "from", ":", "Person", "to",
    ":", "Persn", "since", ":",
   "Timestamp", "?", "\x7d", "node", "Person", "\x7b", "id", ":", "NodeId",
     "@indexed", "scores", ":", "List", "<",
   "Int64", ">", "\x7d", "\x7d"].map tok

def misspelledText : String :=
  "schema // v1\nsocial \x7b " ++
    "edge KNOWS \x7b from : Person to : Persn since : Timestamp ? \x7d " ++
    "node Person \x7b id : NodeId @indexed scores : List < Int64 > \x7d \x7d"

theorem misspelled_writable :
    ∀ declaration ∈ misspelledDeclarations, declaration.Writable := by
  intro declaration member
  simp only [misspelledDeclarations, List.mem_cons, List.not_mem_nil, or_false] at member
  rcases member with rfl | rfl
  · refine ⟨by decide, by decide, by decide, ?_⟩
    intro property member
    cases List.mem_singleton.mp member
    exact ⟨by decide, trivial⟩
  · refine ⟨by decide, ?_⟩
    intro property member
    cases List.mem_singleton.mp member
    exact ⟨by decide, trivial⟩

theorem misspelled_tokens :
    SchemaTokens "social" misspelledDeclarations misspelledTokens := by
  have edge : DeclarationTokens misspelledDeclarations[0] _ :=
    ⟨_, .cons ⟨_, rfl, rfl⟩ .nil, rfl⟩
  have node : DeclarationTokens misspelledDeclarations[1] _ :=
    ⟨_, .cons ⟨_, ⟨_, rfl, rfl⟩, rfl⟩ .nil, rfl⟩
  exact ⟨_, .cons edge (.cons node .nil), rfl⟩

theorem misspelled_laidOut : LaidOut misspelledTokens misspelledText.toList := by
  have remark : Blank ('/' :: '/' :: ([' ', 'v', '1'] ++ '\n' :: [])) :=
    .comment (by decide) .none
  have gap : Gap (' ' :: '/' :: '/' :: ([' ', 'v', '1'] ++ '\n' :: [])) :=
    ⟨List.cons_ne_nil _ _, .space rfl remark⟩
  have space : Gap [' '] := ⟨List.cons_ne_nil _ _, .space rfl .none⟩
  have text : misspelledText.toList = tok "schema" ++
      (' ' :: '/' :: '/' :: ([' ', 'v', '1'] ++ '\n' :: []) ++
        [' '].intercalate misspelledTokens.tail) := by
    decide +kernel
  exact ⟨[], _, text, .none, _, _, rfl, .inl gap,
    spaced_intercalate space misspelledTokens.tail⟩

/-- The label that is not declared is named. -/
theorem misspelled_declaresTo : PestSchemaParser.parse (fun _ => "") misspelledText =
    .ok (.error (.parse "edge KNOWS references unknown target label Persn")) := by
  apply (parse_iff_declaresTo _
    (by decide) misspelled_writable misspelled_tokens misspelled_laidOut _).mpr
  have source : LabelDeclared misspelledDeclarations { name := "Person" } :=
    ⟨_, List.mem_cons_of_mem _ List.mem_cons_self, rfl⟩
  have target : ¬ LabelDeclared misspelledDeclarations { name := "Persn" } := by
    rintro ⟨node, member, named⟩
    simp only [misspelledDeclarations, List.mem_cons, reduceCtorEq,
      Declaration.nodeDecl.injEq, List.not_mem_nil, or_false, false_or] at member
    subst member
    exact absurd named (by decide)
  refine .dangling ?_ List.mem_cons_self (.target source target) fun other member _ => ?_
  · simp [Distinct, misspelledDeclarations, Declaration.Clash]
  · simp only [misspelledDeclarations, List.mem_cons, reduceCtorEq,
      Declaration.edgeDecl.injEq, List.not_mem_nil, or_false] at member
    subst member
    decide

/-- A schema can be declared if and only if the parser returns it for some
text. -/
theorem exists_parse_iff_declarable (report : String → String) (schema : Schema) :
    (∃ source, PestSchemaParser.parse report source = .ok (.ok schema)) ↔
      schema.Declarable := by
  constructor
  · rintro ⟨source, parsed⟩
    obtain ⟨version, declarations, named, writable, declares⟩ :=
      SchemaParser.reads_of_parse parsed
    exact declares.declarable named writable
  · intro declarable
    obtain ⟨ts, tokens⟩ := exists_schemaTokens schema.version schema.declarations
    have space : Gap [' '] := ⟨by simp, .space rfl .none⟩
    have laidOut : LaidOut ts (String.ofList ([' '].intercalate ts)).toList := by
      rw [String.toList_ofList]
      exact ⟨[], _, rfl, .none, spaced_intercalate space ts⟩
    obtain ⟨outcome, parsed, declares⟩ :=
      SchemaParser.parse_declarations report declarable.version declarable.writable
        tokens laidOut
    rw [(declarable.declaresTo_iff outcome).mp declares] at parsed
    exact ⟨_, parsed⟩

end GraphEngine
