/-
Module: GraphEngine.Proofs.SchemaText
Layer: Proofs
Purpose: The walk over a schema's parse tree meets nothing it does not expect,
  except vector dimensions that do not fit 32 bits; with the walk over queries,
  when parsing client input returns.
Trusted boundary: none
Main exports: parseSchemaDecl_returns, schemaParse_returns_iff,
  parsing_returns_iff
-/
import GraphEngine.Model.SchemaParser
import GraphEngine.Proofs.QueryText

namespace GraphEngine

open Std (ExtTreeMap)

namespace SchemaParser

open Grammar (Leaves children_of_atomic entered_of_derived shape_of_derived only_child
  size_lt_of_mem
  leaves_of_derived leaves_sequence_token leaves_sequence_rule)

/-! ### Dimensions that do not fit -/

/-- Somewhere in the tree stands a vector dimension of more than 32 bits. -/
inductive Overflows : Pair SchemaRule → Prop where
  | vector {text : List Char} {children : List (Pair SchemaRule)}
      {number : Pair SchemaRule}
      (member : number ∈ children) (large : 2 ^ 32 ≤ digitsValue number.text) :
      Overflows (.node .vectorType text children)
  | inside {rule : SchemaRule} {text : List Char} {children : List (Pair SchemaRule)}
      {child : Pair SchemaRule}
      (member : child ∈ children) (overflows : Overflows child) :
        Overflows (.node rule text children)

/-- Elsewhere only the children count. -/
theorem overflows_iff {rule : SchemaRule} {text : List Char}
    {children : List (Pair SchemaRule)} (plain : rule ≠ .vectorType) :
    ¬ Overflows (.node rule text children) ↔ ∀ child ∈ children, ¬ Overflows child := by
  constructor
  · intro fits child member overflows
    exact fits (.inside member overflows)
  · intro fit overflows
    cases overflows with
    | vector => exact plain rfl
    | inside member overflows => exact fit _ member overflows

/-- A walk that returns for exactly the trees of a rule whose dimensions fit. -/
def Total {α : Type} (rule : SchemaRule)
    (walk : Pair SchemaRule → Except PanicMessage α) : Prop :=
  ∀ pair : Pair SchemaRule, pair.asRule = rule → pair.Derived schemaGrammar →
    (Returns (walk pair) ↔ ¬ Overflows pair)

/-- Rules below which there are no further pairs. -/
def IsLeaf (rule : SchemaRule) : Prop :=
  rule.atomic = true ∨ rule.atomic = false ∧
    (∀ name ∈ rule.body.entered, name.silent = false) ∧
    ∃ shapes, rule.body.shapes = some shapes ∧ ∀ shape ∈ shapes, shape = []

theorem leaf_fits {rule : SchemaRule} (leaf : IsLeaf rule)
    (plain : rule ≠ .vectorType) {pair : Pair SchemaRule}
    (isRule : pair.asRule = rule) (derived : pair.Derived schemaGrammar) :
    ¬ Overflows pair := by
  obtain ⟨rule', text, children⟩ := pair
  simp only [Pair.asRule] at isRule
  subst isRule
  have empty : children = [] := by
    rcases leaf with atomic | ⟨inner, visible, shapes, finite, none⟩
    · exact children_of_atomic derived atomic
    · exact List.map_eq_nil_iff.mp
        (none _ (shape_of_derived derived inner visible finite))
  rw [overflows_iff plain, empty]
  simp

theorem isLeaf_ident : IsLeaf .ident := .inl rfl

theorem isLeaf_number : IsLeaf .number := .inl rfl

theorem isLeaf_indexedMarker : IsLeaf .indexedMarker :=
  .inr ⟨rfl, by decide, _, rfl, by decide⟩

theorem isLeaf_optionalMarker : IsLeaf .optionalMarker :=
  .inr ⟨rfl, by decide, _, rfl, by decide⟩

theorem isLeaf_simpleType : IsLeaf .simpleType := .inr ⟨rfl, by decide, _, rfl, by decide⟩

theorem isLeaf_idField : IsLeaf .idField := .inr ⟨rfl, by decide, _, rfl, by decide⟩

/-! ### Types -/

theorem parseSimpleType_returns {pair : Pair SchemaRule}
    (rule : pair.asRule = .simpleType) (derived : pair.Derived schemaGrammar) :
    Returns (parseSimpleType pair) := by
  obtain ⟨_, text, children⟩ := pair
  cases rule
  obtain ⟨token, member, same⟩ := @Grammar.text_of_tokens _ schemaGrammar _
    ["Int64", "Float64", "Bool", "String", "Timestamp", "Bytes"] (by simp) _ _ derived
  simp only [parseSimpleType, Pair.asStr, Pair.text, same]
  simp only [List.mem_cons, List.not_mem_nil, or_false] at member
  rcases member with rfl | rfl | rfl | rfl | rfl | rfl <;> exact returns_ok _

/-- The dimension of a vector type. -/
theorem parseVectorType_returns {text : List Char} {children : List (Pair SchemaRule)}
    (derived : (Pair.node .vectorType text children).Derived schemaGrammar) :
    Returns (parseTypeAlternative (.node .vectorType text children)) ↔
      ¬ Overflows (.node .vectorType text children) := by
  obtain ⟨number, rfl, kind⟩ := @only_child _ children [SchemaRule.number]
    (shape_of_derived derived rfl (by decide) rfl)
  have inner := (entered_of_derived derived rfl [.number] (by decide)
    (by decide) _ List.mem_cons_self).2
  have isNumber := List.mem_singleton.mp kind
  have numeral : isNumeral number.text = true := by
    obtain ⟨_, digits, _⟩ := number
    cases isNumber
    exact isNumeral_of_matches inner
  have walk : parseTypeAlternative (.node .vectorType text [number]) =
      expect "the `number` rule only matches ASCII digits"
        (parseUnsigned 32 number.text) >>= fun dim =>
        .ok (.vector dim) := rfl
  rw [walk, returns_bind_of_forall fun _ => returns_ok _, returns_expect,
    parseUnsigned_isSome numeral]
  constructor
  · intro fits overflows
    cases overflows with
    | vector member large =>
        rw [List.mem_singleton.mp member] at large
        omega
    | inside member overflows =>
        rw [List.mem_singleton.mp member] at overflows
        exact leaf_fits isLeaf_number (by decide) isNumber inner overflows
  · intro fits
    by_contra large
    exact fits (.vector List.mem_cons_self (by omega))

/-- Types, by induction on the tree: a list type holds its element's. -/
theorem parseScalarType_total : Total .scalarType parseScalarType := by
  intro pair
  induction size : sizeOf pair using Nat.strongRecOn generalizing pair with
  | _ n ih =>
      subst size
      obtain ⟨_, text, children⟩ := pair
      rintro ⟨⟩ derived
      obtain ⟨⟨rule, text', children'⟩, rfl, kind⟩ := @only_child _ children
        [SchemaRule.listType, .vectorType, .simpleType]
        (shape_of_derived derived rfl (by decide) rfl)
      have inner := (entered_of_derived derived rfl [.listType, .vectorType,
          .simpleType] (by decide)
        (by decide) _ List.mem_cons_self).2
      have walk : parseScalarType (.node .scalarType text [.node rule text' children']) =
          parseTypeAlternative (.node rule text' children') := rfl
      rw [walk, overflows_iff (by decide), List.forall_mem_singleton]
      simp only [Pair.asRule, List.mem_cons, List.not_mem_nil, or_false] at kind
      rcases kind with rfl | rfl | rfl
      · obtain ⟨elem, rfl, isElem⟩ := @only_child _ children' [SchemaRule.scalarType]
          (shape_of_derived inner rfl (by decide) rfl)
        have elemDerived :=
          (entered_of_derived inner rfl [.scalarType] (by decide) (by decide) _
          List.mem_cons_self).2
        have list : parseTypeAlternative (.node .listType text' [elem]) =
            (parseScalarType elem).map .list :=
          rfl
        rw [list, returns_map, overflows_iff (by decide), List.forall_mem_singleton]
        refine ih _ ?_ elem rfl (List.mem_singleton.mp isElem) elemDerived
        calc sizeOf elem
            < sizeOf (Pair.node SchemaRule.listType text' [elem]) :=
              size_lt_of_mem List.mem_cons_self
          _ < sizeOf
            (Pair.node SchemaRule.scalarType text [.node .listType text' [elem]]) :=
              size_lt_of_mem List.mem_cons_self
      · exact parseVectorType_returns inner
      · exact iff_of_true (parseSimpleType_returns rfl inner)
          (leaf_fits isLeaf_simpleType (by decide) rfl inner)

/-! ### Declarations -/

/-- The parts of a property declaration. -/
def propertyParts : List SchemaRule :=
  [.indexedMarker, .ident, .scalarType, .optionalMarker]

theorem addPropertyPart_returns {part : Pair SchemaRule}
    (rule : part.asRule ∈ propertyParts) (derived : part.Derived schemaGrammar)
    (parts : PropertyParts) :
    Returns (addPropertyPart parts part) ↔ ¬ Overflows part := by
  simp only [propertyParts, List.mem_cons, List.not_mem_nil, or_false] at rule
  rcases rule with rule | rule | rule | rule
  · simp [addPropertyPart, rule, leaf_fits isLeaf_indexedMarker (by decide) rule derived]
  · simp [addPropertyPart, rule, leaf_fits isLeaf_ident (by decide) rule derived]
  · rw [addPropertyPart, rule]
    exact returns_map.trans (parseScalarType_total part rule derived)
  · simp [addPropertyPart, rule, leaf_fits isLeaf_optionalMarker (by decide) rule derived]

/-- The walk finds the name and does not lose it. -/
theorem name_found {part : Pair SchemaRule} {parts parts' : PropertyParts}
    (added : addPropertyPart parts part = .ok parts')
    (found : part.asRule ≠ .ident → parts.name.isSome) : parts'.name.isSome := by
  unfold addPropertyPart at added
  split at added
  case h_1 rule | h_4 rule =>
      cases added
      exact found (by simp [rule])
  case h_2 =>
      cases added
      rfl
  case h_3 rule =>
      obtain ⟨_, _, rfl⟩ := map_eq_ok_iff.mp added
      exact found (by simp [rule])
  case h_5 => cases added

/-- The walk finds the type and does not lose it. -/
theorem type_found {part : Pair SchemaRule} {parts parts' : PropertyParts}
    (added : addPropertyPart parts part = .ok parts')
    (found : part.asRule ≠ .scalarType → parts.ty.isSome) : parts'.ty.isSome := by
  unfold addPropertyPart at added
  split at added
  case h_1 rule | h_2 rule | h_4 rule =>
      cases added
      exact found (by simp [rule])
  case h_3 =>
      obtain ⟨_, _, rfl⟩ := map_eq_ok_iff.mp added
      rfl
  case h_5 => cases added

theorem parsePropertyDecl_total : Total .propertyDecl parsePropertyDecl := by
  rintro ⟨_, text, children⟩ ⟨⟩ derived
  have shape : children.map Pair.asRule ∈
      [[SchemaRule.ident, .scalarType], [.ident, .scalarType, .optionalMarker],
       [.indexedMarker, .ident, .scalarType],
         [.indexedMarker, .ident, .scalarType, .optionalMarker]] :=
    shape_of_derived derived rfl (by decide) rfl
  have each := entered_of_derived derived rfl propertyParts (by decide) (by decide)
  have named : SchemaRule.ident ∈ children.map Pair.asRule := by
    simp only [List.mem_cons, List.not_mem_nil, or_false] at shape
    rcases shape with same | same | same | same <;> rw [same] <;> decide
  have typed : SchemaRule.scalarType ∈ children.map Pair.asRule := by
    simp only [List.mem_cons, List.not_mem_nil, or_false] at shape
    rcases shape with same | same | same | same <;> rw [same] <;> decide
  obtain ⟨name, nameMember, isName⟩ := List.mem_map.mp named
  obtain ⟨ty, typeMember, isType⟩ := List.mem_map.mp typed
  let start : PropertyParts :=
    { name := none, ty := none, optional := false, indexed := false }
  have loop : Returns (children.foldlM addPropertyPart start) ↔
      ∀ part ∈ children, ¬ Overflows part :=
    returns_foldlM (fun part member parts =>
      addPropertyPart_returns (each part member).1 (each part member).2 parts) start
  have walk : parsePropertyDecl (.node .propertyDecl text children) =
      children.foldlM addPropertyPart start >>= fun parts =>
        expect "grammar requires a property name" parts.name >>= fun name =>
          expect "grammar requires a property type" parts.ty >>= fun ty =>
            .ok { name := name, ty := ty, optional := parts.optional,
                  indexed := parts.indexed } := rfl
  rw [overflows_iff (by decide), ← loop, walk]
  refine returns_bind_of_reached fun parts walked => ?_
  rw [returns_bind_iff fun _ => returns_bind_of_forall fun _ => returns_ok _,
    returns_expect, returns_expect]
  constructor
  · refine @foldlM_reaches _ _ _
      (fun parts => parts.name.isSome) _ ?_ name nameMember ?_ _ _ walked
    · exact fun part _ parts parts' added found => name_found added fun _ => found
    · exact fun parts parts' added => name_found added fun other => absurd isName other
  · refine @foldlM_reaches _ _ _
      (fun parts => parts.ty.isSome) _ ?_ ty typeMember ?_ _ _ walked
    · exact fun part _ parts parts' added found => type_found added fun _ => found
    · exact fun parts parts' added => type_found added fun other => absurd isType other

/-- One field of a node declaration, whatever came before. -/
theorem addNodeField_returns {field : Pair SchemaRule}
    (rule : field.asRule ∈ [SchemaRule.idField, .propertyDecl])
    (derived : field.Derived schemaGrammar) (properties : List PropertyDef) :
    Returns (addNodeField properties field) ↔ ¬ Overflows field := by
  simp only [List.mem_cons, List.not_mem_nil, or_false] at rule
  rcases rule with rule | rule
  · simp [addNodeField, rule, leaf_fits isLeaf_idField (by decide) rule derived]
  · rw [addNodeField, rule]
    exact returns_map.trans (parsePropertyDecl_total field rule derived)

/-- A repetition of property declarations leaves nothing else. -/
theorem properties_of_leaves {pairs : List (Pair SchemaRule)}
    (leaves : Leaves schemaGrammar
      (.sequence [.star (.rule .propertyDecl), .token "\x7d"]) pairs) :
    ∀ property ∈ pairs, property.asRule = .propertyDecl ∧
      property.Derived schemaGrammar := by
  intro property member
  obtain ⟨listed, _, derived⟩ :=
    @Grammar.entered_of_leaves _ schemaGrammar [.propertyDecl] (by decide) _
    (by decide) _ leaves property member
  exact ⟨List.mem_singleton.mp listed, derived⟩

/-- A node declaration starts with its label; the rest are fields. -/
theorem nodeDecl_children {text : List Char} {children : List (Pair SchemaRule)}
    (derived : (Pair.node .nodeDecl text children).Derived schemaGrammar) :
    ∃ label fields, children = label :: fields ∧ label.asRule = .ident ∧
      label.Derived schemaGrammar ∧
      ∀ field ∈ fields, field.asRule ∈ [SchemaRule.idField, .propertyDecl] ∧
        field.Derived schemaGrammar := by
  have leaves :
      Leaves schemaGrammar (.sequence [.token "node", .rule .ident, .token "\x7b",
      .rule .idField, .star (.rule .propertyDecl), .token "\x7d"]) children :=
        leaves_of_derived derived rfl
  rw [leaves_sequence_token, leaves_sequence_rule rfl] at leaves
  obtain ⟨label, _, rfl, isLabel, labelDerived, leaves⟩ := leaves
  rw [leaves_sequence_token, leaves_sequence_rule rfl] at leaves
  obtain ⟨idField, properties, rfl, isId, idDerived, leaves⟩ := leaves
  refine ⟨label, _, rfl, isLabel, labelDerived,
    List.forall_mem_cons.mpr ⟨⟨by simp [isId], idDerived⟩, ?_⟩⟩
  intro property member
  obtain ⟨isProperty, propertyDerived⟩ := properties_of_leaves leaves property member
  exact ⟨by simp [isProperty], propertyDerived⟩

theorem parseNodeDecl_total : Total .nodeDecl parseNodeDecl := by
  rintro ⟨_, text, children⟩ ⟨⟩ derived
  obtain ⟨label, fields, rfl, isLabel, labelDerived, each⟩ := nodeDecl_children derived
  have walk : parseNodeDecl (.node .nodeDecl text (label :: fields)) =
      fields.foldlM addNodeField [] >>= fun properties =>
        .ok { label := { name := label.asStr }, properties := properties } := rfl
  rw [walk, returns_bind_of_forall fun _ => returns_ok _, overflows_iff (by decide),
    List.forall_mem_cons,
    returns_foldlM fun field member properties =>
      addNodeField_returns (each field member).1 (each field member).2 properties]
  simp [leaf_fits isLeaf_ident (by decide) isLabel labelDerived]

/-- The fields of an edge declaration. -/
def edgeFields : List SchemaRule := [.fromField, .toField, .propertyDecl]

/-- An endpoint field wraps a label, and holds no dimensions. -/
theorem fieldLabel_returns {field : Pair SchemaRule}
    (endpoint : field.asRule = .fromField ∨ field.asRule = .toField)
    (derived : field.Derived schemaGrammar) :
    Returns (fieldLabel field) ∧ ¬ Overflows field := by
  obtain ⟨rule, text, children⟩ := field
  simp only [Pair.asRule] at endpoint
  have only : ∃ ident, children = [ident] ∧ ident.asRule = .ident ∧
      ident.Derived schemaGrammar := by
    rcases endpoint with rfl | rfl
    · obtain ⟨ident, rfl, kind⟩ := @only_child _ children [SchemaRule.ident]
        (shape_of_derived derived rfl (by decide) rfl)
      exact ⟨ident, rfl, List.mem_singleton.mp kind,
        (entered_of_derived derived rfl [.ident] (by decide)
          (by decide) _ List.mem_cons_self).2⟩
    · obtain ⟨ident, rfl, kind⟩ := @only_child _ children [SchemaRule.ident]
        (shape_of_derived derived rfl (by decide) rfl)
      exact ⟨ident, rfl, List.mem_singleton.mp kind,
        (entered_of_derived derived rfl [.ident] (by decide)
          (by decide) _ List.mem_cons_self).2⟩
  obtain ⟨ident, rfl, isIdent, identDerived⟩ := only
  have plain : rule ≠ .vectorType := by
    rcases endpoint with rfl | rfl <;> decide
  refine ⟨⟨{ name := ident.asStr }, rfl⟩,
    (overflows_iff plain).mpr (List.forall_mem_singleton.mpr ?_)⟩
  exact leaf_fits isLeaf_ident (by decide) isIdent identDerived

theorem addEdgeField_returns {field : Pair SchemaRule} (rule : field.asRule ∈ edgeFields)
    (derived : field.Derived schemaGrammar) (parts : EdgeParts) :
    Returns (addEdgeField parts field) ↔ ¬ Overflows field := by
  simp only [edgeFields, List.mem_cons, List.not_mem_nil, or_false] at rule
  rcases rule with rule | rule | rule
  · have endpoint := fieldLabel_returns (.inl rule) derived
    rw [addEdgeField, rule]
    exact returns_map.trans (iff_of_true endpoint.1 endpoint.2)
  · have endpoint := fieldLabel_returns (.inr rule) derived
    rw [addEdgeField, rule]
    exact returns_map.trans (iff_of_true endpoint.1 endpoint.2)
  · rw [addEdgeField, rule]
    exact returns_map.trans (parsePropertyDecl_total field rule derived)

/-- The walk finds the end points that it comes to and loses none. -/
theorem ends_found {field : Pair SchemaRule} {parts parts' : EdgeParts}
    (added : addEdgeField parts field = .ok parts') :
    (parts'.source.isSome ↔ field.asRule = .fromField ∨ parts.source.isSome) ∧
      (parts'.target.isSome ↔ field.asRule = .toField ∨ parts.target.isSome) := by
  unfold addEdgeField at added
  split at added
  case h_1 rule | h_2 rule | h_3 rule =>
      obtain ⟨_, _, rfl⟩ := map_eq_ok_iff.mp added
      simp [rule]
  case h_4 => cases added

/-- An edge declaration starts with its type; the rest are fields, both
endpoints among them. -/
theorem edgeDecl_children {text : List Char} {children : List (Pair SchemaRule)}
    (derived : (Pair.node .edgeDecl text children).Derived schemaGrammar) :
    ∃ edgeType fields, children = edgeType :: fields ∧ edgeType.asRule = .ident ∧
      edgeType.Derived schemaGrammar ∧
      (∀ field ∈ fields, field.asRule ∈ edgeFields ∧ field.Derived schemaGrammar) ∧
      (∃ source ∈ fields, source.asRule = .fromField) ∧
        ∃ target ∈ fields, target.asRule = .toField := by
  have leaves :
      Leaves schemaGrammar (.sequence [.token "edge", .rule .ident, .token "\x7b",
      .rule .fromField, .rule .toField, .star (.rule .propertyDecl), .token "\x7d"])
        children :=
    leaves_of_derived derived rfl
  rw [leaves_sequence_token, leaves_sequence_rule rfl] at leaves
  obtain ⟨edgeType, _, rfl, isType, typeDerived, leaves⟩ := leaves
  rw [leaves_sequence_token, leaves_sequence_rule rfl] at leaves
  obtain ⟨source, _, rfl, isSource, sourceDerived, leaves⟩ := leaves
  rw [leaves_sequence_rule rfl] at leaves
  obtain ⟨target, properties, rfl, isTarget, targetDerived, leaves⟩ := leaves
  refine ⟨edgeType, _, rfl, isType, typeDerived, ?_,
    ⟨source, List.mem_cons_self, isSource⟩,
    ⟨target, List.mem_cons_of_mem _ List.mem_cons_self, isTarget⟩⟩
  refine List.forall_mem_cons.mpr ⟨⟨by simp [edgeFields, isSource], sourceDerived⟩, ?_⟩
  refine List.forall_mem_cons.mpr ⟨⟨by simp [edgeFields, isTarget], targetDerived⟩, ?_⟩
  intro property member
  obtain ⟨isProperty, propertyDerived⟩ := properties_of_leaves leaves property member
  exact ⟨by simp [edgeFields, isProperty], propertyDerived⟩

theorem parseEdgeDecl_total : Total .edgeDecl parseEdgeDecl := by
  rintro ⟨_, text, children⟩ ⟨⟩ derived
  obtain ⟨edgeType, fields, rfl, isType, typeDerived, each, ⟨source, isIn, isSource⟩,
      target, isIn',
    isTarget⟩ := edgeDecl_children derived
  let start : EdgeParts := { source := none, target := none, properties := [] }
  have loop : Returns (fields.foldlM addEdgeField start) ↔
      ∀ field ∈ fields, ¬ Overflows field :=
    returns_foldlM (fun field member parts =>
      addEdgeField_returns (each field member).1 (each field member).2 parts) start
  have walk : parseEdgeDecl (.node .edgeDecl text (edgeType :: fields)) =
      fields.foldlM addEdgeField start >>= fun parts =>
        expect "grammar requires a from_field" parts.source >>= fun source =>
          expect "grammar requires a to_field" parts.target >>= fun target =>
            .ok
              { edgeType := { name := edgeType.asStr }, source := source, target := target
                properties := parts.properties } := rfl
  rw [overflows_iff (by decide), List.forall_mem_cons, ← loop, walk]
  rw [and_iff_right (leaf_fits isLeaf_ident (by decide) isType typeDerived)]
  refine returns_bind_of_reached fun parts walked => ?_
  rw [returns_bind_iff fun _ => returns_bind_of_forall fun _ => returns_ok _,
    returns_expect, returns_expect]
  constructor
  · refine @foldlM_reaches _ _ _
      (fun parts => parts.source.isSome) _ ?_ source isIn ?_ _ _ walked
    · exact fun field _ parts parts' added found => (ends_found added).1.mpr (.inr found)
    · exact fun parts parts' added => (ends_found added).1.mpr (.inl isSource)
  · refine @foldlM_reaches _ _ _
      (fun parts => parts.target.isSome) _ ?_ target isIn' ?_ _ _ walked
    · exact fun field _ parts parts' added found => (ends_found added).2.mpr (.inr found)
    · exact fun parts parts' added => (ends_found added).2.mpr (.inl isTarget)

/-! ### Schemas -/

/-- The label or edge type that a declaration is about. -/
def declaredName (decl : Pair SchemaRule) : String :=
  (decl.intoInner.head?.map Pair.asStr).getD ""

/-- What the declarations of one kind are about, in order. -/
def declaredNames (kind : SchemaRule) (decls : List (Pair SchemaRule)) : List String :=
  (decls.filter fun decl => decl.asRule = kind).map declaredName

/-- No label and no edge type is declared twice. -/
def NoRepeats (decls : List (Pair SchemaRule)) : Prop :=
  (declaredNames .nodeDecl decls).Nodup ∧ (declaredNames .edgeDecl decls).Nodup

theorem declaredNames_append (kind : SchemaRule)
    (decls decls' : List (Pair SchemaRule)) :
    declaredNames kind (decls ++ decls') = declaredNames kind decls ++
      declaredNames kind decls' := by
  simp [declaredNames]

theorem declaredNames_singleton (kind : SchemaRule) (decl : Pair SchemaRule) :
    declaredNames kind [decl] = if decl.asRule = kind
      then [declaredName decl] else [] := by
  by_cases same : decl.asRule = kind <;> simp [declaredNames, same]

theorem NoRepeats.of_append {decls decls' : List (Pair SchemaRule)}
    (noRepeats : NoRepeats (decls ++ decls')) : NoRepeats decls := by
  rw [NoRepeats, declaredNames_append, declaredNames_append] at noRepeats
  exact ⟨noRepeats.1.of_append_left, noRepeats.2.of_append_left⟩

theorem label_of_parseNodeDecl {decl : Pair SchemaRule} {node : NodeDef}
    (parsed : parseNodeDecl decl = .ok node) :
    node.label = { name := declaredName decl } := by
  unfold parseNodeDecl at parsed
  obtain ⟨label, found, parsed⟩ := bind_eq_ok_iff.mp parsed
  obtain ⟨properties, _, parsed⟩ := bind_eq_ok_iff.mp parsed
  cases head : decl.intoInner.head? with
  | none => simp [head, expect] at found
  | some first =>
      rw [head] at found
      cases found
      cases parsed
      simp [declaredName, head]

theorem edgeType_of_parseEdgeDecl {decl : Pair SchemaRule} {edge : EdgeDef}
    (parsed : parseEdgeDecl decl = .ok edge) :
    edge.edgeType = { name := declaredName decl } := by
  unfold parseEdgeDecl at parsed
  obtain ⟨edgeType, found, parsed⟩ := bind_eq_ok_iff.mp parsed
  obtain ⟨parts, _, parsed⟩ := bind_eq_ok_iff.mp parsed
  obtain ⟨source, _, parsed⟩ := bind_eq_ok_iff.mp parsed
  obtain ⟨target, _, parsed⟩ := bind_eq_ok_iff.mp parsed
  cases head : decl.intoInner.head? with
  | none => simp [head, expect] at found
  | some first =>
      rw [head] at found
      cases found
      cases parsed
      simp [declaredName, head]

/-- The maps hold what the declarations so far are about. -/
structure Declared (done : List (Pair SchemaRule))
    (nodes : ExtTreeMap Label NodeDef compare)
    (edges : ExtTreeMap EdgeType EdgeDef compare) : Prop where
  nodes : ∀ label, label ∈ nodes ↔ label.name ∈ declaredNames .nodeDecl done
  edges : ∀ edgeType, edgeType ∈ edges ↔ edgeType.name ∈ declaredNames .edgeDecl done

section Declared

variable {done : List (Pair SchemaRule)} {nodes : ExtTreeMap Label NodeDef compare}
  {edges : ExtTreeMap EdgeType EdgeDef compare} {decl : Pair SchemaRule}

theorem Declared.node (declared : Declared done nodes edges)
    (kind : decl.asRule = .nodeDecl) {node : NodeDef}
    (label : node.label = { name := declaredName decl }) :
    Declared (done ++ [decl]) (nodes.insert node.label node) edges where
  nodes other := by
    rw [ExtTreeMap.mem_insert, declared.nodes, declaredNames_append,
      declaredNames_singleton, if_pos kind, Std.LawfulEqOrd.compare_eq_iff_eq,
      List.mem_append, List.mem_singleton, label, or_comm]
    exact or_congr_right
      ⟨fun same => same ▸ rfl, fun same => Label.name_injective _ _ same.symm⟩
  edges other := by
    rw [declared.edges, declaredNames_append, declaredNames_singleton,
      if_neg (by simp [kind]), List.append_nil]

theorem Declared.edge (declared : Declared done nodes edges)
    (kind : decl.asRule = .edgeDecl) {edge : EdgeDef}
    (edgeType : edge.edgeType = { name := declaredName decl }) :
    Declared (done ++ [decl]) nodes (edges.insert edge.edgeType edge) where
  nodes other := by
    rw [declared.nodes, declaredNames_append, declaredNames_singleton,
      if_neg (by simp [kind]), List.append_nil]
  edges other := by
    rw [ExtTreeMap.mem_insert, declared.edges, declaredNames_append,
      declaredNames_singleton, if_pos kind, Std.LawfulEqOrd.compare_eq_iff_eq,
      List.mem_append, List.mem_singleton, edgeType, or_comm]
    exact or_congr_right
      ⟨fun same => same ▸ rfl, fun same => EdgeType.name_injective _ _ same.symm⟩

/-- One more declaration repeats an earlier one or keeps the names distinct. -/
theorem noRepeats_node (noRepeats : NoRepeats done) (kind : decl.asRule = .nodeDecl) :
    NoRepeats (done ++ [decl]) ↔ declaredName decl ∉ declaredNames .nodeDecl done := by
  have other : decl.asRule ≠ .edgeDecl := by simp [kind]
  simp only [NoRepeats, declaredNames_append, declaredNames_singleton, if_pos kind,
    if_neg other, List.append_nil, noRepeats.2, and_true]
  rw [List.nodup_append_comm]
  simp [noRepeats.1]

theorem noRepeats_edge (noRepeats : NoRepeats done) (kind : decl.asRule = .edgeDecl) :
    NoRepeats (done ++ [decl]) ↔ declaredName decl ∉ declaredNames .edgeDecl done := by
  have other : decl.asRule ≠ .nodeDecl := by simp [kind]
  simp only [NoRepeats, declaredNames_append, declaredNames_singleton, if_pos kind,
    if_neg other, List.append_nil, noRepeats.1, true_and]
  rw [List.nodup_append_comm]
  simp [noRepeats.2]

end Declared

/-- No dimension is too large in a declaration that is reached, that is one
before which nothing is declared twice. -/
def ReachedFit (done decls : List (Pair SchemaRule)) : Prop :=
  ∀ earlier decl later, decls = earlier ++ decl :: later →
    NoRepeats (done ++ earlier) → ¬ Overflows decl

theorem reachedFit_cons {done decls : List (Pair SchemaRule)}
    {decl : Pair SchemaRule} (noRepeats : NoRepeats done) :
    ReachedFit done (decl :: decls) ↔ ¬ Overflows decl ∧
      ReachedFit (done ++ [decl]) decls := by
  constructor
  · intro fit
    refine ⟨fit [] decl decls rfl (by simpa using noRepeats),
      fun earlier other later split distinct => ?_⟩
    exact fit (decl :: earlier) other later (by rw [split]; rfl) (by simpa using distinct)
  · rintro ⟨first, rest⟩ earlier other later split distinct
    cases earlier with
    | nil =>
        simp only [List.nil_append, List.cons.injEq] at split
        exact split.1 ▸ first
    | cons decl' earlier =>
        simp only [List.cons_append, List.cons.injEq] at split
        obtain ⟨rfl, split⟩ := split
        exact rest earlier other later split (by simpa using distinct)

/-- After a repetition nothing more is reached. -/
theorem reachedFit_of_repeated {done decls : List (Pair SchemaRule)}
    (repeated : ¬ NoRepeats done) : ReachedFit done decls :=
  fun _ _ _ _ distinct => absurd distinct.of_append repeated

/-- The declarations return if no dimension is too large before, or in, the
first one after a repetition. -/
theorem declareAll_returns {decls : List (Pair SchemaRule)}
    (each : ∀ decl ∈ decls, decl.asRule ∈ [SchemaRule.nodeDecl, .edgeDecl] ∧
      decl.Derived schemaGrammar) {done : List (Pair SchemaRule)}
    {nodes : ExtTreeMap Label NodeDef compare}
    {edges : ExtTreeMap EdgeType EdgeDef compare} (noRepeats : NoRepeats done)
    (declared : Declared done nodes edges) :
    Returns (declareAll decls nodes edges) ↔ ReachedFit done decls := by
  induction decls generalizing done nodes edges with
  | nil =>
      refine iff_of_true (returns_ok _) fun earlier decl later split => ?_
      simp at split
  | cons decl decls ih =>
      obtain ⟨⟨kind, derived⟩, later⟩ := List.forall_mem_cons.mp each
      rw [reachedFit_cons noRepeats]
      simp only [List.mem_cons, List.not_mem_nil, or_false] at kind
      rcases kind with kind | kind
      · rw [declareAll, kind, ← parseNodeDecl_total decl kind derived]
        have next : ∀ node, parseNodeDecl decl = .ok node →
            (Returns (if node.label ∈ nodes then
                .ok (.error (.parse ("duplicate node label: " ++ node.label.name)))
              else declareAll decls (nodes.insert node.label node) edges) ↔
              ReachedFit (done ++ [decl]) decls) := by
          intro node parsed
          have label := label_of_parseNodeDecl parsed
          split
          case isTrue duplicate =>
              rw [declared.nodes, label] at duplicate
              exact iff_of_true (returns_ok _)
                (reachedFit_of_repeated fun distinct =>
                  (noRepeats_node noRepeats kind).mp distinct duplicate)
          case isFalse new =>
              rw [declared.nodes, label] at new
              exact ih later ((noRepeats_node noRepeats kind).mpr new)
                (declared.node kind label)
        exact returns_bind_iff_of_reached next
      · rw [declareAll, kind, ← parseEdgeDecl_total decl kind derived]
        have next : ∀ edge, parseEdgeDecl decl = .ok edge →
            (Returns (if edge.edgeType ∈ edges then
                .ok (.error (.parse ("duplicate edge type: " ++ edge.edgeType.name)))
              else declareAll decls nodes (edges.insert edge.edgeType edge)) ↔
              ReachedFit (done ++ [decl]) decls) := by
          intro edge parsed
          have edgeType := edgeType_of_parseEdgeDecl parsed
          split
          case isTrue duplicate =>
              rw [declared.edges, edgeType] at duplicate
              exact iff_of_true (returns_ok _)
                (reachedFit_of_repeated fun distinct =>
                  (noRepeats_edge noRepeats kind).mp distinct duplicate)
          case isFalse new =>
              rw [declared.edges, edgeType] at new
              exact ih later ((noRepeats_edge noRepeats kind).mpr new)
                (declared.edge kind edgeType)
        exact returns_bind_iff_of_reached next

/-- A schema declaration starts with its version; the rest are declarations. -/
theorem schemaDecl_children {text : List Char} {children : List (Pair SchemaRule)}
    (derived : (Pair.node .schemaDecl text children).Derived schemaGrammar) :
    ∃ version decls, children = version :: decls ∧ version.asRule = .ident ∧
      version.Derived schemaGrammar ∧
      ∀ decl ∈ decls, decl.asRule ∈ [SchemaRule.nodeDecl, .edgeDecl] ∧
        decl.Derived schemaGrammar := by
  have leaves :
      Leaves schemaGrammar (.sequence [.token "schema", .rule .ident, .token "\x7b",
      .star (.rule .typeDecl), .token "\x7d"]) children := leaves_of_derived derived rfl
  rw [leaves_sequence_token, leaves_sequence_rule rfl] at leaves
  obtain ⟨version, decls, rfl, isVersion, versionDerived, leaves⟩ := leaves
  refine ⟨version, decls, rfl, isVersion, versionDerived, fun decl member => ?_⟩
  obtain ⟨listed, visible, derived⟩ := @Grammar.entered_of_leaves _ schemaGrammar
    [.typeDecl, .nodeDecl, .edgeDecl] (by decide) _ (by decide) _ leaves decl member
  refine ⟨?_, derived⟩
  simp only [List.mem_cons, List.not_mem_nil, or_false] at listed ⊢
  refine listed.resolve_left fun isType => ?_
  rw [isType] at visible
  cases visible

theorem parseSchemaDecl_returns {schemaDecl : Pair SchemaRule}
    (rule : schemaDecl.asRule = .schemaDecl)
    (derived : schemaDecl.Derived schemaGrammar) :
    Returns (parseSchemaDecl schemaDecl) ↔ ReachedFit [] schemaDecl.intoInner.tail := by
  obtain ⟨_, text, children⟩ := schemaDecl
  cases rule
  obtain ⟨version, decls, rfl, -, -, each⟩ := schemaDecl_children derived
  have start : Declared [] ∅ ∅ := ⟨by simp [declaredNames], by simp [declaredNames]⟩
  refine Iff.trans ?_ (declareAll_returns each ⟨List.nodup_nil, List.nodup_nil⟩ start)
  change Returns (declareAll decls ∅ ∅ >>= _) ↔ _
  refine returns_bind_of_forall fun declared => ?_
  cases declared <;> exact returns_ok _

/-- A schema file holds one schema declaration, up to the end of the input. -/
theorem schemaFile_children {text : List Char} {children : List (Pair SchemaRule)}
    (derived : (Pair.node .schemaFile text children).Derived schemaGrammar) :
    ∃ schemaDecl eoi, children = [schemaDecl, eoi] ∧ schemaDecl.asRule = .schemaDecl ∧
      schemaDecl.Derived schemaGrammar ∧ eoi.asRule = .endOfInput := by
  have leaves : Leaves schemaGrammar
      (.sequence [.startOfInput, .rule .schemaDecl, .rule .endOfInput]) children :=
    leaves_of_derived derived rfl
  rw [Grammar.leaves_sequence_cons] at leaves
  obtain ⟨_, _, rfl, nothing, leaves⟩ := leaves
  rw [Grammar.leaves_startOfInput] at nothing
  rw [nothing, List.nil_append] at *
  rw [Grammar.leaves_sequence_rule rfl] at leaves
  obtain ⟨schemaDecl, _, rfl, isDecl, declDerived, leaves⟩ := leaves
  rw [Grammar.leaves_sequence_singleton, Grammar.leaves_rule rfl] at leaves
  obtain ⟨eoi, rfl, isEnd, _⟩ := leaves
  exact ⟨schemaDecl, eoi, rfl, isDecl, declDerived, isEnd⟩

end SchemaParser

/-- No vector dimension in a declaration that the parser reaches is too large. -/
def DimensionsFit (source : String) : Prop :=
  ∀ pairs rest, schemaParse .schemaFile source.toList = some (pairs, rest) →
    ∀ schemaFile ∈ pairs, ∀ schemaDecl ∈ schemaFile.intoInner,
      schemaDecl.asRule = .schemaDecl →
      SchemaParser.ReachedFit [] schemaDecl.intoInner.tail

/-- The schema parser returns, a schema or an error, on exactly the texts whose
dimensions fit. -/
theorem schemaParse_returns_iff (report : String → String) (source : String) :
    Returns (PestSchemaParser.parse report source) ↔ DimensionsFit source := by
  unfold PestSchemaParser.parse DimensionsFit
  cases parsed : schemaParse .schemaFile source.toList with
  | none => simp
  | some outcome =>
      obtain ⟨pairs, rest⟩ := outcome
      obtain ⟨⟨_, text, children⟩, rfl, ⟨⟩, derived⟩ :=
        Grammar.derived_of_parse rfl parsed
      obtain ⟨schemaDecl, eoi, rfl, isDecl, declDerived, isEnd⟩ :=
        SchemaParser.schemaFile_children derived
      have found : [schemaDecl, eoi].find?
          (fun p => decide (p.asRule = .schemaDecl)) = some schemaDecl := by
        simp [isDecl]
      have walk : Returns (expect "schema_file always contains exactly one schema_decl"
          ([schemaDecl, eoi].find? fun p => decide (p.asRule = .schemaDecl)) >>=
            SchemaParser.parseSchemaDecl) ↔
          SchemaParser.ReachedFit [] schemaDecl.intoInner.tail := by
        rw [found]
        exact SchemaParser.parseSchemaDecl_returns isDecl declDerived
      refine Iff.trans walk ⟨?_, fun fit => ?_⟩
      · rintro fit _ _ ⟨⟩ schemaFile isFile other member isOther
        rw [List.mem_singleton] at isFile
        subst isFile
        simp only [Pair.intoInner, List.mem_cons, List.not_mem_nil, or_false] at member
        rcases member with rfl | rfl
        · exact fit
        · rw [isEnd] at isOther
          cases isOther
      · exact fit _ _ rfl _ List.mem_cons_self schemaDecl List.mem_cons_self isDecl

/-- Parsing client input, be it a query or a schema, returns on exactly the
texts whose numbers fit; on all others it panics.  There is no hypothesis: the
text is arbitrary, and what pest reports of a text that does not match is a
parameter.  A schema's parser stops at the first error, so only dimensions that
it comes to count. -/
theorem parsing_returns_iff (queryReport : String → Nat × String)
    (schemaReport : String → String) (source : String) :
    (Returns (PestParser.parse queryReport source) ↔ QueryNumbersFit source) ∧
      (Returns (PestSchemaParser.parse schemaReport source) ↔ DimensionsFit source) :=
  ⟨queryParse_returns_iff queryReport source, schemaParse_returns_iff schemaReport source⟩

/-- A computation that panics, by evaluation. -/
theorem not_returns_of_isOk {α : Type} {computation : Except PanicMessage α}
    (panics : computation.isOk = false) : ¬ Returns computation := by
  rintro ⟨a, rfl⟩
  cases panics

/-- A limit of 2^64 and a vector of 2^32 dimensions are grammatical, and both
panic. -/
theorem parsing_panics :
    ¬ Returns (PestParser.parse
      (fun _ => (0, "")) "MATCH (p:Person) RETURN p LIMIT 18446744073709551616") ∧
      ¬ Returns (PestSchemaParser.parse (fun _ => "")
        "schema s { node P { id: NodeId v: Vector<Float32, 4294967296> } }") :=
  ⟨not_returns_of_isOk (by decide +kernel), not_returns_of_isOk (by decide +kernel)⟩

end GraphEngine
