/-
Module: GraphEngine.Proofs.SchemaSyntax
Layer: Proofs
Purpose: The tokens of a declaration are parsed to the declaration: scalar
  types, properties with their markers, nodes and edges.
Trusted boundary: none
Main exports: schemaLayout, Walks, takes_scalarType, takes_propertyDecl,
  takes_nodeDecl, takes_edgeDecl
-/
import GraphEngine.Proofs.CommonSyntax
import GraphEngine.Spec.SchemaSyntax

namespace GraphEngine

open Grammar (Layout Takes Refuses Anything HeadIn Both Wraps headIn_cons)

/-! ### Gaps and single tokens -/

theorem schemaTrivia : BlankTrivia schemaGrammar .whitespace .comment where
  whitespaceBody := rfl
  commentBody := rfl
  triviaBody := rfl

/-- The layout of schema texts. -/
def schemaLayout : Layout schemaGrammar where
  gap := Gap
  opens := opensGap
  opens_of_gap := opensGap_of_gap
  skips gap solid :=
    schemaTrivia.skip_gap (gap.elim (fun none => none ▸ .none) And.right) solid

namespace SchemaParser

variable {ts : List Token}

theorem solid_of {t : Token} (solid : (t.head?.any fun c => !opensGap c) = true) :
    schemaLayout.Solid t :=
  Layout.solid_of solid

theorem takes_tok (spelling : String)
    (solid : ((tok spelling).head?.any fun c => !opensGap c) = true) :
    Takes schemaLayout (.sequence [.token spelling]) [tok spelling] Anything (· = []) :=
  .token (solid_of solid)

theorem refuses_tok {allowed : List Token} {spelling : String}
    (head : HeadIn allowed ts) (apart : apartFrom spelling allowed = true) :
    Refuses schemaLayout (.token spelling) ts :=
  .token_of_headIn head apart

theorem takes_ident {name : String} (ident : isIdent name = true) :
    Takes schemaLayout (.rule .ident) [tok name] Anything
      (· = [.node .ident (tok name) []]) := by
  obtain ⟨c, rest, characters, begins, continues⟩ := isIdent_cons ident
  rw [characters]
  have solid : opensGap c = false := not_opensGap_of_accepted (by decide) begins
  have ends (d : Char) (opens : opensGap d = true) : isIdentPart d = false :=
    refused_of_opensGap (by decide) opens
  exact .word rfl rfl begins continues solid ends

theorem takes_number {t : Token} (numeral : isNumeral t = true) :
    Takes schemaLayout (.rule .number) [t] Anything (· = [.node .number t []]) := by
  have digits := (isNumeral_iff.mp numeral).2
  obtain ⟨c, rest, rfl, digit⟩ := head_of_isNumeral numeral
  have solid : opensGap c = false := not_opensGap_of_accepted (by decide) digit
  exact .word rfl rfl digit
    (fun d member => digits d (List.mem_cons_of_mem c member)) solid
    fun d opens => refused_of_opensGap (by decide) opens

/-- The next token, if there is one, begins with another character. -/
def NotNext (c : Char) (ts : List Token) : Prop := ∀ t ∈ ts.head?, ∀ d ∈ t.head?, d ≠ c

theorem notNext_of_head {c : Char} {t : Token} (others : ∀ d ∈ t.head?, d ≠ c)
    (ts : List Token) : NotNext c (t :: ts) := by
  rintro _ ⟨⟩
  exact others

theorem notNext_ident {c : Char} {name : String} (ident : isIdent name = true)
    (other : isIdentStart c = false) (ts : List Token) :
    NotNext c (tok name :: ts) := by
  obtain ⟨d, rest, characters, begins, -⟩ := isIdent_cons ident
  apply notNext_of_head
  rw [characters]
  rintro _ ⟨⟩ rfl
  rw [other] at begins
  cases begins

/-- One pair of a rule, from which the walk over the tree reads a value. -/
def Walks {α : Type} (rule : SchemaRule)
    (walk : Pair SchemaRule → Except PanicMessage α) (a : α)
    (pairs : List (Pair SchemaRule)) : Prop :=
  ∃ text children, pairs = [.node rule text children] ∧
    walk (.node rule text children) = .ok a

/-! ### Scalar types -/

/-- The names of the simple types, in the grammar's order. -/
def simpleNames : List String :=
  ["Int64", "Float64", "Bool", "String", "Timestamp", "Bytes"]

theorem takes_simpleType {spelling : String} {ty : ScalarType}
    (found : simpleNames.find?
      (fun option => option.toList.isPrefixOf spelling.toList) = some spelling)
    (solid : ((tok spelling).head?.any fun c => !opensGap c) = true)
    (notList : apartFrom "List" [tok spelling] = true)
    (notVector : apartFrom "Vector" [tok spelling] = true)
    (walk : parseSimpleType (.node .simpleType (tok spelling) []) = .ok ty) :
    Takes schemaLayout (.rule .scalarType) [tok spelling] Anything
      (Walks .scalarType parseScalarType ty) := by
  have first (rest : List Token) : HeadIn [tok spelling] (tok spelling :: rest) :=
    headIn_cons (List.mem_singleton_self _) rest
  have simple : Takes schemaLayout (.rule .simpleType) [tok spelling] Anything
      (· = [.node .simpleType (tok spelling) []]) :=
        .spelling rfl rfl found (by decide) solid
  have alternatives : Takes schemaLayout SchemaRule.scalarType.body
      [tok spelling] Anything
      (· = [.node .simpleType (tok spelling) []]) :=
    .choice_second (fun rest _ => .rule rfl (.seq (refuses_tok (first rest) notList)))
      (.choice_second
        (fun rest _ => .rule rfl (.seq (refuses_tok (first rest) notVector))) simple)
  apply (Takes.rule rfl rfl alternatives).imp
  rintro pairs ⟨text, children, rfl, rfl⟩
  exact ⟨text, _, rfl, walk⟩

theorem takes_vectorType {dim : Nat} {number : Token} (fits : dim < 2 ^ 32)
    (token : NumberToken dim number) :
    Takes schemaLayout (.rule .scalarType)
      [tok "Vector", tok "<", tok "Float32", tok ",", number, tok ">"] Anything
      (Walks .scalarType parseScalarType (.vector dim)) := by
  have dimension := (takes_number token.1).cons (takes_tok ">" rfl) fun _ _ => trivial
  have body : Takes schemaLayout SchemaRule.vectorType.body
      [tok "Vector", tok "<", tok "Float32", tok ",", number, tok ">"] Anything _ :=
    .token_cons (solid_of rfl) (.token_cons (solid_of rfl) (.token_cons (solid_of rfl)
      (.token_cons (solid_of rfl) dimension)))
  have notList (rest : List Token) : Refuses schemaLayout (.rule .listType)
      ([tok "Vector", tok "<", tok "Float32", tok ",", number, tok ">"] ++ rest) :=
    .rule rfl (.seq (refuses_tok (headIn_cons (List.mem_singleton_self _) _) (by decide)))
  have alternatives : Takes schemaLayout SchemaRule.scalarType.body _ Anything _ :=
    .choice_second (fun rest _ => notList rest) (.choice_first (.rule rfl rfl body))
  apply (Takes.rule rfl rfl alternatives).imp
  rintro pairs ⟨text, _, rfl, text', _, rfl, _, _, rfl, rfl, rfl⟩
  refine ⟨text, _, rfl, ?_⟩
  have walk : parseScalarType
      (.node .scalarType text [.node .vectorType text' [.node .number number []]]) =
      (expect "the `number` rule only matches ASCII digits"
        (parseUnsigned 32 number)).bind fun dim =>
        .ok (.vector dim) := rfl
  rw [List.append_nil, walk, parseUnsigned_token token fits]
  rfl

/-- Types, by induction on the type. -/
theorem takes_scalarType {ty : ScalarType} (writable : ty.Writable)
    (tokens : ScalarTokens ty ts) :
    Takes schemaLayout (.rule .scalarType) ts Anything
      (Walks .scalarType parseScalarType ty) := by
  induction ty generalizing ts with
  | int64 | float64 | bool | string | timestamp | bytes =>
      cases tokens
      exact takes_simpleType (by decide) rfl (by decide) (by decide) rfl
  | vector dim =>
      obtain ⟨number, token, rfl⟩ := tokens
      exact takes_vectorType writable token
  | list element inductionHypothesis =>
      obtain ⟨inner, innerTokens, rfl⟩ := tokens
      have element' := (inductionHypothesis writable innerTokens).cons
        (takes_tok ">" rfl) fun _ _ => trivial
      have body : Takes schemaLayout SchemaRule.listType.body
          (tok "List" :: tok "<" :: (inner ++ [tok ">"])) Anything _ :=
        .token_cons (solid_of rfl) (.token_cons (solid_of rfl) element')
      have alternatives : Takes schemaLayout SchemaRule.scalarType.body _ Anything _ :=
        .choice_first (.rule rfl rfl body)
      apply (Takes.rule rfl rfl alternatives).imp
      rintro pairs
        ⟨text, _, rfl, text', _, rfl, _, _, rfl, ⟨text'', children, rfl, walks⟩, rfl⟩
      refine ⟨text, _, rfl, ?_⟩
      have walk : parseScalarType (.node .scalarType text
          [.node .listType text' ([.node .scalarType text'' children] ++ [])]) =
            (parseScalarType (.node .scalarType text'' children)).map .list := rfl
      rw [walk, walks]
      rfl

/-! ### Properties -/

/-- The pair of a marker, if it is set. -/
def markPairs (rule : SchemaRule) (spelling : String) (marked : Bool) :
    List (Pair SchemaRule) :=
  if marked then [.node rule (tok spelling) []] else []

theorem takes_mark {rule : SchemaRule} {spelling : String} {c : Char}
    {more : List Char} (visible : rule.silent = false) (plain : rule.atomic = false)
    (body : rule.body = .token spelling) (characters : spelling.toList = c :: more)
    (solid : ((tok spelling).head?.any fun c => !opensGap c) = true)
    (closed : ((tok spelling).all fun c => !opensGap c) = true) (marked : Bool) :
    Takes schemaLayout (.optional (.rule rule)) (markTokens spelling marked) (NotNext c)
      (· = markPairs rule spelling marked) := by
  cases marked with
  | false =>
      apply Takes.absent
      intro rest next
      have refused : Refuses schemaLayout (.token spelling) rest := by
        rw [Peg.token, characters]
        exact .literal_of_head next
      rw [← body] at refused
      exact .rule plain refused
  | true =>
      have found : [spelling].find? (fun option =>
          option.toList.isPrefixOf spelling.toList) = some spelling := by
        simp
      have closed' : ([spelling].all fun option => option.toList.all fun c =>
          !opensGap c) = true := by
        rw [List.all_cons, List.all_nil, Bool.and_true]
        exact closed
      exact ((Takes.spelling visible body found closed' solid).before fun _ _ =>
        trivial).present

theorem notNext_mark {c d : Char} {spelling : String} {more : List Char}
    {ts : List Token} (characters : spelling.toList = d :: more) (other : d ≠ c)
    (marked : Bool) (next : NotNext c ts) :
    NotNext c (markTokens spelling marked ++ ts) := by
  cases marked with
  | false => exact next
  | true =>
      apply notNext_of_head
      rw [tok, characters]
      rintro _ ⟨⟩
      exact other

theorem asStr_tok (rule : SchemaRule) (name : String) :
    (Pair.node rule (tok name) []).asStr = name := by
  rw [Pair.asStr, Pair.text, tok, String.ofList_toList]

/-- A property: what has been found of it is added part by part. -/
theorem takes_propertyDecl {property : PropertyDef} (writable : property.Writable)
    (tokens : PropertyTokens property ts) :
    Takes schemaLayout (.rule .propertyDecl) ts (NotNext '?')
      (Walks .propertyDecl parsePropertyDecl property) := by
  obtain ⟨scalar, scalarTokens, rfl⟩ := tokens
  have optionals : Takes schemaLayout (.optional (.rule .optionalMarker))
      (markTokens "?" property.optional)
      (NotNext '?') (· = markPairs .optionalMarker "?" property.optional) :=
    takes_mark rfl rfl rfl rfl rfl (by decide) property.optional
  have typed : Takes schemaLayout
      (.sequence [.rule .scalarType, .optional (.rule .optionalMarker)])
      (scalar ++ markTokens "?" property.optional) (NotNext '?') _ :=
    (takes_scalarType writable.2 scalarTokens).append optionals fun _ _ => trivial
  have named : Takes schemaLayout
      (.sequence [.rule .ident, .token ":", .rule .scalarType,
          .optional (.rule .optionalMarker)])
      ([tok property.name] ++ tok ":" :: (scalar ++ markTokens "?" property.optional))
      (NotNext '?') _ :=
    (takes_ident writable.1).cons (typed.token_cons (solid_of rfl)) fun _ _ => trivial
  have marked : Takes schemaLayout (.optional (.rule .indexedMarker))
      (markTokens "@indexed" property.indexed)
      (NotNext '@') (· = markPairs .indexedMarker "@indexed" property.indexed) :=
    takes_mark rfl rfl rfl rfl rfl (by decide) property.indexed
  have body : Takes schemaLayout SchemaRule.propertyDecl.body _ _ _ :=
    marked.cons named fun _ _ => notNext_ident writable.1 rfl _
  apply (Takes.rule rfl rfl body).imp
  rintro pairs ⟨text, _, rfl, _, _, rfl, rfl, _, _, rfl, rfl, _, _, rfl,
    ⟨text', children, rfl, walks⟩, rfl⟩
  refine ⟨text, _, rfl, ?_⟩
  obtain ⟨name, ty, optional, indexed⟩ := property
  cases indexed <;> cases optional <;>
    simp [parsePropertyDecl, markPairs, Pair.intoInner, walks, addPropertyPart,
      Pair.asRule, asStr_tok, expect, bind, Except.bind, Except.map, pure,
      Except.pure]

theorem refuses_propertyDecl (head : HeadIn [tok "\x7d"] ts) :
    Refuses schemaLayout (.rule .propertyDecl) ts := by
  have first : ∀ t ∈ ts.head?, ∀ c ∈ t.head?, c ≠ '@' ∧ isIdentStart c = false := by
    intro t next c begins
    cases List.mem_singleton.mp (head t next)
    cases begins
    exact ⟨by decide, rfl⟩
  have unmarked : Takes schemaLayout (.optional (.rule .indexedMarker)) [] (NotNext '@')
      (· = markPairs .indexedMarker "@indexed" false) :=
        takes_mark rfl rfl rfl rfl rfl (by decide) false
  have unnamed : Refuses schemaLayout (.rule .ident) ts :=
    .word rfl fun t next c begins => (first t next c begins).2
  have refused : Refuses schemaLayout SchemaRule.propertyDecl.body ts :=
    .append unmarked (fun t next c begins => (first t next c begins).1) unnamed.seq
  exact .rule rfl refused

section Properties

variable {properties : List PropertyDef} {parts : List (List Token)}

theorem notNext_property {property : PropertyDef} (writable : property.Writable)
    (tokens : PropertyTokens property ts) (rest : List Token) :
    NotNext '?' (ts ++ rest) := by
  obtain ⟨scalar, -, rfl⟩ := tokens
  rw [List.append_assoc]
  exact notNext_mark rfl (by decide) property.indexed (notNext_ident writable.1 rfl _)

theorem takes_properties (writable : ∀ property ∈ properties, property.Writable)
    (each : List.Forall₂ PropertyTokens properties parts) :
    Takes schemaLayout (.star (.rule .propertyDecl)) parts.flatten (HeadIn [tok "\x7d"])
      fun pairs => ∃ rounds, pairs = rounds.flatten ∧
        List.Forall₂ (Walks .propertyDecl parsePropertyDecl) properties rounds := by
  have takes : List.Forall₂ (fun property part =>
      Takes schemaLayout (.rule .propertyDecl) part (NotNext '?')
      (Walks .propertyDecl parsePropertyDecl property)) properties parts :=
    ((List.forall₂_and_left _ _).mpr ⟨writable, each⟩).imp fun _ _ both =>
      takes_propertyDecl both.1 both.2
  apply Takes.star takes
  · intro part member more
    obtain ⟨property, inProperties, tokens⟩ := (forall₂_partner each).1 part member
    exact notNext_property (writable property inProperties) tokens more
  · intro rest head
    refine ⟨fun t next => ?_, refuses_propertyDecl head⟩
    cases List.mem_singleton.mp (head t next)
    rintro _ ⟨⟩
    decide

/-- A walk that adds each property to what it has found. -/
theorem foldlM_properties {σ : Type}
    {step : σ → Pair SchemaRule → Except PanicMessage σ} {add : σ → PropertyDef → σ}
    (adds : ∀ found text children, step found (.node .propertyDecl text children) =
      (parsePropertyDecl (.node .propertyDecl text children)).map (add found))
    {rounds : List (List (Pair SchemaRule))}
    (each : List.Forall₂ (Walks .propertyDecl parsePropertyDecl) properties rounds)
    (found : σ) :
    rounds.flatten.foldlM step found = .ok (properties.foldl add found) := by
  induction each generalizing found with
  | nil => rfl
  | cons first _ inductionHypothesis =>
      obtain ⟨text, children, rfl, walks⟩ := first
      rw [List.flatten_cons, List.singleton_append, List.foldlM_cons, adds, walks]
      exact inductionHypothesis _

end Properties

/-! ### Nodes and edges -/

theorem foldl_push {σ : Type} (found items : List σ) :
    items.foldl (fun found item => found ++ [item]) found = found ++ items := by
  induction items generalizing found with
  | nil => rw [List.foldl_nil, List.append_nil]
  | cons item items inductionHypothesis =>
      rw [List.foldl_cons, inductionHypothesis, List.append_assoc, List.singleton_append]

theorem takes_nodeDecl {node : NodeDef} (writable : node.Writable)
    (tokens : NodeDeclTokens node ts) :
    Takes schemaLayout (.rule .nodeDecl) ts Anything
      (Walks .nodeDecl parseNodeDecl node) := by
  obtain ⟨parts, each, rfl⟩ := tokens
  have fields :=
    (takes_properties writable.properties each).cons (takes_tok "\x7d" rfl) fun _ _ =>
    headIn_cons (List.mem_singleton_self _) _
  have idField :
      Takes schemaLayout (.rule .idField) [tok "id", tok ":", tok "NodeId"] Anything
      (Wraps .idField (· = [])) :=
    .rule rfl rfl (.token_cons (solid_of rfl)
      (.token_cons (solid_of rfl) (takes_tok "NodeId" rfl)))
  have inside :=
    (idField.cons fields fun _ _ => trivial).token_cons (t := "\x7b") (solid_of rfl)
  have body : Takes schemaLayout SchemaRule.nodeDecl.body _ _ _ :=
    ((takes_ident writable.label).cons inside fun _ _ => trivial).token_cons
      (t := "node") (solid_of rfl)
  apply (Takes.rule rfl rfl body).imp
  rintro pairs ⟨text, _, rfl, _, _, rfl, rfl, _, _, rfl, ⟨text', children, rfl, rfl⟩,
    _, _, rfl, ⟨rounds, rfl, walked⟩,
    rfl⟩
  refine ⟨text, _, rfl, ?_⟩
  have walk : parseNodeDecl (.node .nodeDecl text
      ([.node .ident (tok node.label.name) []] ++
        ([.node .idField text' []] ++ (rounds.flatten ++ [])))) =
        ((rounds.flatten ++ []).foldlM addNodeField []).bind fun properties =>
          .ok
            { label :=
                { name := (Pair.node SchemaRule.ident (tok node.label.name) []).asStr }
              properties := properties } := rfl
  rw [walk, asStr_tok, List.append_nil, foldlM_properties (fun _ _ _ => rfl) walked,
    foldl_push]
  rfl

theorem takes_field {rule : SchemaRule} {spelling : String} {label : Label}
    (visible : rule.silent = false) (plain : rule.atomic = false)
    (body : rule.body = .sequence [.token spelling, .token ":", .rule .ident])
    (solid : ((tok spelling).head?.any fun c => !opensGap c) = true)
    (ident : isIdent label.name = true) :
    Takes schemaLayout (.rule rule) [tok spelling, tok ":", tok label.name] Anything
      (Walks rule fieldLabel label) := by
  have parts :
      Takes schemaLayout rule.body [tok spelling, tok ":", tok label.name] Anything
      (· = [.node .ident (tok label.name) []]) := by
    rw [body]
    exact .token_cons (solid_of solid) (.token_cons (solid_of rfl) (takes_ident ident))
  apply (Takes.rule visible plain parts).imp
  rintro pairs ⟨text, _, rfl, rfl⟩
  refine ⟨text, _, rfl, ?_⟩
  have walk : fieldLabel (.node rule text [.node .ident (tok label.name) []]) =
      .ok { name := (Pair.node SchemaRule.ident (tok label.name) []).asStr } := rfl
  rw [walk, asStr_tok]

/-- The walk over the two labels of an edge. -/
theorem foldlM_ends {source target : Label} {text text' : List Char}
    {children children' : List (Pair SchemaRule)}
    (from' : fieldLabel (.node .fromField text children) = .ok source)
    (to' : fieldLabel (.node .toField text' children') = .ok target) :
    [Pair.node SchemaRule.fromField text children,
      .node .toField text' children'].foldlM addEdgeField
      { source := none, target := none, properties := [] } =
        .ok { source := some source, target := some target, properties := [] } := by
  have first (parts : EdgeParts) : addEdgeField parts (.node .fromField text children) =
      (fieldLabel (.node .fromField text children)).map fun label =>
        { parts with source := some label } := rfl
  have second (parts : EdgeParts) : addEdgeField parts (.node .toField text' children') =
      (fieldLabel (.node .toField text' children')).map fun label =>
        { parts with target := some label } := rfl
  rw [List.foldlM_cons, first, from']
  simp only [Except.map, bind, Except.bind]
  rw [List.foldlM_cons, second, to']
  rfl

/-- The walk over the properties of an edge. -/
theorem foldlM_edgeProperties {properties : List PropertyDef}
    {rounds : List (List (Pair SchemaRule))}
    (each : List.Forall₂ (Walks .propertyDecl parsePropertyDecl) properties rounds)
    {source target : Option Label} :
    rounds.flatten.foldlM addEdgeField
      { source := source, target := target, properties := [] } =
      .ok { source := source, target := target, properties := properties } := by
  have adds (parts : EdgeParts) (text : List Char) (children : List (Pair SchemaRule)) :
      addEdgeField parts (.node .propertyDecl text children) =
        (parsePropertyDecl (.node .propertyDecl text children)).map fun property =>
          { parts with properties := parts.properties ++ [property] } := rfl
  have pushed (found : List PropertyDef) : properties.foldl
      (fun (parts : EdgeParts) property =>
        { parts with properties := parts.properties ++ [property] })
      { source := source, target := target, properties := found } =
        { source := source, target := target, properties := found ++ properties } := by
    rw [← foldl_push]
    clear each
    induction properties generalizing found with
    | nil => rfl
    | cons property properties inductionHypothesis => exact inductionHypothesis _
  rw [foldlM_properties adds each, pushed]
  rfl

theorem takes_edgeDecl {edge : EdgeDef} (writable : edge.Writable)
    (tokens : EdgeDeclTokens edge ts) :
    Takes schemaLayout (.rule .edgeDecl) ts Anything
      (Walks .edgeDecl parseEdgeDecl edge) := by
  obtain ⟨parts, each, rfl⟩ := tokens
  have fields :=
    (takes_properties writable.properties each).cons (takes_tok "\x7d" rfl) fun _ _ =>
    headIn_cons (List.mem_singleton_self _) _
  have target : Takes schemaLayout (.rule .toField)
      [tok "to", tok ":", tok edge.target.name] Anything
      (Walks .toField fieldLabel edge.target) :=
        takes_field rfl rfl rfl rfl writable.target
  have source : Takes schemaLayout (.rule .fromField)
      [tok "from", tok ":", tok edge.source.name] Anything
      (Walks .fromField fieldLabel edge.source) :=
        takes_field rfl rfl rfl rfl writable.source
  have inside := (source.cons (target.cons fields fun _ _ => trivial) fun _ _ =>
    trivial).token_cons (t := "\x7b")
    (solid_of rfl)
  have body : Takes schemaLayout SchemaRule.edgeDecl.body _ _ _ :=
    ((takes_ident writable.edgeType).cons inside fun _ _ => trivial).token_cons
      (t := "edge") (solid_of rfl)
  apply (Takes.rule rfl rfl body).imp
  rintro pairs ⟨text, _, rfl, _, _, rfl, rfl, _, _, rfl,
    ⟨text', children, rfl, from'⟩, _, _, rfl,
    ⟨text'', children', rfl, to'⟩, _, _, rfl, ⟨rounds, rfl, walked⟩, rfl⟩
  refine ⟨text, _, rfl, ?_⟩
  have walk : parseEdgeDecl
      (.node .edgeDecl text ([.node .ident (tok edge.edgeType.name) []] ++
      ([.node .fromField text' children] ++
        ([.node .toField text'' children'] ++ (rounds.flatten ++ []))))) =
        (([Pair.node SchemaRule.fromField text' children,
              .node .toField text'' children'] ++ (rounds.flatten ++ [])).foldlM
          addEdgeField { source := none, target := none, properties := [] }).bind
            fun parts =>
            (expect "grammar requires a from_field" parts.source).bind fun source =>
              (expect "grammar requires a to_field" parts.target).bind fun target =>
                .ok
                  { edgeType :=
                      { name :=
                          (Pair.node SchemaRule.ident (tok edge.edgeType.name) []).asStr }
                    source := source, target := target
                    properties := parts.properties } := rfl
  rw [walk, asStr_tok, List.append_nil, List.foldlM_append, foldlM_ends from' to']
  simp only [bind, Except.bind]
  rw [foldlM_edgeProperties walked]
  rfl

end SchemaParser

end GraphEngine
