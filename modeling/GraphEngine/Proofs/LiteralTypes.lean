/-
Module: GraphEngine.Proofs.LiteralTypes
Layer: Proofs
Purpose: What validation says of the literals of a query.  It finds the property
  of every filter that it looks at and weighs the operator, but neither the
  literal nor the inline filters of a node without a label, nor does it see that
  a hop can lead to a row of another label.
Trusted boundary: none
Main exports: Orders, ScalarType.ordersWith, FilterIn, LiteralsSettled,
  OtherRowsFit, literalsSettled_iff
-/
import GraphEngine.Model.DslParser
import GraphEngine.Proofs.Comparisons
import GraphEngine.Proofs.Planning
import GraphEngine.Proofs.Served
import GraphEngine.Spec.Conformance

namespace GraphEngine

/-! ### Values and literals -/

section Values

variable [Chrono]

/-- `literal_matches` orders the value against the literal.  Two floats count as
ordered even if one is a NaN. -/
def Orders (value : PropertyValue) (literal : Literal) : Prop :=
  (literalOrdering value literal).isSome = true ∨ ∃ v l, value = .float64 v ∧
    literal = .float64 l

/-- The kinds of literal that a type goes with. -/
def ScalarType.ordersWith (ty : ScalarType) (literal : Literal) : Bool :=
  match ty, literal with
  | .int64, .int64 _ | .float64, .float64 _ | .bool, .bool _ | .string, .string _ => true
  | .timestamp, .string text => (Chrono.parseRfc3339Micros text).isSome
  | _, _ => false

/-- Whether a value is ordered against a literal depends on its type only. -/
theorem orders_iff {value : PropertyValue} {ty : ScalarType}
    (typed : HasType value ty) (literal : Literal) :
    Orders value literal ↔ ty.ordersWith literal = true := by
  cases typed <;> cases literal <;> simp [Orders, literalOrdering, ScalarType.ordersWith]

/-- A type goes with a literal when all of its values are ordered against it. -/
theorem ordersWith_iff {ty : ScalarType} {literal : Literal} :
    ty.ordersWith literal = true ↔ ∀ value, HasType value ty → Orders value literal := by
  constructor
  · intro goes value typed
    exact (orders_iff typed literal).mpr goes
  · intro each
    obtain ⟨value, typed⟩ := exists_hasType ty
    exact (orders_iff typed literal).mp (each value typed)

/-- Literals that compare equal are ordered against the same values. -/
theorem orders_congr {literal literal' : Literal}
    (equal : literal.beq literal' = true) (value : PropertyValue) :
    Orders value literal ↔ Orders value literal' := by
  have floats : (∃ l, literal = .float64 l) ↔ ∃ l, literal' = .float64 l := by
    cases literal <;> cases literal' <;> simp [Literal.beq] at equal ⊢
  simp only [Orders, literalOrdering_congr equal]
  refine or_congr_right (exists_congr fun v => ?_)
  simp only [exists_and_left, floats]

/-- A value other than null meets a literal that it is not ordered against: the
mismatch arm of `literal_matches`. -/
def Comparison.Mismatched (made : Comparison) : Prop :=
  made.value ≠ .null ∧ ¬ Orders made.value made.filter.value

/-- Comparisons alike mismatch alike. -/
theorem mismatched_congr {made made' : Comparison}
    (alike : made = made' ∨ made.Alike made') :
    made.Mismatched ↔ made'.Mismatched := by
  rcases alike with rfl | ⟨equal, same⟩
  · rfl
  · simp only [PropertyFilter.beq, Bool.and_eq_true] at equal
    rw [Comparison.Mismatched, Comparison.Mismatched, same, orders_congr equal.2]

end Values

/-! ### The filters of a query -/

/-- The properties declared for the nodes that a pattern matches. -/
def NodePattern.declared (schema : Schema) (node : NodePattern) : List PropertyDef :=
  match node.label with
  | some label => schema.nodeProperties label
  | none => []

/-- The properties declared for what an alias is bound to: node labels come
before edge types. -/
def Scope.declared (scope : Scope) (schema : Schema) (aliasName : String) :
    List PropertyDef :=
  match scope.nodeLabels[aliasName]? with
  | some label => schema.nodeProperties label
  | none =>
      match scope.edgeTypes[aliasName]? with
      | some edgeType => schema.edgeProperties edgeType
      | none => []

/-- The property filters of a query, inline and in conditions, each with the
declarations that it is about. -/
inductive FilterIn (schema : Schema) (query : Query) :
    List PropertyDef → PropertyFilter → Prop where
  | inline {node : NodePattern} {filter : PropertyFilter}
      (inPattern : .node node ∈ query.pattern.steps)
      (member : filter ∈ node.propertyFilters) :
        FilterIn schema query (node.declared schema) filter
  | condition {aliasName : String} {filter : PropertyFilter}
      (member : .property aliasName filter ∈ query.whereConditions) :
      FilterIn schema query
        ((SchemaValidator.scopeOf query.pattern).declared schema aliasName) filter
  | existsInline {subquery : ExistsSubquery} {node : NodePattern}
      {filter : PropertyFilter}
      (listed : .notExists subquery ∈ query.whereConditions)
      (inPattern : .node node ∈ subquery.pattern.steps)
      (member : filter ∈ node.propertyFilters) :
        FilterIn schema query (node.declared schema) filter
  | existsCondition {subquery : ExistsSubquery} {edge : EdgePattern}
      {aliasName : String} {filter : PropertyFilter}
      (listed : .notExists subquery ∈ query.whereConditions)
      (inPattern : .edge edge ∈ subquery.pattern.steps)
      (member : .property aliasName filter ∈ subquery.whereConditions) :
      FilterIn schema query
        ((SchemaValidator.Scope.bindEdge
            (SchemaValidator.scopeOf query.pattern) edge).declared schema aliasName)
        filter

/-! ### What validation checks of a filter -/

namespace SchemaValidator

variable {schema : Schema} {query : Query} {op : ComparisonOp} {property : String}

theorem declared_of_validateDeclaredProperty {owner : String}
    {properties : List PropertyDef}
    (checked : validateDeclaredProperty owner properties property op = []) :
    Declared properties property := by
  rw [validateDeclaredProperty] at checked
  split at checked
  case h_1 prop found =>
    exact ⟨prop, List.mem_of_find?_eq_some found,
      of_decide_eq_true (List.find?_some found :)⟩
  case h_2 => cases checked

/-- A filter of a node that is accepted is of a property its label declares. -/
theorem declared_of_validateNodePropertyFilter {label : Label}
    (known : (schema.nodeDef label).isSome)
    (checked : validateNodePropertyFilter label property op schema = []) :
    Declared (schema.nodeProperties label) property := by
  obtain ⟨nodeDef, declared⟩ := Option.isSome_iff_exists.mp known
  rw [validateNodePropertyFilter, declared] at checked
  rw [Schema.nodeProperties, declared]
  exact declared_of_validateDeclaredProperty checked

/-- A property of an edge that is accepted is one its type declares. -/
theorem declared_of_validateEdgeProperty {edgeType : EdgeType}
    (known : (schema.edgeDef edgeType).isSome)
    (checked : validateEdgeProperty edgeType property op schema = []) :
    Declared (schema.edgeProperties edgeType) property := by
  obtain ⟨edgeDef, declared⟩ := Option.isSome_iff_exists.mp known
  rw [validateEdgeProperty, declared] at checked
  rw [Schema.edgeProperties, declared]
  exact declared_of_validateDeclaredProperty checked

/-- The labels and edge types of a scope are declared. -/
structure ScopeKnown (schema : Schema) (scope : Scope) : Prop where
  node : ∀ {x : String} {label : Label}, scope.nodeLabels[x]? = some label →
    (schema.nodeDef label).isSome
  edge : ∀ {x : String} {edgeType : EdgeType}, scope.edgeTypes[x]? = some edgeType →
    (schema.edgeDef edgeType).isSome

/-- A reference that is accepted is to a property that is declared for its
alias. -/
theorem declared_of_validatePropertyRef {scope : Scope}
    (known : ScopeKnown schema scope) {aliasName : String}
    (checked : validatePropertyRef scope schema aliasName property op = []) :
    Declared (scope.declared schema aliasName) property := by
  rw [validatePropertyRef] at checked
  rw [Scope.declared]
  cases labelled : scope.nodeLabels[aliasName]? with
  | some label =>
      rw [labelled] at checked
      exact declared_of_validateNodePropertyFilter (known.node labelled) checked
  | none =>
      rw [labelled] at checked
      cases typed : scope.edgeTypes[aliasName]? with
      | some edgeType =>
          rw [typed] at checked
          exact declared_of_validateEdgeProperty (known.edge typed) checked
      | none =>
          rw [typed] at checked
          cases checked

/-- A labelled node of a validated query has a declared label. -/
theorem nodeDef_of_valid (valid : violations query schema = []) {node : NodePattern}
    (member : .node node ∈ query.pattern.steps) {label : Label}
    (labelled : node.label = some label) : (schema.nodeDef label).isSome := by
  have checked := step_valid valid member
  rw [validateStep, validateNodePattern, labelled] at checked
  dsimp only at checked
  split at checked
  case h_1 nodeDef declared => exact Option.isSome_of_eq_some declared
  case h_2 => cases checked

/-- An edge that is accepted has a declared type. -/
theorem edgeDef_of_validateEdgePattern {edge : EdgePattern}
    (checked : validateEdgePattern edge schema = []) {edgeType : EdgeType}
    (typed : edge.edgeType = some edgeType) : (schema.edgeDef edgeType).isSome := by
  rw [validateEdgePattern, typed, List.append_eq_nil_iff] at checked
  by_contra unknown
  have reported := checked.1
  rw [Bool.not_eq_true, Option.isSome_eq_false_iff] at unknown
  dsimp only at reported
  rw [if_pos unknown] at reported
  cases reported

/-- The scope that the pattern of a validated query leaves behind. -/
theorem scopeKnown_of_valid (valid : violations query schema = []) :
    ScopeKnown schema (scopeOf query.pattern) where
  node := by
    intro x label labelled
    obtain ⟨node, member, -, ofLabel⟩ := node_of_scopeOf labelled
    exact nodeDef_of_valid valid member ofLabel
  edge := by
    intro x edgeType typed
    obtain ⟨edge, member, -, ofType⟩ := edge_of_scopeOf typed
    exact edgeDef_of_validateEdgePattern (step_valid valid member) ofType

/-- The edge of a `NOT EXISTS` comes in addition. -/
theorem ScopeKnown.bindEdge {scope : Scope} (known : ScopeKnown schema scope)
    {edge : EdgePattern} (checked : validateEdgePattern edge schema = []) :
    ScopeKnown schema (Scope.bindEdge scope edge) where
  node := by
    intro x label labelled
    rw [bindEdge_nodeLabels] at labelled
    exact known.node labelled
  edge := by
    intro x edgeType typed
    rcases bindEdge_edgeTypes typed with ⟨-, ofType⟩ | earlier
    · exact edgeDef_of_validateEdgePattern checked ofType
    · exact known.edge earlier

end SchemaValidator

/-! ### Literals of validated queries -/

section Literals

variable {schema : Schema} {query : Query}

/-- A node with inline filters has a label. -/
def InlineLabelled (query : Query) : Prop :=
  ∀ node, .node node ∈ query.pattern.steps → node.propertyFilters ≠ [] → node.label.isSome

open SchemaValidator in
/-- The filters of a validated query are about declared properties, but for
inline filters without a label. -/
theorem declared_of_filterIn (valid : violations query schema = [])
    (labelled : InlineLabelled query) {declared : List PropertyDef}
    {filter : PropertyFilter} (isFilter : FilterIn schema query declared filter) :
    Declared declared filter.property := by
  cases isFilter with
  | @inline node _ inPattern member =>
      obtain ⟨label, ofLabel⟩ := Option.isSome_iff_exists.mp
        (labelled node inPattern (List.ne_nil_of_mem member))
      have known := nodeDef_of_valid valid inPattern ofLabel
      have checked := step_valid valid inPattern
      obtain ⟨nodeDef, found⟩ := Option.isSome_iff_exists.mp known
      rw [validateStep, validateNodePattern, ofLabel] at checked
      dsimp only at checked
      rw [found, List.flatMap_eq_nil_iff] at checked
      rw [NodePattern.declared, ofLabel]
      exact declared_of_validateNodePropertyFilter known (checked filter member)
  | condition member =>
      exact declared_of_validatePropertyRef (scopeKnown_of_valid valid)
        (whereCondition_valid valid member)
  | existsInline listed inPattern member =>
      obtain ⟨fromNode, edge, toNode, validExists⟩ :=
        notExists_valid (whereCondition_valid valid listed)
      rw [validExists.steps] at inPattern
      simp only [List.mem_cons, PatternStep.node.injEq, reduceCtorEq,
        List.not_mem_nil, or_false, false_or]
        at inPattern
      rcases inPattern with rfl | rfl
      · rw [validExists.fromBare] at member
        cases member
      · rw [validExists.toBare] at member
        cases member
  | existsCondition listed inPattern member =>
      obtain ⟨fromNode, edge, toNode, validExists⟩ :=
        notExists_valid (whereCondition_valid valid listed)
      rw [validExists.steps] at inPattern
      simp only [List.mem_cons, PatternStep.edge.injEq, reduceCtorEq,
        List.not_mem_nil, or_false, false_or]
        at inPattern
      subst inPattern
      exact declared_of_validatePropertyRef
        ((scopeKnown_of_valid valid).bindEdge validExists.hop)
        (validExists.conditions _ member)

variable [Chrono]

/-- The literal of every filter is of a kind that goes with the type of the
property. -/
def LiteralsFit (schema : Schema) (query : Query) : Prop :=
  ∀ declared filter, FilterIn schema query declared filter →
    ∀ prop ∈ declared, prop.name = filter.property →
    prop.ty.ordersWith filter.value = true

section Cluster

variable (hasher : Partitioning) (partitions : PartitionMap)
variable (serve : GenerationHandle → IndexGeneration)
variable (schema : Schema) (query : Query) (start : PlanStep) (steps : List PlanStep)

/-- Every filter compares a declared property with a literal that all values of
its type are ordered against, and no run of the plan makes `literal_matches`
meet a mismatch.  The last part is about the comparisons that the executor
makes, of nodes in `filter_frontier` and of edges in `check_anti_join`, whatever
label or type their records have. -/
structure LiteralsSettled : Prop where
  declared : ∀ declared filter, FilterIn schema query declared filter →
    Declared declared filter.property
  ordered : ∀ declared filter, FilterIn schema query declared filter → ∀ prop ∈ declared,
    prop.name = filter.property → ∀ value, HasType value prop.ty →
      Orders value filter.value
  unreachable : ∀ made,
    (∃ record, NodeCompared hasher partitions serve start steps record made) ∨
    (∃ record, EdgeCompared hasher partitions serve start steps record made) →
      ¬ made.Mismatched

/-- A row may store the value under a declared type that goes with the literal,
or the value is null. -/
def Fitting (declared : List PropertyDef) (made : Comparison) : Prop :=
  made.value = .null ∨ ∃ prop ∈ declared, prop.name = made.filter.property ∧
    HasType made.value prop.ty ∧
    prop.ty.ordersWith made.filter.value = true

/-- The rows of other labels or edge types than the filter was checked under, to
which the pattern leads, have values of types that go with the literals. -/
structure OtherRowsFit : Prop where
  node : ∀ record made, HopLooksAt hasher partitions serve start steps record made →
    ¬ FilterIn schema query (schema.nodeProperties record.label) made.filter →
    Fitting (schema.nodeProperties record.label) made
  edge : ∀ record made, CandidateLooksAt hasher partitions serve start steps record made →
    ¬ FilterIn schema query (schema.edgeProperties record.edgeType) made.filter →
    Fitting (schema.edgeProperties record.edgeType) made

end Cluster

/-- In a row that conforms to some declarations a comparison is fitting exactly
when it is no mismatch. -/
theorem fitting_iff {declared : List PropertyDef} {row : Properties}
    (conform : PropertiesConform declared row) {made : Comparison}
    (stored : row[made.filter.property]? = some made.value) :
    Fitting declared made ↔ ¬ made.Mismatched := by
  rw [Comparison.Mismatched, not_and_not_right]
  constructor
  · rintro (isNull | ⟨prop, -, -, typed, goes⟩) notNull
    · exact absurd isNull notNull
    · exact (orders_iff typed _).mpr goes
  · intro orders
    rcases conform.typed _ _ stored with ⟨prop, listed, named, typed | ⟨-, isNull⟩⟩
    · refine .inr ⟨prop, listed, named, typed, (orders_iff typed _).mp (orders ?_)⟩
      rintro isNull
      rw [isNull] at typed
      cases typed
    · exact .inl isNull

/-- The filters that were checked under the declarations of a row are no
mismatch there. -/
theorem fitting_of_fit (fits : LiteralsFit schema query)
    {declared : List PropertyDef} {row : Properties}
    (conform : PropertiesConform declared row) {made : Comparison}
    (stored : row[made.filter.property]? = some made.value)
    (checked : FilterIn schema query declared made.filter) :
    Fitting declared made := by
  rcases conform.typed _ _ stored with ⟨prop, listed, named, typed | ⟨-, isNull⟩⟩
  · exact .inr ⟨prop, listed, named, typed, fits declared _ checked prop listed named⟩
  · exact .inl isNull

section Served

variable {dataset : Dataset} {hasher : Partitioning} {partitions : PartitionMap}
variable {serve : GenerationHandle → IndexGeneration} {start : PlanStep}
variable {steps : List PlanStep}

omit [Chrono] in
/-- A node record served conforms to the declarations of its label. -/
theorem conform_of_nodeRecord (conforms : dataset.Conforms)
    (served : dataset.ServedBy hasher partitions serve) {v : NodeId}
    {record : NodeRecord}
    (recorded :
      (clusterView hasher (servingOf partitions serve)).nodeRecord v record) :
    PropertiesConform (dataset.schema.nodeProperties record.label) record.properties := by
  rcases served.nodeRecord_sound recorded with ⟨node, member, -, rfl⟩
  rcases conforms.node node member with ⟨nodeDef, declared, conform⟩
  rw [Schema.nodeProperties, declared]
  exact conform

omit [Chrono] in
/-- The record of an edge that is served conforms, if the dataset does. -/
theorem conform_of_edgeRecord (conforms : dataset.Conforms)
    (served : dataset.ServedBy hasher partitions serve) {p : PartitionId}
    {generation : IndexGeneration}
    (serves : servingOf partitions serve p = some generation) {e : EdgeId}
    {record : EdgeRecord} (recorded : generation.edgeRecords[e]? = some record) :
    PropertiesConform
      (dataset.schema.edgeProperties record.edgeType) record.properties := by
  rcases served.edgeRecord_sound ⟨p, generation, serves, recorded⟩
    with ⟨edge, member, -, rfl⟩
  rcases conforms.edge edge member with ⟨edgeDef, declared, conform, -⟩
  rw [Schema.edgeProperties, declared]
  exact conform

/-- A row that a hop leads to conforms, and has the value compared. -/
theorem row_of_hopLooksAt (conforms : dataset.Conforms)
    (served : dataset.ServedBy hasher partitions serve) {record : NodeRecord}
    {made : Comparison}
    (looks : HopLooksAt hasher partitions serve start steps record made) :
    PropertiesConform (dataset.schema.nodeProperties record.label) record.properties ∧
      record.properties[made.filter.property]? = some made.value := by
  rcases looks with ⟨-, -, -, -, recorded, compares⟩
  exact ⟨conform_of_nodeRecord conforms served recorded,
    (mem_evaluateFiltersNoted compares).2⟩

/-- A record that a candidate is judged by is that of a row. -/
theorem row_of_candidateLooksAt (conforms : dataset.Conforms)
    (served : dataset.ServedBy hasher partitions serve) {record : EdgeRecord}
    {made : Comparison}
    (looks : CandidateLooksAt hasher partitions serve start steps record made) :
    PropertiesConform (dataset.schema.edgeProperties record.edgeType) record.properties ∧
      record.properties[made.filter.property]? = some made.value := by
  rcases looks with ⟨-, -, -, -, -, -, serves, compares⟩
  rcases mem_candidateNoted _ _ _ compares with ⟨⟨e, recorded⟩, compares⟩
  exact ⟨conform_of_edgeRecord conforms served serves recorded,
    (mem_evaluateFiltersNoted compares).2⟩

/-- No run meets a mismatch exactly when the rows that the pattern leads to have
none. -/
theorem mismatchUnreachable_iff (wellScoped : WellScoped start steps) :
    (∀ made, (∃ record, NodeCompared hasher partitions serve start steps record made) ∨
      (∃ record, EdgeCompared hasher partitions serve start steps record made) →
        ¬ made.Mismatched) ↔
    (∀ record made, HopLooksAt hasher partitions serve start steps record made →
      ¬ made.Mismatched) ∧
      ∀ record made, CandidateLooksAt hasher partitions serve start steps record
        made → ¬ made.Mismatched := by
  constructor
  · intro unreachable
    constructor
    · exact fun record made looks =>
        unreachable made (.inl ⟨record, (nodeCompared_iff wellScoped).mpr looks⟩)
    · intro record own looks
      rcases edgeCompared_complete wellScoped looks with ⟨made, compared, alike⟩
      rw [← mismatched_congr alike]
      exact unreachable made (.inr ⟨record, compared⟩)
  · rintro ⟨node, edge⟩ made (⟨record, compared⟩ | ⟨record, compared⟩)
    · exact node record made ((nodeCompared_iff wellScoped).mp compared)
    · rcases edgeCompared_sound wellScoped compared with ⟨own, looks, alike⟩
      rw [mismatched_congr alike]
      exact edge record own looks

/-- The notes of comparisons are those of the source's functions; and over
conforming tables validation settles the literals of a query exactly when they
go with their properties of themselves, no inline filter stands on a node
without a label, and the rows of other labels or edge types that the pattern
leads to have values that go with the literals too.

* `conforms`: every row has the properties its own label or edge type declares,
  with values of their types;
* `served`: every generation served is a build of the tables; partitions may be
  out of reach, and ids may repeat;
* `valid`, `planned`: the query is accepted and lowered to `start :: steps`. -/
theorem literalsSettled_iff (conforms : dataset.Conforms)
    (served : dataset.ServedBy hasher partitions serve)
    (valid : SchemaValidator.validate query dataset.schema = .ok ())
    {project : List ReturnItem}
    (planned : NaivePlanner.plan query = .ok { steps := start :: steps, project }) :
    ((∀ properties filters, (evaluateFiltersNoted properties filters).2 =
        evaluateFilters properties filters) ∧
      ∀ generation step fromNode toNode conditions,
        (candidateNoted generation step toNode conditions
          (generation.neighbors step.direction fromNode)).2 =
          SimpleLocalExecutor.candidateExists generation step conditions
            fromNode toNode) ∧
    (LiteralsSettled hasher partitions serve dataset.schema query start steps ↔
      InlineLabelled query ∧ LiteralsFit dataset.schema query ∧
        OtherRowsFit hasher partitions serve dataset.schema query start steps) := by
  refine ⟨⟨evaluateFiltersNoted_erased, fun generation step fromNode toNode conditions =>
    candidateNoted_erased generation step toNode conditions fromNode⟩, ?_⟩
  rw [SchemaValidator.validate_eq_ok_iff] at valid
  rcases planShape_of_plan planned with ⟨first, segments, start', antiJoins, shape⟩
  have wellScoped := wellScoped_of_plan valid shape
  obtain ⟨rfl, rfl⟩ := List.cons.inj (congrArg QueryPlan.steps shape.planEq)
  constructor
  · rintro ⟨declared, ordered, unreachable⟩
    rcases (mismatchUnreachable_iff wellScoped).mp unreachable with ⟨node, edge⟩
    refine ⟨?_, ?_, ?_, ?_⟩
    · intro node inPattern filtered
      by_contra unlabelled
      obtain ⟨filter, member⟩ := List.exists_mem_of_ne_nil _ filtered
      obtain ⟨prop, listed, -⟩ := declared _ filter (.inline inPattern member)
      rw [Option.not_isSome_iff_eq_none] at unlabelled
      rw [NodePattern.declared, unlabelled] at listed
      cases listed
    · intro declared filter isFilter prop listed named
      exact ordersWith_iff.mpr (ordered declared filter isFilter prop listed named)
    · intro record made looks _
      rcases row_of_hopLooksAt conforms served looks with ⟨conform, stored⟩
      exact (fitting_iff conform stored).mpr (node record made looks)
    · intro record made looks _
      rcases row_of_candidateLooksAt conforms served looks with ⟨conform, stored⟩
      exact (fitting_iff conform stored).mpr (edge record made looks)
  · rintro ⟨labelled, fits, others⟩
    refine ⟨fun declared filter isFilter =>
      declared_of_filterIn valid labelled isFilter, ?_,
      (mismatchUnreachable_iff wellScoped).mpr ⟨?_, ?_⟩⟩
    · intro declared filter isFilter prop listed named
      exact ordersWith_iff.mp (fits declared filter isFilter prop listed named)
    -- a row of the label that the filter was checked under fits since it conforms
    · intro record made looks
      rcases row_of_hopLooksAt conforms served looks with ⟨conform, stored⟩
      apply (fitting_iff conform stored).mp
      by_cases checked : FilterIn dataset.schema query
        (dataset.schema.nodeProperties record.label) made.filter
      · exact fitting_of_fit fits conform stored checked
      · exact others.node record made looks checked
    · intro record made looks
      rcases row_of_candidateLooksAt conforms served looks with ⟨conform, stored⟩
      apply (fitting_iff conform stored).mp
      by_cases checked : FilterIn dataset.schema query
        (dataset.schema.edgeProperties record.edgeType) made.filter
      · exact fitting_of_fit fits conform stored checked
      · exact others.edge record made looks checked

/-- The literal goes with every declaration of the property, whatever it is a
declaration for. -/
def GoesEverywhere (schema : Schema) (filter : PropertyFilter) : Prop :=
  (∀ label, ∀ prop ∈ schema.nodeProperties label, prop.name = filter.property →
    prop.ty.ordersWith filter.value = true) ∧
  ∀ edgeType, ∀ prop ∈ schema.edgeProperties edgeType, prop.name = filter.property →
    prop.ty.ordersWith filter.value = true

/-- In particular all other rows fit where the literals go with the declarations
of all labels and edge types that have the property, and no `NOT EXISTS`
compares its edge with the outer pattern. -/
theorem otherRowsFit_of_goesEverywhere (conforms : dataset.Conforms)
    (served : dataset.ServedBy hasher partitions serve)
    (hops : ∀ step filter, .expandHop step ∈ steps → filter ∈ step.filters →
      GoesEverywhere dataset.schema filter)
    (literalOnly : ∀ step, .antiJoin step ∈ steps → step.outerConditions = [])
    (conditions : ∀ step filter, .antiJoin step ∈ steps →
      filter ∈ step.literalConditions → GoesEverywhere dataset.schema filter) :
    OtherRowsFit hasher partitions serve dataset.schema query start steps where
  node record made looks _ := by
    rcases row_of_hopLooksAt conforms served looks with ⟨conform, stored⟩
    rcases looks with ⟨position, -, -, -, -, compares⟩
    have goes := hops _ _ (position ▸ List.mem_append_right _ List.mem_cons_self)
      (mem_evaluateFiltersNoted compares).1
    rcases conform.typed _ _ stored with ⟨prop, listed, named, typed | ⟨-, isNull⟩⟩
    · exact .inr ⟨prop, listed, named, typed, goes.1 _ prop listed named⟩
    · exact .inl isNull
  edge record made looks _ := by
    rcases row_of_candidateLooksAt conforms served looks with ⟨conform, stored⟩
    rcases looks with @⟨done, later, step, b, order, u, v, generation, resolved,
      position, -, -, related, -, -, -,
      compares⟩
    have inPlan : .antiJoin step ∈ steps :=
      position ▸ List.mem_append_right _ List.mem_cons_self
    rw [literalOnly step inPlan] at related
    cases related
    have member := (mem_evaluateFiltersNoted (mem_candidateNoted _ _ _ compares).2).1
    rw [List.append_nil] at member
    rcases conform.typed _ _ stored with ⟨prop, listed, named, typed | ⟨-, isNull⟩⟩
    · exact .inr ⟨prop, listed, named, typed,
        (conditions step _ inPlan member).2 _ prop listed named⟩
    · exact .inl isNull

end Served

end Literals

section

open scoped Social

/-- `MATCH (a:Person)-[:KNOWS]->(b:Person) WHERE b.name = literal RETURN b`. -/
def knowsNamed (literal : Literal) : Query :=
  { Social.acquaintances with
    whereConditions :=
      [.property "b" { property := "name", op := .eq, value := literal }] }

/-- Its start. -/
def everybody : PlanStep := .resolveAll { aliasName := "a", label := "Person" }

/-- Its hop. -/
def hopToNamed (literal : Literal) : ExpandHop where
  fromAlias := "a"
  toAlias := "b"
  toLabel := some "Person"
  edgeType := some "KNOWS"
  direction := .outgoing
  hops := { min := 1, max := 1 }
  filters := [{ property := "name", op := .eq, value := literal }]
  edgeAlias := none

/-- The query is a scan and one hop with a filter. -/
theorem knowsNamed_planned (literal : Literal) : NaivePlanner.plan (knowsNamed literal) =
    .ok { steps := [everybody, .expandHop (hopToNamed literal)]
          project := [{ aliasName := "b", property := none }] } := rfl

/-- The only property of the example that is called `name` is a text. -/
theorem goesEverywhere_name (text : String) :
    GoesEverywhere Social.schema
      { property := "name", op := .eq, value := .string text } := by
  constructor
  · intro label prop listed _
    rw [Schema.nodeProperties, Schema.nodeDef] at listed
    cases declared : Social.schema.nodes[label]? with
    | none =>
        rw [declared] at listed
        cases listed
    | some nodeDef =>
        rw [declared] at listed
        have entry := mem_of_getElem?_collectMap declared
        simp only [List.mem_cons, Prod.mk.injEq, List.not_mem_nil, or_false] at entry
        rcases entry with ⟨-, rfl⟩ | ⟨-, rfl⟩
        · cases listed
        · cases List.mem_singleton.mp listed
          rfl
  · intro edgeType prop listed named
    rw [Schema.edgeProperties, Schema.edgeDef] at listed
    cases declared : Social.schema.edges[edgeType]? with
    | none =>
        rw [declared] at listed
        cases listed
    | some edgeDef =>
        rw [declared] at listed
        have entry := mem_of_getElem?_collectMap declared
        simp only [List.mem_cons, Prod.mk.injEq, List.not_mem_nil, or_false] at entry
        rcases entry with ⟨-, rfl⟩ | ⟨-, rfl⟩
        · cases List.mem_singleton.mp listed
          exact absurd named (by simp)
        · cases listed

/-- A text literal for a text property. -/
theorem knowsNamed_literalsSettled :
    LiteralsSettled Social.single (deployment Social.single)
      (Social.dataset.deployed Social.single) Social.schema
      (knowsNamed (.string "Bob")) everybody
        [.expandHop (hopToNamed (.string "Bob"))] := by
  have valid : SchemaValidator.validate
      (knowsNamed (.string "Bob")) Social.schema = .ok () := by
    decide
  have served := served_deployment Social.dataset Social.single
  apply (literalsSettled_iff Social.conforms served valid (knowsNamed_planned _)).2.mpr
  have unfiltered : ∀ node, .node node ∈ (knowsNamed (.string "Bob")).pattern.steps →
      node.propertyFilters = [] := by
    intro node inPattern
    simp only [knowsNamed, Social.acquaintances, Social.matching, List.mem_cons,
      PatternStep.node.injEq, reduceCtorEq, List.not_mem_nil, or_false,
      false_or] at inPattern
    rcases inPattern with rfl | rfl <;> rfl
  refine ⟨fun node inPattern filtered =>
    absurd (unfiltered node inPattern) filtered, ?_, ?_⟩
  · intro declared filter isFilter prop listed named
    cases isFilter with
    | inline inPattern member =>
        rw [unfiltered _ inPattern] at member
        cases member
    | condition member =>
        cases List.mem_singleton.mp member
        cases List.mem_singleton.mp listed
        rfl
    | existsInline inQuery => cases List.mem_singleton.mp inQuery
    | existsCondition inQuery => cases List.mem_singleton.mp inQuery
  · apply otherRowsFit_of_goesEverywhere Social.conforms served
    · intro step filter inPlan member
      cases List.mem_singleton.mp inPlan
      cases List.mem_singleton.mp member
      exact goesEverywhere_name "Bob"
    · intro step inPlan
      cases List.mem_singleton.mp inPlan
    · intro step filter inPlan
      cases List.mem_singleton.mp inPlan

/-- The comparison of the name of the second person with the number 1. -/
def nameWithOne : Comparison where
  filter := { property := "name", op := .eq, value := .int64 1 }
  value := .string "Bob"

/-- The record of the second person. -/
def bob : NodeRecord where
  label := Social.person
  properties := Social.textual "name" "Bob"

/-- The run comes to the comparison: the first person knows the second, whose
record `filter_frontier` fetches. -/
theorem bob_compared : NodeCompared Social.single (deployment Social.single)
    (Social.dataset.deployed Social.single) everybody
      [.expandHop (hopToNamed (.int64 1))] bob nameWithOne := by
  have everybodyFound : ((inProcess Social.single).broadcastResolve
      (deployment Social.single) everybody >>=
      fun first => [].foldlM
        ((inProcess Social.single).runStep (deployment Social.single)) first).run
        (fun _ => Social.dataset.deployed Social.single) Social.inOrder 0 =
      .ok [.fromNode "a" ⟨1⟩, .fromNode "a" ⟨2⟩, .fromNode "a" ⟨4⟩] := by decide +kernel
  have expanded : ((inProcess Social.single).scatterGatherHop
      (deployment Social.single) (hopToNamed (.int64 1))
      [.fromNode "a" ⟨1⟩, .fromNode "a" ⟨2⟩, .fromNode "a" ⟨4⟩]).run
        (fun _ => Social.dataset.deployed Social.single) Social.inOrder 0 =
      .ok [Social.pair 1 2, Social.pair 2 4] := by decide +kernel
  rcases (@getNodeProperties_meets _ Social.single (deployment Social.single)
    (Social.dataset.deployed Social.single)
    (fun _ => False) [⟨2⟩, ⟨4⟩]).exists_ok with ⟨properties, fetched, stored⟩
  have recorded : Social.dataset.view.nodeRecord ⟨2⟩ bob :=
    ⟨Social.somebody 2 "Bob", by rw [Social.nodes_eq]; simp, rfl, rfl⟩
  have served := (served_deployment Social.dataset Social.single).nodeRecord_complete
    (fullyReachable_deployment Social.single) Social.uniqueNodeIds recorded
  refine .filterFrontier rfl (everybodyFound ▸ Client.returns_run _ Social.inOrder 0 _)
    (expanded ▸ Client.returns_run _ Social.inOrder 0 _)
    (.of_eq (by decide +kernel)) fetched List.mem_cons_self
    (v := ⟨2⟩) (by decide +kernel) ((stored ⟨2⟩ bob).mpr ⟨by simp, served⟩) ?_
  simp [evaluateFiltersNoted, comparisonsOf, hopToNamed, bob, nameWithOne,
    evaluateFilter, literalMatches, literalOrdering]

/-- `MATCH (a:Person)-[:KNOWS]->(b:Person) WHERE b.name = 1 RETURN b` is
accepted and lowered, and in its run over the example, which conforms, the
number meets a text that it is not compared with. -/
theorem knowsNamed_unsettled :
    ((PestParser.parse (fun _ => (0, ""))
      "MATCH (a:Person)-[:KNOWS]->(b:Person) WHERE b.name = 1 RETURN b").toOption.bind
        Except.toOption).map
        (fun query => (query.pattern, NaivePlanner.whereFilters query "b")) =
      some ((knowsNamed (.int64 1)).pattern, [nameWithOne.filter]) ∧
    SchemaValidator.validate (knowsNamed (.int64 1)) Social.schema = .ok () ∧
    NodeCompared Social.single (deployment Social.single)
      (Social.dataset.deployed Social.single) everybody
      [.expandHop (hopToNamed (.int64 1))] bob nameWithOne ∧
    nameWithOne.Mismatched ∧
    ¬ LiteralsSettled Social.single (deployment Social.single)
      (Social.dataset.deployed Social.single) Social.schema (knowsNamed (.int64 1))
      everybody [.expandHop (hopToNamed (.int64 1))] := by
  have mismatched : nameWithOne.Mismatched := by
    constructor
    · rintro ⟨⟩
    · rintro (ordered | ⟨v, l, isFloat, -⟩)
      · cases ordered
      · cases isFloat
  refine ⟨by decide +kernel, by decide, bob_compared, mismatched, fun settled => ?_⟩
  exact settled.unreachable nameWithOne (.inl ⟨_, bob_compared⟩) mismatched

end

end GraphEngine
