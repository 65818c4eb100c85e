/-
Module: GraphEngine.Proofs.Respelling
Layer: Proofs
Purpose: A query that was read can be written out again: with floats aside, the
  parser accepts no text whose query could not have been spelled in canonical
  tokens.
Trusted boundary: none
Main exports: Query.LiteralsAre, Query.Spelled.writable, exists_queryTokens,
  parse_respellable
-/
import GraphEngine.Proofs.ParsedForm

namespace GraphEngine

/-! ### The literals of a query -/

section Literals

variable (L : Literal → Prop)

def Pattern.LiteralsAre (pattern : Pattern) : Prop :=
  ∀ node, .node node ∈ pattern.steps → ∀ filter ∈ node.propertyFilters, L filter.value

mutual

def WhereCondition.LiteralsAre : WhereCondition → Prop
  | .property _ filter => L filter.value
  | .aliasComparison _ _ _ => True
  | .propertyComparison _ _ _ => True
  | .notExists subquery => subquery.LiteralsAre

def ExistsSubquery.LiteralsAre : ExistsSubquery → Prop
  | .mk pattern conditions => pattern.LiteralsAre L ∧ AllLiteralsAre conditions

def AllLiteralsAre : List WhereCondition → Prop
  | [] => True
  | condition :: conditions => condition.LiteralsAre ∧ AllLiteralsAre conditions

end

/-- The inline filters and the conditions, those of subqueries included, compare
with such literals. -/
def Query.LiteralsAre (query : Query) : Prop :=
  query.pattern.LiteralsAre L ∧ AllLiteralsAre L query.whereConditions

end Literals

/-- A whole number, a truth value or a string. -/
def Literal.NotFloat (literal : Literal) : Prop := ∀ value, literal ≠ .float64 value

theorem Literal.Legible.writable {literal : Literal} (legible : literal.Legible)
    (notFloat : literal.NotFloat) : literal.Writable := by
  cases legible with
  | inl float =>
      obtain ⟨value, isFloat⟩ := float
      exact absurd isFloat (notFloat value)
  | inr writable => exact writable

/-! ### Without floats the literals can be written -/

theorem Pattern.Spelled.floatless {pattern : Pattern}
    (spelled : pattern.Spelled Literal.Legible)
    (floatless : pattern.LiteralsAre Literal.NotFloat) :
    pattern.Spelled Literal.Writable where
  alternates := spelled.alternates
  nodes node member :=
    { aliasName := (spelled.nodes node member).aliasName
      label := (spelled.nodes node member).label
      filters := fun filter inNode =>
        have ⟨⟨named, legible⟩, equality⟩ :=
          (spelled.nodes node member).filters filter inNode
        ⟨⟨named, legible.writable (floatless node member filter inNode)⟩, equality⟩ }
  edges := spelled.edges

mutual

theorem WhereCondition.Spelled.floatless :
    {condition : WhereCondition} → condition.Spelled Literal.Legible →
    condition.LiteralsAre Literal.NotFloat → condition.Spelled Literal.Writable
  | .property _ _, spelled, floatless => by
      rw [WhereCondition.Spelled] at spelled ⊢
      rw [WhereCondition.LiteralsAre] at floatless
      exact ⟨spelled.1, spelled.2.1, spelled.2.2.writable floatless⟩
  | .aliasComparison _ _ _, spelled, _ => by
      rw [WhereCondition.Spelled] at spelled ⊢
      exact spelled
  | .propertyComparison _ _ _, spelled, _ => by
      rw [WhereCondition.Spelled] at spelled ⊢
      exact spelled
  | .notExists _, spelled, floatless => by
      rw [WhereCondition.Spelled] at spelled ⊢
      rw [WhereCondition.LiteralsAre] at floatless
      exact spelled.floatless floatless

theorem ExistsSubquery.Spelled.floatless :
    {subquery : ExistsSubquery} → subquery.Spelled Literal.Legible →
    subquery.LiteralsAre Literal.NotFloat → subquery.Spelled Literal.Writable
  | .mk _ _, spelled, floatless => by
      rw [ExistsSubquery.Spelled] at spelled ⊢
      rw [ExistsSubquery.LiteralsAre] at floatless
      exact ⟨spelled.1.floatless floatless.1, AllSpelled.floatless spelled.2 floatless.2⟩

theorem AllSpelled.floatless :
    {conditions : List WhereCondition} → AllSpelled Literal.Legible conditions →
    AllLiteralsAre Literal.NotFloat conditions → AllSpelled Literal.Writable conditions
  | [], _, _ => by
      rw [AllSpelled]
      trivial
  | _ :: _, spelled, floatless => by
      rw [AllSpelled] at spelled ⊢
      rw [AllLiteralsAre] at floatless
      exact ⟨spelled.1.floatless floatless.1, AllSpelled.floatless spelled.2 floatless.2⟩

end

theorem Query.Spelled.floatless {query : Query} (spelled : query.Spelled Literal.Legible)
    (floatless : query.LiteralsAre Literal.NotFloat) : query.Spelled Literal.Writable :=
  { spelled with
    pattern := spelled.pattern.floatless floatless.1
    conditions := spelled.conditions.floatless floatless.2 }

/-! ### Queries that can be written -/

theorem Pattern.Spelled.writable {pattern : Pattern}
    (spelled : pattern.Spelled Literal.Writable) : pattern.Writable where
  alternates := spelled.alternates
  nodes node member :=
    { aliasName := (spelled.nodes node member).aliasName
      label := (spelled.nodes node member).label
      filters := fun filter inNode =>
        ((spelled.nodes node member).filters filter inNode).1 }
  edges := spelled.edges

mutual

theorem WhereCondition.Spelled.writable :
    {condition : WhereCondition} → condition.Spelled Literal.Writable →
    condition.Writable
  | .property _ _, spelled => by
      rw [WhereCondition.Spelled] at spelled
      rw [WhereCondition.Writable]
      exact spelled
  | .aliasComparison _ _ _, spelled => by
      rw [WhereCondition.Spelled] at spelled
      rw [WhereCondition.Writable]
      exact spelled
  | .propertyComparison _ _ _, spelled => by
      rw [WhereCondition.Spelled] at spelled
      rw [WhereCondition.Writable]
      exact spelled
  | .notExists _, spelled => by
      rw [WhereCondition.Spelled] at spelled
      rw [WhereCondition.Writable]
      exact spelled.writable

theorem ExistsSubquery.Spelled.writable :
    {subquery : ExistsSubquery} → subquery.Spelled Literal.Writable →
    subquery.Writable
  | .mk _ _, spelled => by
      rw [ExistsSubquery.Spelled] at spelled
      rw [ExistsSubquery.Writable]
      exact ⟨spelled.1.writable, AllSpelled.writable spelled.2⟩

theorem AllSpelled.writable :
    {conditions : List WhereCondition} → AllSpelled Literal.Writable conditions →
    AllWritable conditions
  | [], _ => by
      rw [AllWritable]
      trivial
  | _ :: _, spelled => by
      rw [AllSpelled] at spelled
      rw [AllWritable]
      exact ⟨spelled.1.writable, AllSpelled.writable spelled.2⟩

end

theorem Query.Spelled.writable {query : Query}
    (spelled : query.Spelled Literal.Writable) : query.Writable where
  pattern := spelled.pattern.writable
  conditions := spelled.conditions.writable
  returnsSome := spelled.returnsSome
  returns := spelled.returns
  orderBy := spelled.orderBy
  limit := spelled.limit

/-! ### Their tokens -/

theorem exists_literalToken {literal : Literal} (writable : literal.Writable) :
    ∃ t, LiteralToken literal t := by
  cases literal with
  | int64 value =>
      obtain ⟨digits, numeral, same⟩ := exists_numberToken value.natAbs
      cases Int.natAbs_eq value with
      | inl positive =>
          exact ⟨digits, digits, numeral, .inl ⟨rfl, by rw [same]; exact positive⟩⟩
      | inr negative =>
          exact ⟨'-' :: digits, digits, numeral, .inr ⟨rfl, by rw [same]; exact negative⟩⟩
  | float64 value => exact writable.elim
  | bool value => exact ⟨_, rfl⟩
  | string value => exact ⟨_, rfl⟩

theorem exists_nodeTokens {node : NodePattern} (spelled : node.Spelled Literal.Writable) :
    ∃ ts, NodeTokens node ts := by
  have each (filter : PropertyFilter) (member : filter ∈ node.propertyFilters) : ∃ ts,
      KvTokens filter ts := by
    obtain ⟨⟨-, writable⟩, equality⟩ := spelled.filters filter member
    obtain ⟨value, token⟩ := exists_literalToken writable
    exact ⟨_, equality, value, token, rfl⟩
  obtain ⟨parts, kvs⟩ := exists_forall₂ each
  exact ⟨_, _, .inr ⟨parts, kvs, rfl⟩, rfl⟩

theorem exists_edgeTokens (edge : EdgePattern) : ∃ ts, EdgeTokens edge ts := by
  obtain ⟨min, isMin⟩ := exists_numberToken edge.hops.min
  obtain ⟨max, isMax⟩ := exists_numberToken edge.hops.max
  exact ⟨_, _, .inr ⟨_, .inr ⟨min, max, isMin, isMax, rfl⟩, rfl⟩, rfl⟩

theorem exists_patternTokens {pattern : Pattern}
    (spelled : pattern.Spelled Literal.Writable) :
    ∃ ts, PatternTokens pattern ts := by
  have each (step : PatternStep) (member : step ∈ pattern.steps) : ∃ ts,
      StepTokens step ts := by
    cases step with
    | node node => exact exists_nodeTokens (spelled.nodes node member)
    | edge edge => exact exists_edgeTokens edge
  obtain ⟨parts, steps⟩ := exists_forall₂ each
  exact ⟨_, parts, steps, rfl⟩

mutual

theorem exists_conditionTokens :
    {condition : WhereCondition} → condition.Spelled Literal.Writable →
    ∃ ts, ConditionTokens condition ts
  | .property _ filter, spelled => by
      rw [WhereCondition.Spelled] at spelled
      obtain ⟨value, token⟩ := exists_literalToken spelled.2.2
      exact ⟨_, by rw [ConditionTokens]; exact ⟨value, token, rfl⟩⟩
  | .aliasComparison _ _ _, _ => ⟨_, by rw [ConditionTokens]⟩
  | .propertyComparison _ _ _, _ => ⟨_, by rw [ConditionTokens]⟩
  | .notExists _, spelled => by
      rw [WhereCondition.Spelled] at spelled
      obtain ⟨inner, tokens⟩ := exists_subqueryTokens spelled
      exact ⟨_, by rw [ConditionTokens]; exact ⟨inner, tokens, rfl⟩⟩

theorem exists_subqueryTokens :
    {subquery : ExistsSubquery} → subquery.Spelled Literal.Writable →
    ∃ ts, SubqueryTokens subquery ts
  | .mk _ _, spelled => by
      rw [ExistsSubquery.Spelled] at spelled
      obtain ⟨path, pathTokens⟩ := exists_patternTokens spelled.1
      obtain ⟨parts, each⟩ := exists_eachTokens spelled.2
      exact ⟨_, by rw [SubqueryTokens]; exact ⟨path, parts, pathTokens, each, rfl⟩⟩

theorem exists_eachTokens :
    {conditions : List WhereCondition} → AllSpelled Literal.Writable conditions →
    ∃ parts, EachTokens conditions parts
  | [], _ => ⟨[], by rw [EachTokens]⟩
  | _ :: _, spelled => by
      rw [AllSpelled] at spelled
      obtain ⟨first, tokens⟩ := exists_conditionTokens spelled.1
      obtain ⟨rest, each⟩ := exists_eachTokens spelled.2
      exact ⟨_, by rw [EachTokens]; exact ⟨first, rest, tokens, each, rfl⟩⟩

end

theorem exists_orderTokens (orderBy : Option OrderBy) : ∃ ts, OrderTokens orderBy ts := by
  cases orderBy with
  | none => exact ⟨[], rfl⟩
  | some orderBy =>
      have direction : ∃ ts, DirectionTokens orderBy.direction ts := by
        cases orderBy.direction with
        | asc => exact ⟨[], .inl rfl⟩
        | desc => exact ⟨_, rfl⟩
      obtain ⟨ts, tokens⟩ := direction
      exact ⟨_, ts, tokens, rfl⟩

theorem exists_limitTokens (limit : Option Nat) : ∃ ts, LimitTokens limit ts := by
  cases limit with
  | none => exact ⟨[], rfl⟩
  | some limit =>
      obtain ⟨number, token⟩ := exists_numberToken limit
      exact ⟨_, number, token, rfl⟩

/-- Every query with names and literals that can be written has tokens. -/
theorem exists_queryTokens {query : Query}
    (spelled : query.Spelled Literal.Writable) : ∃ ts, QueryTokens query ts := by
  obtain ⟨path, pathTokens⟩ := exists_patternTokens spelled.pattern
  obtain ⟨parts, each⟩ := exists_eachTokens spelled.conditions
  obtain ⟨order, orderTokens⟩ := exists_orderTokens query.orderBy
  obtain ⟨limit, limitTokens⟩ := exists_limitTokens query.limit
  exact ⟨_, path, parts, order, limit, pathTokens, each, orderTokens, limitTokens, rfl⟩

/-! ### Reading and writing -/

/-- Whatever the text, the query read from it is spelled with identifiers,
strings without quotes and numbers that fit; if it holds no float, it can be
written out in tokens again. -/
theorem parse_respellable {report : String → Nat × String} {source : String}
    {query : Query} (parsed : PestParser.parse report source = .ok (.ok query)) :
    query.Spelled Literal.Legible ∧
      (query.LiteralsAre Literal.NotFloat → query.Writable ∧
        ∃ ts, QueryTokens query ts) := by
  have spelled := parse_spelled parsed
  refine ⟨spelled, fun floatless => ?_⟩
  have canonical := spelled.floatless floatless
  exact ⟨canonical.writable, exists_queryTokens canonical⟩

/-- Ann's query is written out again. -/
theorem ann_respellable : ∃ query, PestParser.parse (fun _ => (0, ""))
    "MATCH (p:Person \x7bname: \"Ann\"\x7d) WHERE p.age >= 30 RETURN p" =
      .ok (.ok query) ∧
      query.Spelled Literal.Legible := by
  have passed : parsesTo (fun _ => true)
      "MATCH (p:Person \x7bname: \"Ann\"\x7d) WHERE p.age >= 30 RETURN p" = true := by
        decide +kernel
  obtain ⟨query, parsed, -⟩ := exists_of_parsesTo passed
  exact ⟨query, parsed, (parse_respellable parsed).1⟩

end GraphEngine
