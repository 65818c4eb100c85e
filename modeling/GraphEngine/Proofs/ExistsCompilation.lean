/-
Module: GraphEngine.Proofs.ExistsCompilation
Layer: Proofs
Purpose: What compiling a `NOT EXISTS` keeps of its body.  A literal condition
  on the subquery's edge and a comparison with that edge on one side keep their
  meaning, operators flipped where the sides are exchanged.  A literal condition
  on an outer alias is dropped, and of a comparison with the edge on both sides
  the right one is looked up outside.  A subquery keeps its meaning exactly if
  what is dropped follows from what is kept, and what is misread belongs to a
  contradiction.
Trusted boundary: none
Main exports: ConditionKind, BodyHolds, CompiledHolds, LossHarmless,
  compiledHolds_iff_resolved, compileAntiJoin_preserves_iff
-/
import GraphEngine.Proofs.Planning
import GraphEngine.Spec.Conditions
import GraphEngine.Spec.Dataset

namespace GraphEngine

open NaivePlanner (compileAntiJoin literalConditions outerConditions)
open ScatterGatherExecutor (Hydrated)

/-! ### The body of a subquery -/

/-- The alias of the subquery's own edge. -/
def ExistsSubquery.innerAlias (subquery : ExistsSubquery) : Option String :=
  match subquery.pattern.steps with
  | [.node _, .edge edge, .node _] => edge.aliasName
  | _ => none

/-- What a condition of a body refers to. -/
inductive ConditionKind where
  /-- The edge alone against a literal, or the edge on one side of a
  comparison. -/
  | edgeOnOneSide
  /-- An outer alias against a literal. -/
  | outerLiteral
  /-- The edge on both sides of a comparison. -/
  | edgeOnBothSides
  /-- Anything else. -/
  | ignored
deriving DecidableEq, Repr

/-- What becomes of a condition, which its aliases decide. -/
def conditionKind (innerAlias : Option String) : WhereCondition → ConditionKind
  | .property aliasName _ =>
      if some aliasName = innerAlias then .edgeOnOneSide else .outerLiteral
  | .propertyComparison left _ right =>
      if some left.aliasName = innerAlias then
        if some right.aliasName = innerAlias then .edgeOnBothSides else .edgeOnOneSide
      else if some right.aliasName = innerAlias then .edgeOnOneSide
      else .ignored
  | .aliasComparison _ _ _ => .ignored
  | .notExists _ => .ignored

section Meaning

variable [Chrono]

/-- Every condition of the body holds of an edge: the edge's alias means the
edge, every other alias what the outer binding binds it to. -/
def BodyHolds (subquery : ExistsSubquery) (outer : Environment) (edge : Properties) :
    Prop :=
  ∀ condition ∈ subquery.whereConditions,
    conditionKind subquery.innerAlias condition ≠ .ignored →
    ConditionHolds (outer.shadow subquery.innerAlias edge)
      (outer.shadow subquery.innerAlias edge) condition

/-- What the compiled step asks of an edge: its literal conditions, and its
outer conditions with their right side taken from the outer binding. -/
def CompiledHolds (step : AntiJoinStep) (outer : Environment) (edge : Properties) :
    Prop :=
  evaluateFilters edge step.literalConditions = true ∧
    ∀ condition ∈ step.outerConditions, ∃ v w, edge[condition.property]? = some v ∧
      outer.value condition.outer = some w ∧ valuesMatch v condition.op w = true

/-- The outer binding binds these aliases and no others. -/
def Environment.Binds (outer : Environment) (aliases : List String) : Prop :=
  ∀ x, (outer x).isSome ↔ x ∈ aliases

/-- The conditions that compiling keeps hold of an edge: those with the edge on
exactly one side. -/
def KeptHold (subquery : ExistsSubquery) (outer : Environment) (edge : Properties) :
    Prop :=
  ∀ condition ∈ subquery.whereConditions,
    conditionKind subquery.innerAlias condition = .edgeOnOneSide →
    ConditionHolds (outer.shadow subquery.innerAlias edge)
      (outer.shadow subquery.innerAlias edge) condition

/-- The comparisons with the edge on both sides hold when their right side is
read from the outer binding. -/
def MisreadHold (subquery : ExistsSubquery) (outer : Environment)
    (edge : Properties) : Prop :=
  ∀ condition ∈ subquery.whereConditions,
    conditionKind subquery.innerAlias condition = .edgeOnBothSides →
    ConditionHolds (outer.shadow subquery.innerAlias edge) outer condition

/-- What compiling loses of a subquery can never matter, whatever an outer
binding of these aliases and an edge hold.  Without a comparison that has the
edge on both sides, every literal condition on an outer alias, which is dropped,
follows from the conditions kept.  With such a comparison, the conditions
contradict each other, and they still do when its right side is read from an
outer alias of the same name. -/
structure LossHarmless (aliases : List String) (subquery : ExistsSubquery) : Prop where
  follows : (∀ condition ∈ subquery.whereConditions,
      conditionKind subquery.innerAlias condition ≠ .edgeOnBothSides) →
    ∀ condition ∈ subquery.whereConditions,
      conditionKind subquery.innerAlias condition = .outerLiteral →
      ∀ outer edge, Environment.Binds outer aliases → KeptHold subquery outer edge →
        ConditionHolds (outer.shadow subquery.innerAlias edge)
          (outer.shadow subquery.innerAlias edge) condition
  contradicts : ∀ condition ∈ subquery.whereConditions,
    conditionKind subquery.innerAlias condition = .edgeOnBothSides →
    ∀ outer edge, Environment.Binds outer aliases →
      ¬ BodyHolds subquery outer edge ∧
        ∀ inner ∈ aliases, subquery.innerAlias = some inner →
          ¬ (KeptHold subquery outer edge ∧ MisreadHold subquery outer edge)

/-- A condition resolved to a filter asks the same of an edge. -/
theorem evaluateFilter_of_resolve {hydrated : Hydrated} {b : Binding}
    {condition : OuterCondition} {filter : PropertyFilter}
    (resolves : hydrated.resolve b condition = some filter) (edge : Properties) :
    (∃ v w, edge[condition.property]? = some v ∧
        Environment.value (hydrated.properties b) condition.outer = some w ∧
        valuesMatch v condition.op w = true) ↔ evaluateFilter edge filter = true := by
  rcases Option.bind_eq_some_iff.mp resolves with ⟨properties, found, rest⟩
  rcases Option.bind_eq_some_iff.mp rest with ⟨w, stored, rest⟩
  rcases Option.bind_eq_some_iff.mp rest with ⟨literal, turned, same⟩
  cases same
  have value : Environment.value (hydrated.properties b) condition.outer = some w := by
    rw [Environment.value, found]
    exact stored
  rw [evaluateFilter]
  cases edge[condition.property]? with
  | none => simp
  | some v => simp [value, valuesMatch_literal turned]

/-- Resolving the outer conditions of a binding, as the executor does, gives
filters that ask the same. -/
theorem compiledHolds_iff_resolved {step : AntiJoinStep} {hydrated : Hydrated}
    {b : Binding} {filters : List PropertyFilter}
    (resolved : hydrated.resolveAll step b = some filters) (edge : Properties) :
    CompiledHolds step (hydrated.properties b) edge ↔
      evaluateFilters edge filters = true := by
  rcases Option.map_eq_some_iff.mp resolved with ⟨outer, mapped, rfl⟩
  rcases forall₂_partner (mapM_eq_some_iff.mp mapped) with ⟨ofFilter, ofCondition⟩
  rw [CompiledHolds, evaluateFilters, evaluateFilters, List.all_append, Bool.and_eq_true]
  apply and_congr_right
  intro _
  rw [List.all_eq_true]
  constructor
  · intro holds filter member
    rcases ofFilter filter member with ⟨condition, listed, resolves⟩
    exact (evaluateFilter_of_resolve resolves edge).mp (holds condition listed)
  · intro holds condition listed
    rcases ofCondition condition listed with ⟨filter, member, resolves⟩
    exact (evaluateFilter_of_resolve resolves edge).mpr (holds filter member)

/-! ### Sorting the conditions -/

/-- What the compiled step makes of one condition of the body. -/
def ConditionCompiled (innerAlias : Option String) (outer : Environment)
    (edge : Properties) : WhereCondition → Prop
  | .property aliasName filter =>
      some aliasName = innerAlias → evaluateFilter edge filter = true
  | .propertyComparison left op right =>
      if some left.aliasName = innerAlias then
        ComparisonHolds (outer.shadow innerAlias edge) outer left op right
      else if some right.aliasName = innerAlias then
        ComparisonHolds (outer.shadow innerAlias edge) outer right (flipOp op) left
      else True
  | .aliasComparison _ _ _ => True
  | .notExists _ => True

omit [Chrono] in
/-- The literal conditions of the step: those on the alias of the subquery's
edge. -/
theorem mem_literalConditions {innerAlias : Option String}
    {conditions : List WhereCondition} {filter : PropertyFilter} :
    filter ∈ literalConditions innerAlias conditions ↔
      ∃ x, some x = innerAlias ∧ .property x filter ∈ conditions := by
  constructor
  · intro listed
    rcases List.mem_filterMap.mp listed with ⟨condition, member, kept⟩
    cases condition with
    | property x other =>
        by_cases inner : some x = innerAlias
        · simp only [if_pos inner, Option.some.injEq] at kept
          subst kept
          exact ⟨x, inner, member⟩
        · simp only [if_neg inner, reduceCtorEq] at kept
    | propertyComparison left op right => cases kept
    | aliasComparison left op right => cases kept
    | notExists nested => cases kept
  · rintro ⟨x, inner, member⟩
    exact List.mem_filterMap.mpr ⟨_, member, if_pos inner⟩

omit [Chrono] in
/-- An outer condition is a comparison with the edge on the left, or one with
the edge only on the right, turned round. -/
theorem mem_outerConditions {innerAlias : Option String}
    {conditions : List WhereCondition} {condition : OuterCondition} :
    condition ∈ outerConditions innerAlias conditions ↔
      ∃ left op right, .propertyComparison left op right ∈ conditions ∧
        (some left.aliasName = innerAlias ∧ condition = ⟨left.property, op, right⟩ ∨
          ¬ some left.aliasName = innerAlias ∧ some right.aliasName = innerAlias ∧
            condition = ⟨right.property, flipOp op, left⟩) := by
  constructor
  · intro listed
    rcases List.mem_filterMap.mp listed with ⟨comparison, member, kept⟩
    cases comparison with
    | property x filter => cases kept
    | propertyComparison left op right =>
        refine ⟨left, op, right, member, ?_⟩
        by_cases onLeft : some left.aliasName = innerAlias
        · simp only [if_pos onLeft, Option.some.injEq] at kept
          exact .inl ⟨onLeft, kept.symm⟩
        · by_cases onRight : some right.aliasName = innerAlias
          · simp only [if_neg onLeft, if_pos onRight, Option.some.injEq] at kept
            exact .inr ⟨onLeft, onRight, kept.symm⟩
          · simp only [if_neg onLeft, if_neg onRight, reduceCtorEq] at kept
    | aliasComparison left op right => cases kept
    | notExists nested => cases kept
  · rintro ⟨left, op, right, member, ⟨onLeft, rfl⟩ | ⟨notLeft, onRight, rfl⟩⟩
    · exact List.mem_filterMap.mpr ⟨_, member, if_pos onLeft⟩
    · exact List.mem_filterMap.mpr ⟨_, member, (if_neg notLeft).trans (if_pos onRight)⟩

/-- The compiled step asks of an edge what it makes of each condition. -/
theorem compiledHolds_iff (subquery : ExistsSubquery) {step : AntiJoinStep}
    (compiled : compileAntiJoin subquery = .ok step) (outer : Environment)
    (edge : Properties) :
    CompiledHolds step outer edge ↔
      ∀ condition ∈ subquery.whereConditions,
        ConditionCompiled subquery.innerAlias outer edge condition := by
  rcases compileAntiJoin_ok compiled with ⟨fromNode, inner, toNode, steps, rfl⟩
  have named : subquery.innerAlias = inner.aliasName := by
    rw [ExistsSubquery.innerAlias, steps]
  rw [named, CompiledHolds, evaluateFilters, List.all_eq_true]
  constructor
  · rintro ⟨literals, outers⟩ condition member
    cases condition with
    | property x filter =>
        intro isInner
        exact literals filter (mem_literalConditions.mpr ⟨x, isInner, member⟩)
    | propertyComparison left op right =>
        rw [ConditionCompiled]
        split
        case isTrue onLeft =>
            rcases outers _ (mem_outerConditions.mpr
              ⟨left, op, right, member, .inl ⟨onLeft, rfl⟩⟩) with
              ⟨v, w, found, rest⟩
            exact ⟨v, w,
              (Environment.value_shadow_inner outer onLeft edge).trans found, rest⟩
        case isFalse notLeft =>
            split
            case isTrue onRight =>
                rcases outers _ (mem_outerConditions.mpr
                  ⟨left, op, right, member, .inr ⟨notLeft, onRight, rfl⟩⟩)
                    with ⟨v, w, found, rest⟩
                exact ⟨v, w, (Environment.value_shadow_inner outer onRight
                    edge).trans found, rest⟩
            case isFalse => trivial
    | aliasComparison left op right => trivial
    | notExists nested => trivial
  · intro each
    constructor
    · intro filter listed
      rcases mem_literalConditions.mp listed with ⟨x, isInner, member⟩
      exact each _ member isInner
    · intro condition listed
      rcases mem_outerConditions.mp listed with
        ⟨left, op, right, member, ⟨onLeft, rfl⟩ | ⟨notLeft, onRight, rfl⟩⟩
      · have holds := each _ member
        rw [ConditionCompiled, if_pos onLeft] at holds
        rcases holds with ⟨v, w, found, rest⟩
        exact ⟨v, w,
          (Environment.value_shadow_inner outer onLeft edge).symm.trans found, rest⟩
      · have holds := each _ member
        rw [ConditionCompiled, if_neg notLeft, if_pos onRight] at holds
        rcases holds with ⟨v, w, found, rest⟩
        exact ⟨v, w,
          (Environment.value_shadow_inner outer onRight edge).symm.trans found, rest⟩

/-! ### What each kind becomes -/

variable {innerAlias : Option String} {outer : Environment} {edge : Properties}
variable {condition : WhereCondition}

/-- A condition with the edge on one side keeps its meaning. -/
theorem compiled_edgeOnOneSide
    (kind : conditionKind innerAlias condition = .edgeOnOneSide) :
    ConditionCompiled innerAlias outer edge condition ↔
      ConditionHolds (outer.shadow innerAlias edge)
        (outer.shadow innerAlias edge) condition := by
  cases condition with
  | property x filter =>
      have inner : some x = innerAlias := by
        by_contra other
        simp [conditionKind, other] at kind
      rw [ConditionCompiled, ConditionHolds, Environment.shadow_inner outer inner]
      simp [inner]
  | propertyComparison left op right =>
      rw [ConditionCompiled, ConditionHolds]
      by_cases onLeft : some left.aliasName = innerAlias
      · have notRight : ¬ some right.aliasName = innerAlias := by
          intro onRight
          simp [conditionKind, onLeft, onRight] at kind
        rw [if_pos onLeft, ComparisonHolds, ComparisonHolds,
          Environment.value_shadow_outer outer notRight]
      · have onRight : some right.aliasName = innerAlias := by
          by_contra notRight
          simp [conditionKind, onLeft, notRight] at kind
        rw [if_neg onLeft, if_pos onRight, ComparisonHolds, ComparisonHolds,
          Environment.value_shadow_outer outer onLeft]
        constructor
        · rintro ⟨v, w, found, resolved, holds⟩
          refine ⟨w, v, resolved, found, ?_⟩
          rw [← valuesMatch_flip]
          exact holds
        · rintro ⟨w, v, resolved, found, holds⟩
          refine ⟨v, w, found, resolved, ?_⟩
          rw [valuesMatch_flip]
          exact holds
  | aliasComparison left op right => cases kind
  | notExists nested => cases kind

/-- A literal condition on an outer alias is dropped, and so is what is ignored
anyway. -/
theorem compiled_dropped
    (kind : conditionKind innerAlias condition = .outerLiteral ∨
      conditionKind innerAlias condition = .ignored) :
    ConditionCompiled innerAlias outer edge condition := by
  cases condition with
  | property x filter =>
      intro inner
      simp [conditionKind, inner] at kind
  | propertyComparison left op right =>
      rw [ConditionCompiled]
      by_cases onLeft : some left.aliasName = innerAlias <;>
        by_cases onRight : some right.aliasName = innerAlias <;>
          simp [conditionKind, onLeft, onRight] at kind ⊢
  | aliasComparison left op right => trivial
  | notExists nested => trivial

/-- Of a comparison with the edge on both sides the right one is looked up
outside. -/
theorem compiled_edgeOnBothSides
    (kind : conditionKind innerAlias condition = .edgeOnBothSides) :
    ConditionCompiled innerAlias outer edge condition ↔
      ConditionHolds (outer.shadow innerAlias edge) outer condition := by
  cases condition with
  | property x filter =>
      by_cases inner : some x = innerAlias <;> simp [conditionKind, inner] at kind
  | propertyComparison left op right =>
      have onLeft : some left.aliasName = innerAlias := by
        by_contra notLeft
        by_cases onRight : some right.aliasName = innerAlias <;>
          simp [conditionKind, notLeft, onRight] at kind
      rw [ConditionCompiled, ConditionHolds, if_pos onLeft]
  | aliasComparison left op right => cases kind
  | notExists nested => cases kind

/-- The body, by kinds. -/
theorem bodyHolds_iff (subquery : ExistsSubquery) (outer : Environment)
    (edge : Properties) :
    BodyHolds subquery outer edge ↔ KeptHold subquery outer edge ∧
      ∀ condition ∈ subquery.whereConditions,
        conditionKind subquery.innerAlias condition = .outerLiteral ∨
          conditionKind subquery.innerAlias condition = .edgeOnBothSides →
        ConditionHolds (outer.shadow subquery.innerAlias edge)
          (outer.shadow subquery.innerAlias edge) condition := by
  constructor
  · intro body
    constructor
    · intro condition member kind
      apply body condition member
      rw [kind]
      exact nofun
    · intro condition member kind
      apply body condition member
      rcases kind with kind | kind <;> rw [kind] <;> exact nofun
  · rintro ⟨oneSide, others⟩ condition member considered
    cases kind : conditionKind subquery.innerAlias condition with
    | edgeOnOneSide => exact oneSide condition member kind
    | outerLiteral => exact others condition member (.inl kind)
    | edgeOnBothSides => exact others condition member (.inr kind)
    | ignored => exact absurd kind considered

/-- The compiled step, by kinds. -/
theorem compiledHolds_iff_kinds (subquery : ExistsSubquery) {step : AntiJoinStep}
    (compiled : compileAntiJoin subquery = .ok step) (outer : Environment)
    (edge : Properties) :
    CompiledHolds step outer edge ↔
      KeptHold subquery outer edge ∧ MisreadHold subquery outer edge := by
  rw [compiledHolds_iff subquery compiled]
  constructor
  · intro each
    constructor
    · intro condition member kind
      exact (compiled_edgeOnOneSide kind).mp (each condition member)
    · intro condition member kind
      exact (compiled_edgeOnBothSides kind).mp (each condition member)
  · rintro ⟨oneSide, bothSides⟩ condition member
    cases kind : conditionKind subquery.innerAlias condition with
    | edgeOnOneSide =>
        exact (compiled_edgeOnOneSide kind).mpr (oneSide condition member kind)
    | outerLiteral => exact compiled_dropped (.inl kind)
    | edgeOnBothSides =>
        exact (compiled_edgeOnBothSides kind).mpr (bothSides condition member kind)
    | ignored => exact compiled_dropped (.inr kind)

/-! ### When the losses matter -/

omit [Chrono] in
/-- A comparison with the edge on both sides names the edge's alias on both. -/
theorem aliases_of_edgeOnBothSides
    (kind : conditionKind innerAlias condition = .edgeOnBothSides) :
    ∃ left op right, condition = .propertyComparison left op right ∧
      some left.aliasName = innerAlias ∧ some right.aliasName = innerAlias := by
  cases condition with
  | property x filter =>
      by_cases inner : some x = innerAlias <;> simp [conditionKind, inner] at kind
  | propertyComparison left op right =>
      rw [conditionKind] at kind
      by_cases onLeft : some left.aliasName = innerAlias
      · by_cases onRight : some right.aliasName = innerAlias
        · exact ⟨left, op, right, rfl, onLeft, onRight⟩
        · simp [onLeft, onRight] at kind
      · by_cases onRight : some right.aliasName = innerAlias <;>
          simp [onLeft, onRight] at kind
  | aliasComparison left op right => cases kind
  | notExists nested => cases kind

/-- A comparison misread holds only where an outer alias has the name of the
edge and a value to read. -/
theorem outer_of_misread
    (kind : conditionKind innerAlias condition = .edgeOnBothSides)
    (holds : ConditionHolds (outer.shadow innerAlias edge) outer condition) :
    ∃ (inner : String) (properties : Properties) (property : String)
      (value : PropertyValue), innerAlias = some inner ∧
      outer inner = some properties ∧ properties[property]? = some value := by
  obtain ⟨left, op, right, rfl, -, onRight⟩ := aliases_of_edgeOnBothSides kind
  obtain ⟨v, w, -, read, -⟩ := holds
  obtain ⟨properties, bound, stored⟩ := Option.bind_eq_some_iff.mp read
  exact ⟨_, properties, _, w, onRight.symm, bound, stored⟩

/-- The outer binding with nothing stored under the alias of the subquery's
edge. -/
def Environment.emptied (outer : Environment) (innerAlias : Option String) :
    Environment :=
  fun x => if some x = innerAlias then (outer x).map fun _ => ∅ else outer x

omit [Chrono] in
/-- An environment without the subquery's edge binds what it bound. -/
theorem Environment.Binds.emptied {aliases : List String} (binds : outer.Binds aliases)
    (innerAlias : Option String) : (outer.emptied innerAlias).Binds aliases := by
  intro x
  rw [← binds x, Environment.emptied]
  split
  · rw [Option.isSome_map]
  · rfl

omit [Chrono] in
/-- What is shadowed makes no difference inside. -/
theorem Environment.shadow_emptied (outer : Environment) (innerAlias : Option String)
    (edge : Properties) :
    (outer.emptied innerAlias).shadow innerAlias edge = outer.shadow innerAlias edge := by
  funext x
  by_cases inner : some x = innerAlias
  · rw [Environment.shadow_inner _ inner, Environment.shadow_inner _ inner]
  · rw [Environment.shadow_outer _ inner, Environment.shadow_outer _ inner,
      Environment.emptied, if_neg inner]

/-- Nothing can be misread from an alias without properties. -/
theorem not_misreadHold_emptied {subquery : ExistsSubquery} {condition : WhereCondition}
    (member : condition ∈ subquery.whereConditions)
    (kind : conditionKind subquery.innerAlias condition = .edgeOnBothSides)
    (outer : Environment) (edge : Properties) :
    ¬ MisreadHold subquery (outer.emptied subquery.innerAlias) edge := by
  intro misread
  obtain ⟨inner, properties, property, value, named, bound, stored⟩ :=
    outer_of_misread kind (misread condition member kind)
  rw [Environment.emptied, if_pos named.symm] at bound
  obtain ⟨_, -, rfl⟩ := Option.map_eq_some_iff.mp bound
  simp at stored

/-- A subquery keeps its meaning under all outer bindings of some aliases
exactly if what compiling loses of it can never matter. -/
theorem lossHarmless_iff {subquery : ExistsSubquery} {step : AntiJoinStep}
    (compiled : compileAntiJoin subquery = .ok step) (aliases : List String) :
    (∀ outer, Environment.Binds outer aliases → ∀ edge,
      (BodyHolds subquery outer edge ↔ CompiledHolds step outer edge)) ↔
      LossHarmless aliases subquery := by
  simp only [compiledHolds_iff_kinds subquery compiled]
  constructor
  · intro preserved
    constructor
    · intro noneBothSides condition member kind outer edge binds kept
      have misread : MisreadHold subquery outer edge := fun other listed bothSides =>
        absurd bothSides (noneBothSides other listed)
      have body := (bodyHolds_iff subquery outer edge).mp
        ((preserved outer binds edge).mpr ⟨kept, misread⟩)
      exact body.2 condition member (.inl kind)
    · intro condition member kind outer edge binds
      have noBody : ¬ BodyHolds subquery outer edge := by
        intro body
        have same : BodyHolds subquery (outer.emptied subquery.innerAlias) edge := by
          rw [BodyHolds, Environment.shadow_emptied]
          exact body
        have compiledThere := (preserved _ (binds.emptied _) edge).mp same
        exact not_misreadHold_emptied member kind outer edge compiledThere.2
      refine ⟨noBody, fun _ _ _ both => noBody ((preserved outer binds edge).mpr both)⟩
  · intro harmless outer binds edge
    by_cases bothSides : ∃ condition ∈ subquery.whereConditions,
        conditionKind subquery.innerAlias condition = .edgeOnBothSides
    · obtain ⟨condition, member, kind⟩ := bothSides
      obtain ⟨noBody, noMisread⟩ :=
        harmless.contradicts condition member kind outer edge binds
      refine iff_of_false noBody ?_
      intro both
      obtain ⟨inner, _, _, _, named, bound, -⟩ :=
        outer_of_misread kind (both.2 condition member kind)
      exact noMisread inner ((binds inner).mp (Option.isSome_of_eq_some bound)) named both
    · have noneBothSides : ∀ condition ∈ subquery.whereConditions,
          conditionKind subquery.innerAlias condition ≠ .edgeOnBothSides :=
        fun condition member kind => bothSides ⟨condition, member, kind⟩
      rw [bodyHolds_iff]
      constructor
      · rintro ⟨kept, -⟩
        exact ⟨kept, fun condition member kind =>
          absurd kind (noneBothSides condition member)⟩
      · rintro ⟨kept, -⟩
        refine ⟨kept, fun condition member kind => ?_⟩
        rcases kind with kind | kind
        · exact harmless.follows noneBothSides condition member kind outer edge binds kept
        · exact absurd kind (noneBothSides condition member)

end Meaning

section

open scoped Social

/-- What is bound around the subqueries below: `a` and `b`, both people. -/
def acquaintancesScope : Scope := SchemaValidator.scopeOf Social.acquaintances.pattern

/-- `NOT EXISTS { MATCH (a)-[k:KNOWS]->(b) WHERE ... }`. -/
def noAcquaintance (conditions : List WhereCondition) : ExistsSubquery :=
  .mk
    { steps :=
        [.node { aliasName := "a", label := none, propertyFilters := [] },
         .edge { Social.typed Social.knows with aliasName := some "k" },
         .node { aliasName := "b", label := none, propertyFilters := [] }] }
    conditions

/-- `k.via = b.name`. -/
def viaIsName : WhereCondition :=
  .propertyComparison { aliasName := "k", property := "via" } .eq
    { aliasName := "b", property := "name" }

/-- `a` is Ann and `b` is Bob. -/
def annAndBob : Environment := fun x =>
  if x = "a" then some (Social.textual "name" "Ann")
  else if x = "b" then some (Social.textual "name" "Bob")
  else none

/-- A comparison of the edge with an outer node loses nothing. -/
theorem viaIsName_harmless : LossHarmless ["a", "b"] (noAcquaintance [viaIsName]) := by
  have single : ∀ condition ∈ (noAcquaintance [viaIsName]).whereConditions,
      conditionKind (noAcquaintance [viaIsName]).innerAlias condition =
        .edgeOnOneSide := by
    intro condition member
    rw [List.mem_singleton.mp member]
    rfl
  constructor
  · intro _ condition member kind
    rw [single condition member] at kind
    cases kind
  · intro condition member kind
    rw [single condition member] at kind
    cases kind

theorem annAndBob_binds : annAndBob.Binds ["a", "b"] := by
  intro x
  rw [annAndBob, List.mem_pair]
  by_cases isA : x = "a"
  · simp [isA]
  · by_cases isB : x = "b" <;> simp [isA, isB]

/-- `a.name = "Zoe"`. -/
def annIsZoe : WhereCondition :=
  .property "a" { property := "name", op := .eq, value := .string "Zoe" }

end

end GraphEngine
