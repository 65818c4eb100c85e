/-
Module: GraphEngine.Proofs.AliasSafety
Layer: Proofs
Purpose: When a validated query meets an alias that nothing binds.  Inside a
  `NOT EXISTS` the validator also accepts the alias of the subquery's own edge
  on both sides of a comparison; the compiler then takes one side for an outer
  reference, and the executor looks for it in the bindings.
Trusted boundary: none
Main exports: ReadsUnbound, BindsReads, AliasesFound, SelfCompares,
  readsUnbound_iff, SelfComparisonsUnreached, aliasesBound_iff
-/
import GraphEngine.Proofs.ExistsCompilation
import GraphEngine.Proofs.Topology

namespace GraphEngine

open NaivePlanner
open ScatterGatherExecutor

/-! ### Plans -/

/-- An outer condition of the anti-join refers to the alias `x`, which no step
before it binds. -/
def ReadsUnbound (before : List PlanStep) (step : AntiJoinStep) (x : String) : Prop :=
  (∃ condition ∈ step.outerConditions, condition.outer.aliasName = x) ∧
    x ∉ before.flatMap PlanStep.nodeAliases ∧ x ∉ before.flatMap PlanStep.edgeAliases

section Plans

variable [Chrono]

/-- The binding binds every alias that the step looks up: sources and anchors as
nodes, outer references as edges or nodes. -/
def BindsReads (b : Binding) : PlanStep → Prop
  | .expandHop step => step.fromAlias ∈ b.nodes
  | .antiJoin step => Anchored step b ∧ ¬ Lacking step b
  | .resolveStart _ | .resolveAll _ => True

/-- A binding reached lacks an outer alias exactly when no step before binds
it. -/
theorem lacks_iff {V : GraphView} {keep : AntiJoinStep → Binding → Prop}
    {start : PlanStep} {done : List PlanStep} {b : Binding}
    (reached : Reached V keep start done b) (step : AntiJoinStep) (x : String) :
    Lacks step b x ↔ ReadsUnbound (start :: done) step x := by
  rw [Lacks, ReadsUnbound, (reached.aliases x).1, (reached.aliases x).2]
  exact and_congr_right fun _ => and_comm

/-- A binding reached has everything that a scoped step reads, unless an outer
condition reads an unbound alias. -/
theorem bindsReads_iff {V : GraphView} {keep : AntiJoinStep → Binding → Prop}
    {start : PlanStep} {done : List PlanStep} {b : Binding}
    (reached : Reached V keep start done b) {step : PlanStep}
    (inScope : StepScoped ((start :: done).flatMap PlanStep.nodeAliases) step) :
    BindsReads b step ↔ ∀ antiJoin x, step = .antiJoin antiJoin →
      ¬ ReadsUnbound (start :: done) antiJoin x := by
  cases step with
  | resolveStart step => exact inScope.elim
  | resolveAll step => exact inScope.elim
  | expandHop step =>
      have bound : step.fromAlias ∈ b.nodes := (reached.aliases _).1.mpr inScope
      refine iff_of_true bound ?_
      rintro antiJoin x ⟨⟩
  | antiJoin step =>
      have anchored : Anchored step b :=
        ⟨(reached.aliases _).1.mpr inScope.1, (reached.aliases _).1.mpr inScope.2⟩
      rw [BindsReads, lacking_iff_lacks, not_exists]
      simp only [lacks_iff reached]
      constructor
      · rintro ⟨-, bound⟩ _ x ⟨⟩
        exact bound x
      · exact fun bound => ⟨anchored, fun x => bound step x rfl⟩

variable (hasher : Partitioning) (partitions : PartitionMap)
variable (serve : GenerationHandle → IndexGeneration)
variable {start : PlanStep} {steps : List PlanStep}

/-- The tables served lead some binding to an anti-join that reads an unbound
alias. -/
def Blocked (start : PlanStep) (steps : List PlanStep) : Prop :=
  ∃ done step later b x, steps = done ++ .antiJoin step :: later ∧
    Reached (clusterView hasher (servingOf partitions serve))
      (MayKeep hasher partitions serve) start done b ∧
    ReadsUnbound (start :: done) step x

/-- The only step that can fail is an anti-join that reads an unbound alias. -/
theorem readsUnbound_of_runStep_error {done : List PlanStep}
    {frontier : List Binding} {step : PlanStep}
    (inScope : StepScoped ((start :: done).flatMap PlanStep.nodeAliases) step)
    (sound : ∀ b ∈ frontier, Reached (clusterView hasher (servingOf partitions
          serve)) (MayKeep hasher partitions serve) start done b) {fault : Fault}
    (fails : ((inProcess hasher).runStep partitions frontier step).Returns serve
      (.error fault)) :
    ∃ antiJoin b x, step = .antiJoin antiJoin ∧ b ∈ frontier ∧
      ReadsUnbound (start :: done) antiJoin x := by
  cases step with
  | resolveStart step => exact inScope.elim
  | resolveAll step => exact inScope.elim
  | expandHop step =>
      rcases (expandStep_meets hasher partitions serve step frontier).error fails
        with ⟨b, member, unbound⟩
      exact absurd (((sound b member).aliases _).1.mpr inScope) unbound
  | antiJoin step =>
      rcases (executeAntiJoin_meets hasher partitions serve step frontier).error fails
        with
        ⟨sample, first, lacking⟩ | ⟨b, member, unanchored⟩
      · have member : sample ∈ frontier := List.mem_of_mem_head? first
        rcases lacking_iff_lacks.mp lacking with ⟨x, lacks⟩
        exact ⟨step, sample, x, rfl, member,
          (lacks_iff (sound sample member) step x).mp lacks⟩
      · have aliases := fun x => ((sound b member).aliases x).1
        exact absurd ⟨(aliases _).mpr inScope.1, (aliases _).mpr inScope.2⟩ unanchored

/-- A run that fails was blocked. -/
theorem blocked_of_execute_error (wellScoped : WellScoped start steps)
    {project : List ReturnItem} {fault : Fault}
    (fails : ((inProcess hasher).execute partitions
        ⟨start :: steps, project⟩).Returns serve (.error fault)) :
    Blocked hasher partitions serve start steps := by
  rw [execute_eq partitions _ wellScoped.isStart, Client.returns_bind_iff] at fails
  rcases fails with ⟨first, started, rest⟩ | ⟨e, fails, -⟩
  · rw [Client.returns_bind_iff] at rest
    rcases rest with ⟨_, _, ⟨⟩⟩ | ⟨e, fails, ⟨⟩⟩
    rcases Client.returns_foldlM_error_iff.mp fails
      with ⟨done, step, later, frontier, rfl, before, fails⟩
    have reachesHere : FrontierAfter hasher partitions serve start done frontier :=
      Client.returns_bind_iff.mpr (.inl ⟨first, started, before⟩)
    have sound := (steps_sound hasher partitions serve wellScoped.before).ok reachesHere
    rcases readsUnbound_of_runStep_error hasher partitions serve
      (wellScoped.stepScoped done step later rfl) sound fails
        with ⟨antiJoin, b, x, rfl, member, unbound⟩
    exact ⟨done, antiJoin, later, b, x, rfl, sound b member, unbound⟩
  · -- the start step cannot fail
    exact ((broadcastResolve_safe hasher partitions serve wellScoped.isStart).error
      fails).elim

/-- Where a binding is led to such an anti-join, some run fails on the alias. -/
theorem execute_unknownAlias_of_blocked (wellScoped : WellScoped start steps)
    (project : List ReturnItem)
    (blocked : Blocked hasher partitions serve start steps) :
    ∃ x, ((inProcess hasher).execute partitions ⟨start :: steps, project⟩).Returns serve
      (.error (.error (.unknownAlias x))) := by
  rcases blocked with ⟨done, step, later, b, y, rfl, reached, unbound⟩
  rcases (frontierAfter_iff hasher partitions serve wellScoped.before).mpr reached
    with ⟨frontier, comes, member⟩
  cases frontier with
  | nil => cases member
  | cons sample rest =>
      have sound := (steps_sound hasher partitions serve wellScoped.before).ok comes
      have lacks := (lacks_iff (sound sample List.mem_cons_self) step y).mpr unbound
      rcases executeAntiJoin_lacking (inProcess hasher) partitions rest
        (lacking_iff_lacks.mpr ⟨y, lacks⟩) with
        ⟨x, raised, -⟩
      rcases Client.returns_bind_iff.mp comes with ⟨first, started, before⟩ | ⟨_, _, ⟨⟩⟩
      have stepFails : ((inProcess hasher).runStep partitions (sample :: rest)
          (.antiJoin step)).Returns serve
          (.error (.error (.unknownAlias x))) := by
        rw [runStep, raised]
        exact .done _
      refine ⟨x, ?_⟩
      rw [execute_eq partitions _ wellScoped.isStart]
      refine Client.returns_bind_iff.mpr (.inl ⟨first, started, ?_⟩)
      refine Client.returns_bind_iff.mpr (.inr ⟨_, ?_, rfl⟩)
      exact Client.returns_foldlM_error_iff.mpr
        ⟨done, _, later, _, rfl, before, stepFails⟩

/-- Every step of the plan finds every alias that it looks up, in every binding
that comes to it. -/
def AliasesFound (start : PlanStep) (steps : List PlanStep) : Prop :=
  ∀ done step later frontier, steps = done ++ step :: later →
    FrontierAfter hasher partitions serve start done frontier →
      ∀ b ∈ frontier, BindsReads b step

/-- The steps find their aliases exactly when the tables lead no binding to an
anti-join that reads an unbound one. -/
theorem aliasesFound_iff (wellScoped : WellScoped start steps) :
    AliasesFound hasher partitions serve start steps ↔
      ¬ Blocked hasher partitions serve start steps := by
  constructor
  · rintro found ⟨done, step, later, b, x, rfl, reached, unbound⟩
    rcases (frontierAfter_iff hasher partitions serve wellScoped.before).mpr reached
      with ⟨frontier, comes, member⟩
    have binds := found done _ later frontier rfl comes b member
    exact (bindsReads_iff reached (wellScoped.stepScoped done _ later rfl)).mp binds
      step x rfl unbound
  · rintro unblocked done step later frontier rfl comes b member
    have reached :=
      (steps_sound hasher partitions serve wellScoped.before).ok comes b member
    refine (bindsReads_iff reached (wellScoped.stepScoped done step later rfl)).mpr ?_
    rintro antiJoin x rfl unbound
    exact unblocked ⟨done, antiJoin, later, b, x, rfl, reached, unbound⟩

end Plans

/-! ### Queries -/

/-- A `NOT EXISTS` compares two properties of its own edge, whose alias `x` is
none of the outer pattern's. -/
def SelfCompares (pattern : Pattern) (subquery : ExistsSubquery) (x : String) : Prop :=
  (∃ left op right, .propertyComparison left op right ∈ subquery.whereConditions ∧
    left.aliasName = x ∧ right.aliasName = x) ∧
  x ∈ edgeAliasesOf subquery.pattern.steps ∧ x ∉ nodeAliasesOf pattern.steps ∧
    x ∉ edgeAliasesOf pattern.steps

namespace SchemaValidator

/-- An alias that a property reference of a valid body may use is the body's own
edge or bound by the pattern. -/
theorem alias_of_propertyRef {schema : Schema} {pattern : Pattern}
    {edge : EdgePattern} {x property : String} {op : ComparisonOp}
    (valid : validatePropertyRef
      (Scope.bindEdge (scopeOf pattern) edge) schema x property op = []) :
    edge.aliasName = some x ∨ x ∈ nodeAliasesOf pattern.steps ∨
      x ∈ edgeAliasesOf pattern.steps := by
  rw [validatePropertyRef] at valid
  cases labelled : (Scope.bindEdge (scopeOf pattern) edge).nodeLabels[x]? with
  | some label =>
      rw [bindEdge_nodeLabels] at labelled
      rcases node_of_scopeOf labelled with ⟨node, member, named, -⟩
      exact .inr (.inl (List.mem_filterMap.mpr ⟨_, member, congrArg some named⟩))
  | none =>
      cases typed : (Scope.bindEdge (scopeOf pattern) edge).edgeTypes[x]? with
      | none =>
          rw [labelled, typed] at valid
          cases valid
      | some edgeType =>
          rcases bindEdge_edgeTypes typed with ⟨own, -⟩ | outside
          · exact .inl own
          · rcases edge_of_scopeOf outside with ⟨other, member, named, -⟩
            exact .inr (.inr (List.mem_filterMap.mpr ⟨_, member, named⟩))

end SchemaValidator

section Queries

variable {query : Query} {schema : Schema} {queryPlan : QueryPlan} {first : NodePattern}
variable {segments : List (EdgePattern × NodePattern)} {start : PlanStep}
variable {antiJoins : List PlanStep}

/-- An anti-join of a plan comes after all expansions. -/
theorem before_antiJoin {done later : List PlanStep} {step : AntiJoinStep}
    (split : hopsOf query first.aliasName segments ++ antiJoins = done ++
      .antiJoin step :: later) :
    ∃ earlier, done = hopsOf query first.aliasName segments ++ earlier ∧
      antiJoins = earlier ++ .antiJoin step :: later := by
  rcases List.append_eq_append_iff.mp split with ⟨before, same,
    rest⟩ | ⟨after, hops, rest⟩
  · exact ⟨before, same, rest⟩
  · cases after with
    | nil =>
        rw [List.append_nil] at hops
        exact ⟨[], by rw [List.append_nil, hops], rest.symm⟩
    | cons head after =>
        rw [List.cons_append, List.cons.injEq] at rest
        rcases hopsOf_split hops with ⟨_, _, _, _, _, _, same, _⟩
        rw [← rest.1] at same
        cases same

/-- Whatever comes before an anti-join of a plan binds the aliases of the
pattern. -/
theorem aliases_before_antiJoin
    (shape : PlanShape query queryPlan first segments start antiJoins)
    {done later : List PlanStep} {step : AntiJoinStep}
    (split : hopsOf query first.aliasName segments ++ antiJoins = done ++
      .antiJoin step :: later) :
    (start :: done).flatMap PlanStep.nodeAliases = nodeAliasesOf query.pattern.steps ∧
      (start :: done).flatMap PlanStep.edgeAliases =
        edgeAliasesOf query.pattern.steps := by
  rcases before_antiJoin split with ⟨earlier, rfl, rfl⟩
  rcases aliases_antiJoins shape with ⟨noNodes, noEdges⟩
  rw [List.flatMap_append, List.append_eq_nil_iff] at noNodes noEdges
  rcases start_isStart shape.started with ⟨-, startNodes, startEdges⟩
  rw [List.flatMap_cons, List.flatMap_append, List.flatMap_cons, List.flatMap_append,
    startNodes, startEdges, nodeAliases_hopsOf, edgeAliases_hopsOf, noNodes.1,
    noEdges.1, shape.patternEq]
  constructor
  · rw [List.append_nil, ← nodeAliasesOf_segmentSteps]
    rfl
  · rw [List.append_nil, ← edgeAliasesOf_segmentSteps]
    rfl

/-- In the plan of a validated query an anti-join reads an unbound alias exactly
when its subquery compares its edge with itself. -/
theorem readsUnbound_iff (valid : SchemaValidator.violations query schema = [])
    (shape : PlanShape query queryPlan first segments start antiJoins)
    {done later : List PlanStep} {step : AntiJoinStep}
    (split : hopsOf query first.aliasName segments ++ antiJoins = done ++
      .antiJoin step :: later) {subquery : ExistsSubquery}
    (listed : .notExists subquery ∈ query.whereConditions)
    (compiled : compileAntiJoin subquery = .ok step) {x : String} :
    ReadsUnbound (start :: done) step x ↔ SelfCompares query.pattern subquery x := by
  rcases SchemaValidator.notExists_valid
    (SchemaValidator.whereCondition_valid valid listed) with
    ⟨fromNode, edge, toNode, validExists⟩
  have steps := validExists.steps
  have checked := validExists.conditions
  rcases compileAntiJoin_ok compiled with ⟨fromNode', edge', toNode', steps', rfl⟩
  rw [steps] at steps'
  cases steps'
  have inner : ∀ x, x ∈ edgeAliasesOf subquery.pattern.steps ↔
      edge.aliasName = some x := by
    intro x
    rw [steps]
    cases aliased : edge.aliasName <;> simp [edgeAliasesOf, aliased, eq_comm]
  rw [ReadsUnbound, SelfCompares, (aliases_before_antiJoin shape split).1,
    (aliases_before_antiJoin shape split).2]
  constructor
  · rintro ⟨⟨condition, member, rfl⟩, notNode, notEdge⟩
    rcases List.mem_filterMap.mp member with ⟨whereCondition, inBody, compiledTo⟩
    cases whereCondition with
    | property aliasName filter => cases compiledTo
    | aliasComparison left op right => cases compiledTo
    | notExists nested => cases compiledTo
    | propertyComparison left op right =>
        have references := checked _ inBody
        rw [SchemaValidator.validateWhereConditionWith,
          List.append_eq_nil_iff] at references
        dsimp only at compiledTo
        split at compiledTo
        case isTrue leftInner =>
          cases compiledTo
          rcases SchemaValidator.alias_of_propertyRef references.2
            with own | bound | bound
          · have same : left.aliasName = right.aliasName :=
              Option.some.inj (leftInner.trans own)
            exact ⟨⟨left, op, right, inBody, same, rfl⟩, (inner _).mpr own,
              notNode, notEdge⟩
          · exact absurd bound notNode
          · exact absurd bound notEdge
        case isFalse leftOuter =>
          split at compiledTo
          case isFalse => cases compiledTo
          case isTrue =>
            cases compiledTo
            rcases SchemaValidator.alias_of_propertyRef references.1
              with own | bound | bound
            · exact absurd own.symm leftOuter
            · exact absurd bound notNode
            · exact absurd bound notEdge
  · rintro ⟨⟨left, op, right, inBody, rfl, same⟩, own, notNode, notEdge⟩
    rw [inner] at own
    refine ⟨⟨⟨left.property, op, right⟩, ?_, same⟩, notNode, notEdge⟩
    refine List.mem_filterMap.mpr ⟨_, inBody, ?_⟩
    dsimp only
    rw [if_pos own.symm]

/-- The tables served lead no binding to a `NOT EXISTS` that compares its edge
with itself: none starts at the start step, makes the hops over the edges
served, passes their filters and is kept by the conditions listed before. -/
def SelfComparisonsUnreached [Chrono] (hasher : Partitioning)
    (partitions : PartitionMap) (serve : GenerationHandle → IndexGeneration)
    (query : Query) (queryPlan : QueryPlan) : Prop :=
  ∀ subquery x antiJoin start done later b, .notExists subquery ∈ query.whereConditions →
    SelfCompares query.pattern subquery x → compileAntiJoin subquery = .ok antiJoin →
    queryPlan.steps = start :: (done ++ .antiJoin antiJoin :: later) →
    ¬ Reached (clusterView hasher (servingOf partitions serve))
      (MayKeep hasher partitions serve) start done b

/-- In a validated query only these anti-joins can block a run. -/
theorem blocked_iff [Chrono] (hasher : Partitioning) (partitions : PartitionMap)
    (serve : GenerationHandle → IndexGeneration)
    (valid : SchemaValidator.violations query schema = [])
    (shape : PlanShape query queryPlan first segments start antiJoins) :
    ¬ Blocked hasher partitions serve start
      (hopsOf query first.aliasName segments ++ antiJoins) ↔
      SelfComparisonsUnreached hasher partitions serve query queryPlan := by
  have steps : queryPlan.steps = start ::
      (hopsOf query first.aliasName segments ++ antiJoins) := by
    rw [shape.planEq]
  constructor
  · rintro unblocked subquery x antiJoin _ done later b listed selfCompares compiled
      position reached
    rw [steps] at position
    obtain ⟨rfl, split⟩ := List.cons.inj position
    have unbound := (readsUnbound_iff valid shape split listed compiled).mpr selfCompares
    exact unblocked ⟨done, antiJoin, later, b, x, split, reached, unbound⟩
  · rintro unreached ⟨done, antiJoin, later, b, x, split, reached, unbound⟩
    rcases before_antiJoin split with ⟨earlier, -, joined⟩
    have planned : .antiJoin antiJoin ∈ antiJoins := by
      rw [joined]
      simp
    rcases mem_planAntiJoins shape.joined planned with ⟨subquery, _, listed, compiled, ⟨⟩⟩
    have selfCompares := (readsUnbound_iff valid shape split listed compiled).mp unbound
    exact unreached subquery x antiJoin start done later b listed selfCompares
      compiled (by rw [steps, split]) reached

/-- A validated query never fails on an alias exactly when no binding is led to
a `NOT EXISTS` that compares its edge with itself, and that is also exactly when
every step finds every alias that it looks up, in every binding that comes to
it.  Nothing is assumed of the tables: any generations may be served, and
partitions without a replica are allowed. -/
theorem aliasesBound_iff [Chrono] (hasher : Partitioning)
    (partitions : PartitionMap) (serve : GenerationHandle → IndexGeneration)
    (valid : SchemaValidator.validate query schema = .ok ())
    (planned : NaivePlanner.plan query = .ok queryPlan) :
    ((∀ x, ¬ ((inProcess hasher).execute partitions queryPlan).Returns serve
        (.error (.error (.unknownAlias x)))) ↔
      SelfComparisonsUnreached hasher partitions serve query queryPlan) ∧
    ((∀ start steps, queryPlan.steps = start :: steps →
        AliasesFound hasher partitions serve start steps) ↔
      SelfComparisonsUnreached hasher partitions serve query queryPlan) := by
  rcases planShape_of_plan planned with ⟨first, segments, start, antiJoins, shape⟩
  have checked := SchemaValidator.validate_eq_ok_iff.mp valid
  have wellScoped := wellScoped_of_plan checked shape
  have blocked := blocked_iff hasher partitions serve checked shape
  constructor
  · rw [← blocked, shape.planEq]
    constructor
    · intro never blockedRun
      rcases execute_unknownAlias_of_blocked hasher partitions serve wellScoped _
        blockedRun with ⟨x, fails⟩
      exact never x fails
    · exact fun unblocked x fails =>
        unblocked (blocked_of_execute_error hasher partitions serve wellScoped fails)
  · rw [← blocked, shape.planEq, ← aliasesFound_iff hasher partitions serve wellScoped]
    constructor
    · exact fun each => each _ _ rfl
    · rintro found _ _ ⟨⟩
      exact found

end Queries

section

open scoped Social

/-- `MATCH (a:Person)-[:KNOWS]->(b:Person) WHERE NOT EXISTS
{ MATCH (a)-[k:KNOWS]->(b) WHERE ... } RETURN b`. -/
def withoutAcquaintance (condition : WhereCondition) : Query :=
  { Social.acquaintances with
      whereConditions := [.notExists (noAcquaintance [condition])] }

/-- A comparison of the subquery's edge with an outer node is safe. -/
theorem viaIsName_aliasesBound : ∃ queryPlan,
    NaivePlanner.plan (withoutAcquaintance viaIsName) = .ok queryPlan ∧
    ∀ x, ¬ ((inProcess Social.single).execute
      (deployment Social.single) queryPlan).Returns
      (Social.dataset.deployed Social.single) (.error (.error (.unknownAlias x))) := by
  refine ⟨_, rfl, (aliasesBound_iff Social.single (deployment Social.single) _
    (by decide : SchemaValidator.validate
      (withoutAcquaintance viaIsName) Social.schema = .ok ())
    rfl).1.mpr ?_⟩
  rintro subquery x antiJoin start done later b listed
    ⟨⟨left, op, right, inBody, isLeft, isRight⟩, -⟩
  cases List.mem_singleton.mp listed
  cases List.mem_singleton.mp inBody
  exact absurd (isLeft.trans isRight.symm) (by decide)

/-- `k.via = k.via`. -/
def viaIsVia : WhereCondition :=
  .propertyComparison { aliasName := "k", property := "via" } .eq
    { aliasName := "k", property := "via" }

/-- The validator accepts the comparison of the subquery's edge with itself, and
the executor fails on it: no binding binds `k`. -/
theorem viaIsVia_fails :
    SchemaValidator.validate (withoutAcquaintance viaIsVia) Social.schema = .ok () ∧
    Social.dataset.ServedBy Social.single (deployment Social.single)
      (Social.dataset.deployed Social.single) ∧
    FullyReachable Social.single (deployment Social.single) ∧
    ∃ queryPlan, NaivePlanner.plan (withoutAcquaintance viaIsVia) = .ok queryPlan ∧
      ((inProcess Social.single).execute (deployment Social.single) queryPlan).run
        (fun _ => Social.dataset.deployed Social.single) Social.inOrder 0 =
          .error (.error (.unknownAlias "k")) :=
  ⟨by decide, served_deployment _ _, fullyReachable_deployment _, _,
    rfl, by decide +kernel⟩

end

end GraphEngine
