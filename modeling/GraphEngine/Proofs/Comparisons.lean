/-
Module: GraphEngine.Proofs.Comparisons
Layer: Proofs
Purpose: Which stored values the executor compares with which literals.  The
  evaluators of conditions, with a note of every comparison they make; the
  comparisons of the runs of a plan; and the rows of the tables served, of which
  these comparisons are made.
Trusted boundary: none
Main exports: evaluateFiltersNoted, candidateNoted, NodeCompared, EdgeCompared,
  HopLooksAt, CandidateLooksAt, nodeCompared_iff, edgeCompared_sound,
  edgeCompared_complete
-/
import GraphEngine.Proofs.Execute

namespace GraphEngine

open Std (ExtTreeSet)
open ScatterGatherExecutor
open SimpleLocalExecutor (candidateExists landsOn)

/-- A stored value, and the filter with whose literal it is compared. -/
structure Comparison where
  filter : PropertyFilter
  value : PropertyValue

section Noted

variable [Chrono]

/-! ### Evaluation with a note of the comparisons -/

/-- A filter compares the value that a row has under its property, if it has
one. -/
def comparisonsOf (properties : Properties) (filter : PropertyFilter) : List Comparison :=
  match properties[filter.property]? with
  | some value => [{ filter, value }]
  | none => []

/-- `evaluate_filters`, which stops at the first filter that does not hold, with
a note of what it compares. -/
def evaluateFiltersNoted (properties : Properties) :
    List PropertyFilter → List Comparison × Bool
  | [] => ([], true)
  | filter :: rest =>
      if evaluateFilter properties filter then
        (comparisonsOf properties filter ++ (evaluateFiltersNoted properties rest).1,
          (evaluateFiltersNoted properties rest).2)
      else (comparisonsOf properties filter, false)

/-- The note does not change the outcome. -/
theorem evaluateFiltersNoted_erased (properties : Properties)
    (filters : List PropertyFilter) :
    (evaluateFiltersNoted properties filters).2 = evaluateFilters properties filters := by
  induction filters with
  | nil => rfl
  | cons filter rest inductionHypothesis =>
      rw [evaluateFiltersNoted, evaluateFilters, List.all_cons]
      split
      case isTrue holds => rw [holds, Bool.true_and, inductionHypothesis, evaluateFilters]
      case isFalse fails => rw [Bool.eq_false_iff.mpr fails, Bool.false_and]

variable (generation : IndexGeneration) (step : AntiJoinStep) (toNode : NodeId)

/-- The search of `check_anti_join` for a candidate edge, which stops at the
first that satisfies all conditions, with a note of what it compares in which
record. -/
def candidateNoted (conditions : List PropertyFilter) :
    List AdjacencyEntry → List (EdgeRecord × Comparison) × Bool
  | [] => ([], false)
  | entry :: rest =>
      if typeMatches step.edgeType entry && landsOn entry toNode then
        match generation.edgeRecords[entry.edgeId]? with
        | none => candidateNoted conditions rest
        | some record =>
            let checked := evaluateFiltersNoted record.properties conditions
            if checked.2 then (checked.1.map (record, ·), true)
            else (checked.1.map (record, ·) ++ (candidateNoted conditions rest).1,
              (candidateNoted conditions rest).2)
      else candidateNoted conditions rest

/-- The note does not change the outcome. -/
theorem candidateNoted_erased (conditions : List PropertyFilter) (fromNode : NodeId) :
    (candidateNoted generation step toNode conditions
      (generation.neighbors step.direction fromNode)).2 =
      candidateExists generation step conditions fromNode toNode := by
  rw [candidateExists]
  induction generation.neighbors step.direction fromNode with
  | nil => rfl
  | cons entry rest inductionHypothesis =>
      rw [candidateNoted, List.any_cons, ← inductionHypothesis]
      split
      case isFalse other =>
        rw [Bool.eq_false_iff.mpr other, Bool.false_and, Bool.false_or]
      case isTrue between =>
        rw [between, Bool.true_and]
        cases generation.edgeRecords[entry.edgeId]? with
        | none => rw [Bool.false_or]
        | some record =>
            dsimp only
            rw [← evaluateFiltersNoted_erased]
            split
            case isTrue satisfied => rw [satisfied, Bool.true_or]
            case isFalse failed => rw [Bool.eq_false_iff.mpr failed, Bool.false_or]

/-! ### What a note can hold -/

/-- A value compared is the one that the row has under the property of a filter
of the list. -/
theorem mem_evaluateFiltersNoted {properties : Properties}
    {filters : List PropertyFilter} {made : Comparison}
    (noted : made ∈ (evaluateFiltersNoted properties filters).1) :
    made.filter ∈ filters ∧ properties[made.filter.property]? = some made.value := by
  induction filters with
  | nil => cases noted
  | cons filter rest inductionHypothesis =>
      have first : made ∈ comparisonsOf properties filter →
          made.filter ∈ filter :: rest ∧
            properties[made.filter.property]? = some made.value := by
        intro here
        rw [comparisonsOf] at here
        split at here
        case h_1 value found =>
          cases List.mem_singleton.mp here
          exact ⟨List.mem_cons_self, found⟩
        case h_2 => cases here
      rw [evaluateFiltersNoted] at noted
      split at noted
      case isTrue =>
        rcases List.mem_append.mp noted with here | later
        · exact first here
        · rcases inductionHypothesis later with ⟨member, found⟩
          exact ⟨List.mem_cons_of_mem _ member, found⟩
      case isFalse => exact first noted

/-- A record compared is one that the generation has, and the comparison one of
the evaluation on it. -/
theorem mem_candidateNoted {conditions : List PropertyFilter}
    {entries : List AdjacencyEntry} {record : EdgeRecord} {made : Comparison}
    (noted : (record, made) ∈
      (candidateNoted generation step toNode conditions entries).1) :
    (∃ e : EdgeId, generation.edgeRecords[e]? = some record) ∧
      made ∈ (evaluateFiltersNoted record.properties conditions).1 := by
  induction entries with
  | nil => cases noted
  | cons entry rest inductionHypothesis =>
      rw [candidateNoted] at noted
      split at noted
      case isFalse => exact inductionHypothesis noted
      case isTrue =>
        cases found : generation.edgeRecords[entry.edgeId]? with
        | none =>
            rw [found] at noted
            exact inductionHypothesis noted
        | some stored =>
            have here : (record, made) ∈ (evaluateFiltersNoted stored.properties
                conditions).1.map (stored, ·) →
                (∃ e : EdgeId, generation.edgeRecords[e]? = some record) ∧
                  made ∈ (evaluateFiltersNoted record.properties conditions).1 := by
              intro inNote
              rcases List.mem_map.mp inNote with ⟨made', member, same⟩
              cases same
              exact ⟨⟨_, found⟩, member⟩
            rw [found] at noted
            dsimp only at noted
            split at noted
            case isTrue => exact here noted
            case isFalse =>
              rcases List.mem_append.mp noted with inNote | later
              · exact here inNote
              · exact inductionHypothesis later

/-! ### Conditions that compare equal -/

omit [Chrono] in
/-- The same value is compared with literals that compare equal. -/
def Comparison.Alike (made made' : Comparison) : Prop :=
  made.filter.beq made'.filter = true ∧ made.value = made'.value

omit [Chrono] in
/-- Filters that are equal to the executor make the same comparisons. -/
theorem comparisonsOf_congr {filter filter' : PropertyFilter}
    (equal : filter.beq filter' = true) (properties : Properties) :
    List.Forall₂ Comparison.Alike (comparisonsOf properties filter)
      (comparisonsOf properties filter') := by
  have same : filter.property = filter'.property := by
    simp only [PropertyFilter.beq, Bool.and_eq_true, decide_eq_true_eq] at equal
    exact equal.1.1
  rw [comparisonsOf, comparisonsOf, ← same]
  cases properties[filter.property]? with
  | none => exact .nil
  | some value => exact .cons ⟨equal, rfl⟩ .nil

/-- Filters that are equal to the executor note the same comparisons, in order. -/
theorem evaluateFiltersNoted_congr {filters filters' : List PropertyFilter}
    (equal : PropertyFilter.listBeq filters filters' = true) (properties : Properties) :
    List.Forall₂ Comparison.Alike (evaluateFiltersNoted properties filters).1
      (evaluateFiltersNoted properties filters').1 := by
  induction filters generalizing filters' with
  | nil =>
      cases filters' with
      | nil => exact .nil
      | cons filter' rest' => cases equal
  | cons filter rest inductionHypothesis =>
      cases filters' with
      | nil => cases equal
      | cons filter' rest' =>
          rw [PropertyFilter.listBeq, Bool.and_eq_true] at equal
          rw [evaluateFiltersNoted, evaluateFiltersNoted, ← evaluateFilter_congr equal.1]
          have first := comparisonsOf_congr equal.1 properties
          split
          · exact List.rel_append first (inductionHypothesis equal.2)
          · exact first

/-- Conditions that are equal to the executor look at the same candidates. -/
theorem candidateNoted_congr {conditions conditions' : List PropertyFilter}
    (equal : PropertyFilter.listBeq conditions conditions' = true)
    (entries : List AdjacencyEntry) :
    List.Forall₂ (fun found found' => found.1 = found'.1 ∧ found.2.Alike found'.2)
      (candidateNoted generation step toNode conditions entries).1
      (candidateNoted generation step toNode conditions' entries).1 := by
  induction entries with
  | nil => exact .nil
  | cons entry rest inductionHypothesis =>
      rw [candidateNoted, candidateNoted]
      split
      case isFalse => exact inductionHypothesis
      case isTrue =>
        cases generation.edgeRecords[entry.edgeId]? with
        | none => exact inductionHypothesis
        | some record =>
            have here : List.Forall₂ (fun found found' : EdgeRecord × Comparison =>
                found.1 = found'.1 ∧ found.2.Alike found'.2)
                ((evaluateFiltersNoted record.properties conditions).1.map (record, ·))
                ((evaluateFiltersNoted record.properties conditions').1.map
                  (record, ·)) := by
              rw [List.forall₂_map_left_iff, List.forall₂_map_right_iff]
              exact (evaluateFiltersNoted_congr equal record.properties).imp
                fun _ _ alike => ⟨rfl, alike⟩
            dsimp only
            rw [evaluateFiltersNoted_erased, evaluateFiltersNoted_erased,
              evaluateFilters_congr equal]
            split
            · exact here
            · exact List.rel_append here inductionHypothesis

end Noted

/-! ### The comparisons of a run -/

section Runs

variable [Chrono] (hasher : Partitioning) (partitions : PartitionMap)
variable (serve : GenerationHandle → IndexGeneration) (start : PlanStep)
variable (steps : List PlanStep)

/-- A run of the plan makes a comparison in a node record: `filter_frontier`
evaluates the filters of a hop on the record that it has fetched for the target
of an expanded binding. -/
inductive NodeCompared (record : NodeRecord) (made : Comparison) : Prop where
  | filterFrontier {done later : List PlanStep} {step : ExpandHop}
      {frontier expanded : List Binding}
      {ids : List NodeId} {properties : Std.ExtTreeMap NodeId NodeRecord compare}
      {b : Binding} {v : NodeId}
      (position : steps = done ++ .expandHop step :: later)
      (comes : FrontierAfter hasher partitions serve start done frontier)
      (expands : ((inProcess hasher).scatterGatherHop partitions step
          frontier).Returns serve (.ok expanded))
      (asked : ids.Perm
        (ExtTreeSet.ofList
          (expanded.filterMap fun b => b.nodes[step.toAlias]?) compare).toList)
      (fetched : ((inProcess hasher).getNodeProperties partitions ids).Returns serve
        (.ok properties))
      (member : b ∈ expanded) (bound : b.nodes[step.toAlias]? = some v)
      (found : properties[v]? = some record)
      (compares : made ∈ (evaluateFiltersNoted record.properties step.filters).1)

/-- A run of the plan makes a comparison in an edge record: `check_anti_join` is
sent a binding with the conditions of its group and searches the edges of its
source for a candidate. -/
inductive EdgeCompared (record : EdgeRecord) (made : Comparison) : Prop where
  | checkAntiJoin {done later : List PlanStep} {step : AntiJoinStep}
      {sample : Binding} {rest : List Binding}
      {groups : List (List PropertyFilter × List Binding)}
      {group : List PropertyFilter × List Binding}
      {b : Binding} {u v : NodeId} {replica : ReplicaEndpoint}
      (position : steps = done ++ .antiJoin step :: later)
      (comes : FrontierAfter hasher partitions serve start done (sample :: rest))
      (grouped : ((inProcess hasher).conditionGroups partitions step sample
          (sample :: rest)).Returns serve
        (.ok groups))
      (listed : group ∈ groups) (member : b ∈ group.2)
      (boundFrom : b.nodes[step.fromAlias]? = some u)
      (boundTo : b.nodes[step.toAlias]? = some v)
      (picked : pickReplica partitions (hasher.partition u) = some replica)
      (compares : (record, made) ∈ (candidateNoted (serve replica.handle) step v group.1
        ((serve replica.handle).neighbors step.direction u)).1)

/-! ### The rows compared -/

/-- The pattern leads to a node whose record the filters of a hop are evaluated
on. -/
inductive HopLooksAt (record : NodeRecord) (made : Comparison) : Prop where
  | target {done later : List PlanStep} {step : ExpandHop} {a b : Binding} {v : NodeId}
      (position : steps = done ++ .expandHop step :: later)
      (reached : Reached (clusterView hasher (servingOf partitions serve))
        (MayKeep hasher partitions serve) start
        done a)
      (hop : HopReaches (clusterView hasher (servingOf partitions serve)) step a b)
      (bound : b.nodes[step.toAlias]? = some v)
      (recorded : (clusterView hasher (servingOf partitions serve)).nodeRecord v record)
      (compares : made ∈ (evaluateFiltersNoted record.properties step.filters).1)

/-- The pattern leads to two nodes that a `NOT EXISTS` is about, and the search
for a candidate edge between them comes to the record. -/
inductive CandidateLooksAt (record : EdgeRecord) (made : Comparison) : Prop where
  | candidate {done later : List PlanStep} {step : AntiJoinStep} {b : Binding}
      {order : List PartitionId}
      {u v : NodeId} {generation : IndexGeneration} {resolved : List PropertyFilter}
      (position : steps = done ++ .antiJoin step :: later)
      (reached : Reached (clusterView hasher (servingOf partitions serve))
        (MayKeep hasher partitions serve) start
        done b)
      (perm : order.Perm partitions.replicasByPartition.keys)
      (related : List.Forall₂
        (ResolvesTo (searchView hasher (servingOf partitions serve) order) b)
        step.outerConditions resolved)
      (boundFrom : b.nodes[step.fromAlias]? = some u)
      (boundTo : b.nodes[step.toAlias]? = some v)
      (serves : servingOf partitions serve (hasher.partition u) = some generation)
      (compares : (record, made) ∈
        (candidateNoted generation step v (step.literalConditions ++ resolved)
        (generation.neighbors step.direction u)).1)

variable {hasher partitions serve start steps}

/-- The node records compared in the runs are those that the pattern leads to. -/
theorem nodeCompared_iff (wellScoped : WellScoped start steps) {record : NodeRecord}
    {made : Comparison} :
    NodeCompared hasher partitions serve start steps record made ↔
      HopLooksAt hasher partitions serve start steps record made := by
  constructor
  · rintro ⟨position, comes, expands, asked, fetched, member, bound, found, compares⟩
    subst position
    have expanded := (scatterGatherHop_meets hasher partitions serve _ _).ok expands
    rcases (expanded _).mp member with ⟨a, inFrontier, hop⟩
    have reached :=
      (steps_sound hasher partitions serve wellScoped.before).ok comes a inFrontier
    have stored := (@getNodeProperties_meets _ hasher partitions serve
      (fun _ => False) _).ok fetched
    exact ⟨rfl, reached, hop, bound, ((stored _ _).mp found).2, compares⟩
  · rintro (@⟨done, later, step, a, b, v, position, reached, hop, bound,
        recorded, compares⟩)
    subst position
    rcases (frontierAfter_iff hasher partitions serve wellScoped.before).mpr reached
      with ⟨frontier, comes, member⟩
    have meets := scatterGatherHop_meets hasher partitions serve step frontier
    rcases Client.exists_returns serve
      ((inProcess hasher).scatterGatherHop partitions step frontier) with
      ⟨fault | expanded, expands⟩
    · -- the source of the hop is bound
      rcases meets.error expands with ⟨other, inFrontier, unbound⟩
      have earlier := (steps_sound hasher partitions serve wellScoped.before).ok comes
        other inFrontier
      exact absurd ((earlier.aliases _).1.mpr
        (wellScoped.stepScoped done _ later rfl)) unbound
    · have inExpanded := (meets.ok expands b).mpr ⟨a, member, hop⟩
      rcases (@getNodeProperties_meets _ hasher partitions serve (fun _ => False)
        (ExtTreeSet.ofList (expanded.filterMap fun b => b.nodes[step.toAlias]?)
          compare).toList).exists_ok with
        ⟨properties, fetched, stored⟩
      refine ⟨rfl, comes, expands, .refl _, fetched, inExpanded, bound,
        (stored v record).mpr ⟨?_, recorded⟩, compares⟩
      rw [ExtTreeSet.mem_toList, mem_setOfList, List.mem_filterMap]
      exact ⟨b, inExpanded, bound⟩

/-- What the search compares under the conditions of a group, it compares alike
under conditions that are equal. -/
theorem alike_of_label {generation : IndexGeneration} {step : AntiJoinStep}
    {v : NodeId} {conditions conditions' : List PropertyFilter}
    {entries : List AdjacencyEntry} {record : EdgeRecord} {made : Comparison}
    (label : conditions = conditions' ∨
      PropertyFilter.listBeq conditions conditions' = true) :
    ((record, made) ∈ (candidateNoted generation step v conditions entries).1 →
      ∃ other,
        (record, other) ∈ (candidateNoted generation step v conditions' entries).1 ∧
        (made = other ∨ made.Alike other)) ∧
    ((record, made) ∈ (candidateNoted generation step v conditions' entries).1 →
      ∃ other, (record, other) ∈ (candidateNoted generation step v conditions entries).1 ∧
        (other = made ∨ other.Alike made)) := by
  rcases label with rfl | equal
  · exact ⟨fun found => ⟨made, found, .inl rfl⟩, fun found => ⟨made, found, .inl rfl⟩⟩
  · have partners :=
      forall₂_partner (candidateNoted_congr generation step v equal entries)
    constructor
    · intro found
      rcases partners.2 _ found with ⟨⟨record', other⟩, found', rfl, alike⟩
      exact ⟨other, found', .inr alike⟩
    · intro found
      rcases partners.1 _ found with ⟨⟨record', other⟩, found', rfl, alike⟩
      exact ⟨other, found', .inr alike⟩

/-- The edge records compared in the runs are those that the search for a
candidate comes to. -/
theorem edgeCompared_sound (wellScoped : WellScoped start steps)
    {record : EdgeRecord} {made : Comparison}
    (compared : EdgeCompared hasher partitions serve start steps record made) :
    ∃ own, CandidateLooksAt hasher partitions serve start steps record own ∧
      (made = own ∨ made.Alike own) := by
  rcases compared with ⟨position, comes, grouped, listed, member, boundFrom, boundTo,
    picked, compares⟩
  subst position
  rcases (conditionGroups_meetsBy hasher partitions serve _ _ _).sound.ok grouped with
    ⟨order, perm, -, hydrated, hydrates, groups, -⟩
  rcases groups.sound _ listed _ member with ⟨inFrontier, conditions, resolves, label⟩
  have sound := (steps_sound hasher partitions serve wellScoped.before).ok comes
  have aliases := aliasesAs_of_reached (sound _ List.mem_cons_self) (sound _ inFrontier)
  rcases (resolveAll_iff hydrates (searchView_edgesAgree _ _ _) inFrontier
    (aliases _)).mp resolves with
    ⟨resolved, related, rfl⟩
  rcases (alike_of_label label).1 compares with ⟨own, found, alike⟩
  exact ⟨own, ⟨rfl, sound _ inFrontier, perm, related, boundFrom, boundTo,
      servingOf_of_pick serve picked, found⟩,
    alike⟩

/-- Whatever record the search for a candidate comes to is compared in a run, by
the conditions its group has. -/
theorem edgeCompared_complete (wellScoped : WellScoped start steps)
    {record : EdgeRecord} {own : Comparison}
    (looks : CandidateLooksAt hasher partitions serve start steps record own) :
    ∃ made, EdgeCompared hasher partitions serve start steps record made ∧
      (made = own ∨ made.Alike own) := by
  rcases looks with @⟨done, later, step, b, order, u, v, generation, resolved,
    position, reached, perm, related,
    boundFrom, boundTo, serves, compares⟩
  subst position
  rcases (frontierAfter_iff hasher partitions serve wellScoped.before).mpr reached
    with ⟨frontier, comes, member⟩
  have sound := (steps_sound hasher partitions serve wellScoped.before).ok comes
  cases frontier with
  | nil => cases member
  | cons sample rest =>
      have meets := conditionGroups_meetsBy hasher partitions serve step sample rest
      have sampled := sound sample List.mem_cons_self
      rcases meets.possible order perm
        with ⟨groups, grouped, -, hydrated, hydrates, content, -⟩ | ⟨fault, fails⟩
      · have resolves := (resolveAll_iff hydrates (searchView_edgesAgree _ _ _) member
          (aliasesAs_of_reached sampled reached step)).mpr ⟨resolved, related, rfl⟩
        rcases content.complete b member _ resolves with ⟨group, listed, inGroup⟩
        rcases content.sound group listed b inGroup with ⟨-, conditions, resolves', label⟩
        rw [resolves] at resolves'
        cases resolves'
        rcases Option.map_eq_some_iff.mp serves with ⟨replica, picked, rfl⟩
        rcases (alike_of_label label).2 compares with ⟨made, found, alike⟩
        exact ⟨made, ⟨rfl, comes, grouped, listed, inGroup, boundFrom, boundTo,
            picked, found⟩, alike⟩
      · have lacking := meets.sound.error fails
        exact absurd (lacking_of_reached sampled reached lacking)
          (not_lacking_of_resolved related)

end Runs

end GraphEngine
