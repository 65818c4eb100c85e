/-
Module: GraphEngine.Proofs.OuterValues
Layer: Proofs
Purpose: What an anti-join makes of an outer value that it cannot compare.  A
  binding whose outer property is absent, or has no literal to stand for it, is
  dropped whatever the edges are; any other binding survives exactly when no
  candidate edge matches its values.
Trusted boundary: none
Main exports: HasLiteral, outerValue, MatchedBy, keepWith_iff_unmatched,
  executeAntiJoin_comparable
-/
import GraphEngine.Proofs.GroupedAntiJoin
import GraphEngine.Spec.Conditions

namespace GraphEngine

open ScatterGatherExecutor

/-! ### Outer values -/

/-- The values that the executor can compare with: integers, floats, booleans
and texts, but no timestamps, bytes, lists or nulls. -/
inductive HasLiteral : PropertyValue → Prop where
  | int64 (value : Int) : HasLiteral (.int64 value)
  | float64 (value : F64) : HasLiteral (.float64 value)
  | bool (value : Bool) : HasLiteral (.bool value)
  | string (value : String) : HasLiteral (.string value)

/-- A value has a literal exactly where it converts to one. -/
theorem hasLiteral_iff {value : PropertyValue} :
    HasLiteral value ↔ ∃ literal, propertyValueToLiteral value = some literal := by
  constructor
  · rintro (_ | _ | _ | _) <;> exact ⟨_, rfl⟩
  · rintro ⟨literal, turned⟩
    cases value with
    | int64 value => exact .int64 value
    | float64 value => exact .float64 value
    | bool value => exact .bool value
    | string value => exact .string value
    | timestamp value => cases turned
    | bytes value => cases turned
    | list values => cases turned
    | null => cases turned

/-- The value of an outer property in the record that was hydrated for a
binding. -/
def outerValue (hydrated : Hydrated) (b : Binding) (outer : PropertyRef) :
    Option PropertyValue :=
  (hydrated.properties b outer.aliasName).bind fun properties =>
    properties[outer.property]?

/-- Every outer property of the step has, for this binding, a value that can be
compared with. -/
def Comparable (hydrated : Hydrated) (step : AntiJoinStep) (b : Binding) : Prop :=
  ∀ condition ∈ step.outerConditions,
    ∃ value, outerValue hydrated b condition.outer = some value ∧ HasLiteral value

/-- A condition resolves exactly where the outer value is found and has a
literal. -/
theorem resolve_eq_some_iff {hydrated : Hydrated} {b : Binding}
    {condition : OuterCondition} {filter : PropertyFilter} :
    hydrated.resolve b condition = some filter ↔
      ∃ value literal, outerValue hydrated b condition.outer = some value ∧
        propertyValueToLiteral value = some literal ∧
        filter = { property := condition.property, op := condition.op,
                   value := literal } := by
  rw [Hydrated.resolve, outerValue]
  simp only [Option.bind_eq_bind, Option.bind_eq_some_iff]
  constructor
  · rintro ⟨properties, bound, value, stored, literal, turned, same⟩
    exact ⟨value, literal, ⟨properties, bound, stored⟩, turned,
      (Option.some.inj same).symm⟩
  · rintro ⟨value, literal, ⟨properties, bound, stored⟩, turned, rfl⟩
    exact ⟨properties, bound, value, stored, literal, turned, rfl⟩

/-- The conditions of a binding resolve exactly when all its outer values can be
compared with. -/
theorem resolves_iff_comparable {hydrated : Hydrated} {step : AntiJoinStep}
    {b : Binding} :
    (∃ resolved, List.Forall₂
      (fun condition filter => hydrated.resolve b condition = some filter)
      step.outerConditions resolved) ↔ Comparable hydrated step b := by
  constructor
  · rintro ⟨resolved, related⟩ condition listed
    rcases (forall₂_partner related).2 condition listed with ⟨filter, -, resolves⟩
    rcases resolve_eq_some_iff.mp resolves with ⟨value, literal, stored, turned, -⟩
    exact ⟨value, stored, hasLiteral_iff.mpr ⟨literal, turned⟩⟩
  · intro comparable
    refine exists_forall₂ fun condition listed => ?_
    rcases comparable condition listed with ⟨value, stored, hasLiteral⟩
    rcases hasLiteral_iff.mp hasLiteral with ⟨literal, turned⟩
    exact ⟨_, resolve_eq_some_iff.mpr ⟨value, literal, stored, turned, rfl⟩⟩

section Survival

variable [Chrono]

/-- The edge's own value compares as asked with the binding's outer value. -/
def OuterHolds (hydrated : Hydrated) (b : Binding) (properties : Properties)
    (condition : OuterCondition) : Prop :=
  ∃ own outer, properties[condition.property]? = some own ∧
    outerValue hydrated b condition.outer = some outer ∧
      valuesMatch own condition.op outer = true

/-- A candidate edge between the anchors satisfies all conditions of the step. -/
def MatchedBy (V : GraphView) (hydrated : Hydrated) (step : AntiJoinStep)
    (b : Binding) : Prop :=
  ∃ u v t record, b.nodes[step.fromAlias]? = some u ∧ b.nodes[step.toAlias]? = some v ∧
    V.candidate step.direction u t v record ∧ TypeAllows step.edgeType t ∧
    (∀ filter ∈ step.literalConditions, evaluateFilter record.properties filter = true) ∧
    ∀ condition ∈ step.outerConditions, OuterHolds hydrated b record.properties condition

/-- A resolved condition filters an edge as the comparison of the two values
does. -/
theorem evaluateFilter_resolved {hydrated : Hydrated} {b : Binding}
    {condition : OuterCondition} {filter : PropertyFilter}
    (resolves : hydrated.resolve b condition = some filter)
    (properties : Properties) :
    evaluateFilter properties filter = true ↔
      OuterHolds hydrated b properties condition := by
  rcases resolve_eq_some_iff.mp resolves with ⟨outer, literal, stored, turned, rfl⟩
  rw [evaluateFilter]
  dsimp only
  constructor
  · intro passes
    cases own : properties[condition.property]? with
    | none => rw [own] at passes; cases passes
    | some value =>
        rw [own] at passes
        refine ⟨value, outer, own, stored, ?_⟩
        rw [valuesMatch_literal turned]
        exact passes
  · rintro ⟨value, other, own, stored', matches_⟩
    rw [stored] at stored'
    cases stored'
    rw [own]
    rwa [valuesMatch_literal turned] at matches_

/-- The conditions of a step, resolved for a binding, say of an edge what the
step says. -/
theorem evaluateFilters_resolved {hydrated : Hydrated} {step : AntiJoinStep}
    {b : Binding} {resolved : List PropertyFilter}
    (related : List.Forall₂ (fun condition filter =>
        hydrated.resolve b condition = some filter) step.outerConditions resolved)
    (properties : Properties) :
    evaluateFilters properties (step.literalConditions ++ resolved) = true ↔
      (∀ filter ∈ step.literalConditions, evaluateFilter properties filter = true) ∧
        ∀ condition ∈ step.outerConditions,
          OuterHolds hydrated b properties condition := by
  rw [evaluateFilters, List.all_append, Bool.and_eq_true, List.all_eq_true,
    List.all_eq_true]
  refine and_congr_right fun _ => ?_
  constructor
  · intro passes condition listed
    rcases (forall₂_partner related).2 condition listed
      with ⟨filter, inResolved, resolves⟩
    exact (evaluateFilter_resolved resolves properties).mp (passes filter inResolved)
  · intro holds filter inResolved
    rcases (forall₂_partner related).1 filter inResolved
      with ⟨condition, listed, resolves⟩
    exact (evaluateFilter_resolved resolves properties).mpr (holds condition listed)

variable {hasher : Partitioning} {partitions : PartitionMap}
variable {serve : GenerationHandle → IndexGeneration} {step : AntiJoinStep}
variable {frontier : List Binding}
variable {outcome : Except Fault (List Binding)}

/-- Over a reachable cluster a binding is kept when it can be compared and
nothing matches it. -/
theorem keepWith_iff_unmatched (reachable : FullyReachable hasher partitions)
    {hydrated : Hydrated} {b : Binding} :
    keepWith hasher (servingOf partitions serve) hydrated step b = true ↔
      Anchored step b ∧ Comparable hydrated step b ∧
        ¬ MatchedBy
          (clusterView hasher (servingOf partitions serve)) hydrated step b := by
  rw [← resolves_iff_comparable]
  have resolution : ∀ conditions,
      hydrated.resolveAll step b = some conditions ↔ ∃ resolved,
      List.Forall₂ (fun condition filter => hydrated.resolve b condition = some filter)
        step.outerConditions resolved ∧
          step.literalConditions ++ resolved = conditions := by
    intro conditions
    rw [Hydrated.resolveAll, Option.map_eq_some_iff]
    exact exists_congr fun resolved => and_congr_left fun _ => mapM_eq_some_iff
  constructor
  · intro kept
    rw [keepWith] at kept
    cases resolves : hydrated.resolveAll step b with
    | none => rw [resolves] at kept; cases kept
    | some conditions =>
        rw [resolves] at kept
        rcases (resolution conditions).mp resolves with ⟨resolved, related, rfl⟩
        obtain ⟨u, v, generation, boundFrom, boundTo, serves, nothing⟩ :=
          (survives_iff hasher).mp kept
        refine ⟨⟨(b.mem_nodes_iff _).mpr ⟨u, boundFrom⟩,
            (b.mem_nodes_iff _).mpr ⟨v, boundTo⟩⟩,
          ⟨resolved, related⟩, ?_⟩
        rintro ⟨u', v', t, record, boundFrom', boundTo', candidate, typed, holds⟩
        rw [boundFrom] at boundFrom'
        rw [boundTo] at boundTo'
        cases boundFrom'
        cases boundTo'
        exact nothing ((candidateExists_iff serves).mpr
          ⟨t, record, candidate, typed, (evaluateFilters_resolved related _).mpr holds⟩)
  · rintro ⟨⟨anchoredFrom, anchoredTo⟩, ⟨resolved, related⟩, unmatched⟩
    rcases (b.mem_nodes_iff _).mp anchoredFrom with ⟨u, boundFrom⟩
    rcases (b.mem_nodes_iff _).mp anchoredTo with ⟨v, boundTo⟩
    rcases Dataset.ServedBy.serving serve reachable u with ⟨generation, serves⟩
    rw [keepWith, (resolution _).mpr ⟨resolved, related, rfl⟩]
    apply (survives_iff hasher).mpr
    refine ⟨u, v, generation, boundFrom, boundTo, serves, fun candidate => ?_⟩
    rcases (candidateExists_iff serves).mp candidate
      with ⟨t, record, isCandidate, typed, passes⟩
    exact unmatched ⟨u, v, t, record, boundFrom, boundTo, isCandidate, typed,
      (evaluateFilters_resolved related _).mp passes⟩

open scoped Classical in
/-- An anti-join over a reachable cluster returns the bindings whose outer
values can be compared with and that no candidate edge matches, each as often as
it was in the frontier; it fails only where an alias is not bound.

The outer values are those of records that the cluster serves (`Hydrates`), and
a record is missing only where it serves none.  Of the data nothing is assumed:
ids may repeat, and values may be of any type. -/
theorem executeAntiJoin_comparable (reachable : FullyReachable hasher partitions)
    (returns : ((inProcess hasher).executeAntiJoin partitions step frontier).Returns
      serve outcome) :
    (∃ out hydrated, outcome = .ok out ∧
      (∀ sample ∈ frontier.head?,
        Hydrates (clusterView hasher (servingOf partitions serve)) step sample
          frontier hydrated) ∧
      out.Perm (frontier.filter fun b => Anchored step b ∧ Comparable hydrated step b ∧
        ¬ MatchedBy (clusterView hasher (servingOf partitions serve)) hydrated step b)) ∨
    ∃ fault, outcome = .error fault ∧
      ((∃ sample ∈ frontier.head?, Lacking step sample) ∨
        ∃ b ∈ frontier, ¬ Anchored step b) := by
  have meets := executeAntiJoin_meets hasher partitions serve step frontier
  cases outcome with
  | error fault => exact .inr ⟨fault, rfl, meets.error returns⟩
  | ok out =>
      rcases meets.ok returns with ⟨hydrated, guarantee, kept⟩
      refine .inl ⟨out, hydrated, rfl, fun sample first => (guarantee sample first).2, ?_⟩
      refine kept.trans (.of_eq (List.filter_congr fun b _ => ?_))
      rw [Bool.eq_iff_iff, decide_eq_true_eq]
      exact keepWith_iff_unmatched reachable

end Survival

section

open scoped Social

open scoped Classical in
/-- The acquaintances that were not made through the first person, over hydrated
records. -/
theorem introducedBySelf_comparable :
    (∃ out hydrated,
      ((inProcess Social.byParity).executeAntiJoin
        (deployment Social.byParity) introducedBySelf
        [Social.pair 1 2, Social.pair 2 4]).run
          (fun _ => Social.dataset.deployed Social.byParity)
          Social.inOrder 0 = .ok out ∧
      (∀ sample ∈ [Social.pair 1 2, Social.pair 2 4].head?,
        Hydrates (clusterView Social.byParity
            (servingOf (deployment Social.byParity)
              (Social.dataset.deployed Social.byParity)))
          introducedBySelf sample [Social.pair 1 2, Social.pair 2 4] hydrated) ∧
      out.Perm ([Social.pair 1 2, Social.pair 2 4].filter fun b =>
        Anchored introducedBySelf b ∧
        Comparable hydrated introducedBySelf b ∧
        ¬ MatchedBy (clusterView Social.byParity
            (servingOf (deployment Social.byParity)
              (Social.dataset.deployed Social.byParity)))
          hydrated introducedBySelf b)) ∨
    ∃ fault, ((inProcess Social.byParity).executeAntiJoin
      (deployment Social.byParity) introducedBySelf
        [Social.pair 1 2, Social.pair 2 4]).run
          (fun _ => Social.dataset.deployed Social.byParity)
          Social.inOrder 0 = .error fault ∧
      ((∃ sample ∈ [Social.pair 1 2, Social.pair 2 4].head?,
          Lacking introducedBySelf sample) ∨
        ∃ b ∈ [Social.pair 1 2, Social.pair 2 4], ¬ Anchored introducedBySelf b) :=
  executeAntiJoin_comparable (fullyReachable_deployment _) (Client.returns_run _ _ _ _)

/-! ### Values without a literal -/

/-- `NOT EXISTS { MATCH (a)-[k:KNOWS]->(b) WHERE k.since = a.joined }`. -/
def knownSinceJoining : AntiJoinStep :=
  { introducedBySelf with
    outerConditions :=
      [{ property := "since", op := .eq,
         outer := { aliasName := "a", property := "joined" } }] }

/-- Three people who know nobody: nothing is said of when the first joined, the
second never did, and the third did at the epoch. -/
def strangers : Dataset where
  schema := Persons.declaring
    [{ name := "joined", ty := .timestamp, optional := true, indexed := false }]
  labels := [Social.person]
  nodeRows _ :=
    [{ id := ⟨1⟩, properties := ∅ },
      { id := ⟨2⟩, properties := (∅ : Properties).insert "joined" .null },
     { id := ⟨3⟩, properties := (∅ : Properties).insert "joined" (.timestamp 0) }]
  edgeRows _ := []
  snapshot _ := { val := 1 }

/-- No edge can match, and yet all three are dropped: nothing can be compared
with an absent value, a null or a timestamp. -/
theorem executeAntiJoin_drops_incomparable :
    strangers.ServedBy Social.single (deployment Social.single)
      (strangers.deployed Social.single) ∧
    FullyReachable Social.single (deployment Social.single) ∧
    (∀ u t v record, ¬ (clusterView Social.single
      (servingOf (deployment Social.single) (strangers.deployed Social.single))).candidate
        knownSinceJoining.direction u t v record) ∧
    ((inProcess Social.single).executeAntiJoin
      (deployment Social.single) knownSinceJoining
      [Social.pair 1 2, Social.pair 2 3, Social.pair 3 1]).run
        (fun _ => strangers.deployed Social.single)
        Social.inOrder 0 = .ok [] := by
  have served := served_deployment strangers Social.single
  refine ⟨served, fullyReachable_deployment _, ?_, by decide +kernel⟩
  intro u t v record candidate
  have unique : strangers.UniqueEdgeIds := List.nodup_nil
  rcases (served.candidate_iff unique).mp candidate with ⟨-, -, -, edge, impossible, -⟩
  cases impossible

end

end GraphEngine
