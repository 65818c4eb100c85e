/-
Module: GraphEngine.Proofs.GroupedAntiJoin
Layer: Proofs
Purpose: The grouped, partitioned, once-hydrated anti-join returns what deciding
  every binding on its own over the tables returns, with the same
  multiplicities.
Trusted boundary: none
Main exports: Matched, AntiJoinInput, keep_iff_not_matched,
  executeAntiJoin_eq_perBinding
-/
import GraphEngine.Proofs.AntiJoin
import GraphEngine.Proofs.Served

namespace GraphEngine

section GroupedAntiJoin

variable [Chrono]

omit [Chrono] in
/-- The literal that compares as a stored value does, for the values that have
one. -/
inductive Denotes : PropertyValue → Literal → Prop where
  | int64 (value : Int) : Denotes (.int64 value) (.int64 value)
  | bool (value : Bool) : Denotes (.bool value) (.bool value)
  | string (value : String) : Denotes (.string value) (.string value)

omit [Chrono] in
/-- A value with a literal converts to it. -/
theorem Denotes.converts {value : PropertyValue} {literal : Literal}
    (denotes : Denotes value literal) :
    propertyValueToLiteral value = some literal := by
  cases denotes <;> rfl

/-- Some edge of the step's type between the two nodes satisfies every literal
condition and every outer condition, the latter against what the binding binds
the outer alias to. -/
def Matched (dataset : Dataset) (step : AntiJoinStep) (b : Binding) : Prop :=
  ∃ u v, b.nodes[step.fromAlias]? = some u ∧ b.nodes[step.toAlias]? = some v ∧
    ∃ edge ∈ dataset.edges, edge.2.src = u ∧ edge.2.dst = v ∧
      TypeAllows step.edgeType edge.1 ∧
      (∀ filter ∈ step.literalConditions,
        evaluateFilter edge.2.properties filter = true) ∧
      ∀ condition ∈ step.outerConditions, ∃ properties value literal,
        BoundProperties dataset.view b condition.outer.aliasName properties ∧
        properties[condition.outer.property]? = some value ∧ Denotes value literal ∧
        evaluateFilter edge.2.properties
          { property := condition.property, op := condition.op, value := literal } = true

omit [Chrono] in
/-- A frontier that an outgoing anti-join can be asked about: its bindings have
the same aliases, the anchors are nodes of the tables, and every outer reference
is an integer, a boolean or a string. -/
structure AntiJoinInput (dataset : Dataset) (step : AntiJoinStep)
    (frontier : List Binding) : Prop where
  outgoing : step.direction = .outgoing
  sameAliases : ∀ a ∈ frontier, ∀ b ∈ frontier, ∀ x,
    (x ∈ a.nodes ↔ x ∈ b.nodes) ∧ (x ∈ a.edges ↔ x ∈ b.edges)
  anchored : ∀ b ∈ frontier, ∃ u v, b.nodes[step.fromAlias]? = some u ∧
    dataset.Scanned u ∧
    b.nodes[step.toAlias]? = some v ∧ dataset.Scanned v
  comparable : ∀ b ∈ frontier, ∀ condition ∈ step.outerConditions,
    ∃ properties value literal,
    BoundProperties dataset.view b condition.outer.aliasName properties ∧
    properties[condition.outer.property]? = some value ∧ Denotes value literal

variable {dataset : Dataset} {hasher : Partitioning} {partitions : PartitionMap}
variable {serve : GenerationHandle → IndexGeneration} {step : AntiJoinStep}
variable {frontier : List Binding}

omit [Chrono] in
/-- With unique ids the tables have one record for every node and edge. -/
theorem boundProperties_unique (uniqueNodes : dataset.UniqueNodeIds)
    (uniqueEdges : dataset.UniqueEdgeIds) {b : Binding} {aliasName : String}
    {properties properties' : Properties}
    (first : BoundProperties dataset.view b aliasName properties)
    (second : BoundProperties dataset.view b aliasName properties') :
    properties = properties' := by
  refine BoundProperties.unique ?_ ?_ first second
  · rintro v _ _ ⟨node, member, id, rfl⟩ ⟨node', member', id', rfl⟩
    rw [List.inj_on_of_nodup_map uniqueNodes member member' (id.trans id'.symm)]
  · rintro e _ _ ⟨edge, member, id, rfl⟩ ⟨edge', member', id', rfl⟩
    rw [List.inj_on_of_nodup_map uniqueEdges member member' (id.trans id'.symm)]

omit [Chrono] in
/-- A comparable outer condition resolves to the comparison with the value
bound, and to nothing else. -/
theorem resolvesTo_iff_of_denotes (uniqueNodes : dataset.UniqueNodeIds)
    (uniqueEdges : dataset.UniqueEdgeIds) {b : Binding} {condition : OuterCondition}
    {properties : Properties} {value : PropertyValue} {literal : Literal}
    (bound : BoundProperties dataset.view b condition.outer.aliasName properties)
    (stored : properties[condition.outer.property]? = some value)
    (denotes : Denotes value literal) (filter : PropertyFilter) :
    ResolvesTo dataset.view b condition filter ↔
      filter =
        { property := condition.property, op := condition.op, value := literal } := by
  constructor
  · rintro ⟨properties', value', literal', bound', stored', converts, rfl⟩
    rw [boundProperties_unique uniqueNodes uniqueEdges bound' bound, stored] at stored'
    cases stored'
    rw [denotes.converts] at converts
    cases converts
    rfl
  · rintro rfl
    exact ⟨properties, value, literal, bound, stored, denotes.converts, rfl⟩

/-- The resolved conditions of a step ask of an edge what the comparisons with
the bound values ask. -/
theorem evaluateFilters_iff_compared (uniqueNodes : dataset.UniqueNodeIds)
    (uniqueEdges : dataset.UniqueEdgeIds) {b : Binding}
    (comparable : ∀ condition ∈ step.outerConditions, ∃ properties value literal,
      BoundProperties dataset.view b condition.outer.aliasName properties ∧
      properties[condition.outer.property]? = some value ∧ Denotes value literal)
    {resolved : List PropertyFilter}
    (related :
      List.Forall₂ (ResolvesTo dataset.view b) step.outerConditions resolved)
    (record : Properties) :
    evaluateFilters record (step.literalConditions ++ resolved) = true ↔
      (∀ filter ∈ step.literalConditions, evaluateFilter record filter = true) ∧
      ∀ condition ∈ step.outerConditions, ∃ properties value literal,
        BoundProperties dataset.view b condition.outer.aliasName properties ∧
        properties[condition.outer.property]? = some value ∧ Denotes value literal ∧
        evaluateFilter record
          { property := condition.property, op := condition.op, value := literal } =
            true := by
  rw [evaluateFilters, List.all_append, Bool.and_eq_true, List.all_eq_true,
    List.all_eq_true]
  refine and_congr_right fun _ => ?_
  constructor
  · intro passes condition listed
    obtain ⟨properties, value, literal, bound, stored, denotes⟩ :=
      comparable condition listed
    obtain ⟨filter, inResolved, resolves⟩ := (forall₂_partner related).2 condition listed
    rw [resolvesTo_iff_of_denotes uniqueNodes uniqueEdges bound stored denotes]
      at resolves
    cases resolves
    exact ⟨properties, value, literal, bound, stored, denotes, passes _ inResolved⟩
  · intro holds filter inResolved
    obtain ⟨condition, listed, resolves⟩ := (forall₂_partner related).1 filter inResolved
    obtain ⟨properties, value, literal, bound, stored, denotes, passes⟩ :=
      holds condition listed
    rw [resolvesTo_iff_of_denotes uniqueNodes uniqueEdges bound stored denotes]
      at resolves
    rwa [resolves]

omit [Chrono] in
/-- Over a reachable cluster a condition resolves as over the tables. -/
theorem resolvesTo_clusterView_iff (served : dataset.ServedBy hasher partitions serve)
    (reachable : FullyReachable hasher partitions)
    (uniqueNodes : dataset.UniqueNodeIds) (uniqueEdges : dataset.UniqueEdgeIds)
    {b : Binding} {condition : OuterCondition} {filter : PropertyFilter} :
    ResolvesTo (clusterView hasher (servingOf partitions serve)) b condition filter ↔
      ResolvesTo dataset.view b condition filter :=
  ⟨.records (fun _ _ => served.nodeRecord_sound) fun _ _ => served.edgeRecord_sound,
    .records (fun _ _ => served.nodeRecord_complete reachable uniqueNodes)
      fun _ _ => served.edgeRecord_complete reachable uniqueEdges⟩

/-- Over a reachable cluster the view keeps a binding exactly when no edge of
the tables matches it. -/
theorem keep_iff_not_matched (served : dataset.ServedBy hasher partitions serve)
    (reachable : FullyReachable hasher partitions)
    (uniqueNodes : dataset.UniqueNodeIds) (uniqueEdges : dataset.UniqueEdgeIds)
    (input : AntiJoinInput dataset step frontier) {b : Binding}
    (member : b ∈ frontier) :
    Keep (clusterView hasher (servingOf partitions serve)) step b ↔
      ¬ Matched dataset step b := by
  obtain ⟨u, v, boundFrom, scannedU, boundTo, scannedV⟩ := input.anchored b member
  have owned : (clusterView hasher (servingOf partitions serve)).owned u :=
    Option.isSome_iff_exists.mpr (Dataset.ServedBy.serving serve reachable u)
  have shown : ResolvesTo (clusterView hasher (servingOf partitions serve)) b =
      ResolvesTo dataset.view b :=
    funext₂ fun _ _ => propext
      (resolvesTo_clusterView_iff served reachable uniqueNodes uniqueEdges)
  have settled : ∀ condition ∈ step.outerConditions, ∃ filter,
      ResolvesTo (clusterView hasher (servingOf partitions serve)) b condition
        filter := by
    intro condition listed
    obtain ⟨properties, value, literal, bound, stored, denotes⟩ :=
      input.comparable b member condition listed
    rw [shown]
    exact ⟨_, (resolvesTo_iff_of_denotes uniqueNodes uniqueEdges bound stored denotes
      _).mpr rfl⟩
  rw [keep_iff_of_asks boundFrom boundTo owned settled fun resolved related =>
    evaluateFilters_iff_compared uniqueNodes uniqueEdges (input.comparable b member)
      (shown ▸ related), not_iff_not, input.outgoing]
  constructor
  · rintro ⟨t, record, candidate, typed, asked⟩
    rw [served.candidate_iff uniqueEdges] at candidate
    obtain ⟨-, -, -, edge, inEdges, leads, rfl, rfl⟩ := candidate
    exact ⟨u, v, boundFrom, boundTo, edge, inEdges, congrArg Prod.fst leads,
      congrArg Prod.snd leads, typed, asked⟩
  · rintro ⟨u', v', boundFrom', boundTo', edge, inEdges, source, target, typed, asked⟩
    rw [boundFrom] at boundFrom'
    rw [boundTo] at boundTo'
    cases boundFrom'
    cases boundTo'
    refine ⟨edge.1, { edgeType := edge.1, properties := edge.2.properties }, ?_, typed,
      asked⟩
    rw [served.candidate_iff uniqueEdges]
    exact ⟨owned, scannedU, .inl scannedV, edge, inEdges, Prod.ext source target, rfl,
      rfl⟩

open scoped Classical in
/-- The grouped anti-join returns the bindings that no edge of the tables
matches, each as often as it was in the frontier, and it does not fail.

* `uniqueNodes`, `uniqueEdges`: a record is that of one row;
* `served`, `reachable`: every partition answers from what the builder makes of
  the tables;
* `input`: the bindings have the same aliases, the anti-join goes along edges
  that leave its first node, both its nodes are rows, and what it refers to
  outside is an integer, a boolean or a string that is there. -/
theorem executeAntiJoin_eq_perBinding (uniqueNodes : dataset.UniqueNodeIds)
    (uniqueEdges : dataset.UniqueEdgeIds)
    (served : dataset.ServedBy hasher partitions serve)
    (reachable : FullyReachable hasher partitions)
    (input : AntiJoinInput dataset step frontier)
    {outcome : Except Fault (List Binding)}
    (returns : ((inProcess hasher).executeAntiJoin partitions step frontier).Returns
      serve outcome) :
    ∃ out, outcome = .ok out ∧
      out.Perm (frontier.filter fun b => ¬ Matched dataset step b) := by
  have meets := executeAntiJoin_meets hasher partitions serve step frontier
  have anchored : ∀ b ∈ frontier, Anchored step b := by
    intro b member
    obtain ⟨u, v, boundFrom, -, boundTo, -⟩ := input.anchored b member
    exact ⟨(b.mem_nodes_iff _).mpr ⟨u, boundFrom⟩, (b.mem_nodes_iff _).mpr ⟨v, boundTo⟩⟩
  have complete : ∀ b ∈ frontier, ¬ Lacking step b := by
    rintro b member ⟨condition, listed, notEdge, notNode⟩
    obtain ⟨_, _, _, bound, _⟩ := input.comparable b member condition listed
    cases bound with
    | edge bound => exact notEdge ((b.mem_edges_iff _).mpr ⟨_, bound⟩)
    | node _ bound => exact notNode ((b.mem_nodes_iff _).mpr ⟨_, bound⟩)
  cases outcome with
  | error e =>
      rcases meets.error returns with ⟨sample, head, lacking⟩ | ⟨b, member, unanchored⟩
      · exact absurd lacking (complete sample (List.mem_of_mem_head? head))
      · exact absurd (anchored b member) unanchored
  | ok out =>
      obtain ⟨hydrated, guarantee, kept⟩ := meets.ok returns
      refine ⟨out, rfl, kept.trans (.of_eq (List.filter_congr fun b member => ?_))⟩
      cases frontier with
      | nil => cases member
      | cons sample rest =>
          obtain ⟨-, hydrates⟩ := guarantee sample rfl
          have aliases : AliasesAs sample b step := fun condition _ =>
            (input.sameAliases b member sample List.mem_cons_self
              condition.outer.aliasName).2
          rw [Bool.eq_iff_iff, decide_eq_true_eq,
            keepWith_iff rfl rfl hydrates (served.edgesAgree uniqueEdges) member aliases]
          exact keep_iff_not_matched served reachable uniqueNodes uniqueEdges input member

end GroupedAntiJoin

section

open scoped Social

/-- `NOT EXISTS { MATCH (a)-[k:KNOWS]->(b) WHERE k.via = a.name }`. -/
def introducedBySelf : AntiJoinStep :=
  { fromAlias := "a", toAlias := "b", direction := .outgoing, edgeAlias := some "k"
    edgeType := some "KNOWS", literalConditions := []
    outerConditions :=
      [{ property := "via", op := .eq,
         outer := { aliasName := "a", property := "name" } }] }

theorem introducedBySelf_input :
    AntiJoinInput Social.dataset introducedBySelf [Social.pair 1 2, Social.pair 2 4] where
  outgoing := rfl
  sameAliases := by
    intro a memberA b memberB x
    simp only [List.mem_cons, List.not_mem_nil, or_false] at memberA memberB
    rcases memberA with rfl | rfl <;> rcases memberB with rfl | rfl <;> simp [Social.pair]
  anchored := by
    intro b member
    simp only [List.mem_cons, List.not_mem_nil, or_false] at member
    rcases member with rfl | rfl
    · exact ⟨⟨1⟩, ⟨2⟩, by decide, by decide, by decide, by decide⟩
    · exact ⟨⟨2⟩, ⟨4⟩, by decide, by decide, by decide, by decide⟩
  comparable := by
    intro b member condition listed
    simp only [introducedBySelf, List.mem_cons, List.not_mem_nil,
      or_false] at member listed
    subst listed
    rcases member with rfl | rfl
    · exact ⟨_, .string "Ann", _, .node (v := ⟨1⟩) (by decide) (by decide)
        ⟨Social.somebody 1 "Ann", by simp [Social.nodes_eq], rfl, rfl⟩,
          Social.textual_self _ _, .string _⟩
    · exact ⟨_, .string "Bob", _, .node (v := ⟨2⟩) (by decide) (by decide)
        ⟨Social.somebody 2 "Bob", by simp [Social.nodes_eq], rfl, rfl⟩,
          Social.textual_self _ _, .string _⟩

open scoped Classical in
/-- The acquaintances that were not made through the first person. -/
theorem introducedBySelf_eq_perBinding : ∃ out,
    ((inProcess Social.byParity).executeAntiJoin
      (deployment Social.byParity) introducedBySelf
      [Social.pair 1 2, Social.pair 2 4]).run
        (fun _ => Social.dataset.deployed Social.byParity)
        Social.inOrder 0 = .ok out ∧
      out.Perm ([Social.pair 1 2, Social.pair 2 4].filter fun b =>
        ¬ Matched Social.dataset introducedBySelf b) :=
  executeAntiJoin_eq_perBinding Social.uniqueNodeIds Social.uniqueEdgeIds
    (served_deployment _ _)
    (fullyReachable_deployment _) introducedBySelf_input (Client.returns_run _ _ _ _)

end

end GraphEngine
