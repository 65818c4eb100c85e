/-
Module: GraphEngine.Proofs.ZeroHops
Layer: Proofs
Purpose: A lower bound of zero hops.  The bindings within `hops.min..=hops.max`
  edges then include the start itself, but both loops count their depths from
  one: they bind the start only where a walk leads back to it.
Trusted boundary: none
Main exports: WithinRange, StartsReturn, startsReturn_iff, RoundsCoverRange,
  SearchCoversRange, coverRange_iff
-/
import GraphEngine.Model.DslParser
import GraphEngine.Proofs.HopExtensions
import GraphEngine.Proofs.Merging
import GraphEngine.Proofs.Planning
import GraphEngine.Proofs.RoundDecomposition

namespace GraphEngine

open SimpleLocalExecutor

/-! ### The range and the loops -/

section Range

variable {V : GraphView} {step : ExpandHop} {frontier : List Binding}

/-- The target bound to a node `hops.min..=hops.max` edges away from the
source. -/
def WithinRange (V : GraphView) (step : ExpandHop) (b b' : Binding) : Prop :=
  ∃ u v l, b.nodes[step.fromAlias]? = some u ∧ step.hops.min ≤ l ∧ l ≤ step.hops.max ∧
    EdgeWalk V step.direction step.edgeType l u v ∧ b' = b.bindNode step.toAlias v

/-- Every start is met again after one to `hops.max` edges, from a binding that
becomes the same binding there. -/
def StartsReturn (V : GraphView) (step : ExpandHop) (frontier : List Binding) : Prop :=
  ∀ b ∈ frontier, ∀ u, b.nodes[step.fromAlias]? = some u → ∃ a ∈ frontier, ∃ w l,
    a.nodes[step.fromAlias]? = some w ∧ 1 ≤ l ∧ l ≤ step.hops.max ∧
      EdgeWalk V step.direction step.edgeType l w u ∧
        a.bindNode step.toAlias u = b.bindNode step.toAlias u

/-- Between different aliases, every start lies on a closed walk. -/
theorem startsReturn_iff (distinct : step.fromAlias ≠ step.toAlias) :
    StartsReturn V step frontier ↔
    ∀ b ∈ frontier, ∀ u, b.nodes[step.fromAlias]? = some u → ∃ l, 1 ≤ l ∧
      l ≤ step.hops.max ∧
      EdgeWalk V step.direction step.edgeType l u u := by
  constructor
  · intro returning b member u bound
    obtain ⟨a, -, w, l, boundW, one, upper, walk, same⟩ := returning b member u bound
    have source : (b.bindNode step.toAlias u).nodes[step.fromAlias]? = some w := by
      rw [← same, Binding.bindNode_nodes, if_neg distinct.symm, boundW]
    rw [Binding.bindNode_nodes, if_neg distinct.symm, bound] at source
    cases source
    exact ⟨l, one, upper, walk⟩
  · intro closed b member u bound
    obtain ⟨l, one, upper, walk⟩ := closed b member u bound
    exact ⟨b, member, u, l, bound, one, upper, walk, rfl⟩

/-- What a hop reaches lies within its range. -/
theorem HopReaches.withinRange (unaliased : step.edgeAlias = none) {b b' : Binding}
    (reached : HopReaches V step b b') : WithinRange V step b b' := by
  obtain ⟨u, v, l, bound, -, rest⟩ := (hopReaches_walk_iff unaliased).mp reached
  exact ⟨u, v, l, bound, rest⟩

/-- The walks of at least one edge give everything within a range from zero if
and only if the starts return. -/
theorem hopReaches_range_iff (unaliased : step.edgeAlias = none)
    (zero : step.hops.min = 0) :
    (∀ b', (∃ b ∈ frontier, HopReaches V step b b') ↔
      ∃ b ∈ frontier, WithinRange V step b b') ↔
      StartsReturn V step frontier := by
  constructor
  · intro covers b member u bound
    have itself : WithinRange V step b (b.bindNode step.toAlias u) :=
      ⟨u, u, 0, bound, zero.le, Nat.zero_le _, rfl, rfl⟩
    obtain ⟨a, inFrontier, reached⟩ := (covers _).mpr ⟨b, member, itself⟩
    obtain ⟨w, v, l, boundW, one, -, upper, walk, same⟩ :=
      (hopReaches_walk_iff unaliased).mp reached
    have target : (b.bindNode step.toAlias u).nodes[step.toAlias]? = some v := by
      rw [same, Binding.bindNode_nodes, if_pos rfl]
    rw [Binding.bindNode_nodes, if_pos rfl] at target
    cases target
    exact ⟨a, inFrontier, w, l, boundW, one, upper, walk, same.symm⟩
  · intro returning b'
    constructor
    · rintro ⟨b, member, reached⟩
      exact ⟨b, member, reached.withinRange unaliased⟩
    · rintro ⟨b, member, u, v, l, bound, lower, upper, walk, same⟩
      cases l with
      | zero =>
          have atStart : v = u := walk
          rw [atStart] at same
          obtain ⟨a, inFrontier, w, l, boundW, one, within, back, meets⟩ :=
            returning b member u bound
          refine ⟨a, inFrontier, (hopReaches_walk_iff unaliased).mpr
            ⟨w, u, l, boundW, one, ?_, within, back, ?_⟩⟩
          · rw [zero]
            exact Nat.zero_le l
          · rw [same, meets]
      | succ l =>
          exact ⟨b, member, (hopReaches_walk_iff unaliased).mpr
            ⟨u, v, l + 1, bound, Nat.le_add_left 1 l, lower, upper, walk, same⟩⟩

end Range

/-! ### The two executors -/

section Executors

variable [Chrono] (hasher : Partitioning) (partitions : PartitionMap)
variable (serve : GenerationHandle → IndexGeneration)

/-- The rounds of the coordinator end with exactly the bindings within the
range, each once. -/
def RoundsCoverRange (step : ExpandHop) (frontier : List Binding) : Prop :=
  ∀ outcome, ((inProcess hasher).scatterGatherHop partitions step frontier).Returns
    serve outcome →
    ∃ out, outcome = .ok out ∧ out.Nodup ∧ ∀ b', b' ∈ out ↔
      ∃ b ∈ frontier,
        WithinRange (clusterView hasher (servingOf partitions serve)) step b b'

omit [Chrono] in
/-- The search of one partition ends with exactly the bindings within the range,
each once for every binding of the frontier. -/
def SearchCoversRange (V : GraphView) (handle : GenerationHandle) (step : ExpandHop)
    (frontier : List Binding) : Prop :=
  ∀ outcome, (expandHop handle (.expandHop step) frontier).Returns serve outcome →
    ∃ found parts, outcome = .ok found ∧ found.localBindings = parts.flatten ∧
      List.Forall₂ (fun b part => part.Nodup ∧ ∀ b' ∈ part, WithinRange V step b b')
        frontier parts ∧
      ∀ b', b' ∈ found.localBindings ↔ ∃ b ∈ frontier, WithinRange V step b b'

variable {hasher partitions serve} {step : ExpandHop} {frontier : List Binding}

/-- The rounds cover a range from zero on exactly where every start is met
again, so that leaving out the walk of no edges loses nothing. -/
theorem roundsCoverRange_iff (unaliased : step.edgeAlias = none)
    (zero : step.hops.min = 0) (bound : ∀ b ∈ frontier, step.fromAlias ∈ b.nodes) :
    RoundsCoverRange hasher partitions serve step frontier ↔
      StartsReturn (clusterView hasher (servingOf partitions serve)) step frontier := by
  have meets := (scatterGatherHop_meets hasher partitions serve step frontier).and
    ((scatterGatherHop_nodup (inProcess hasher) partitions step frontier).meets serve)
  rw [← hopReaches_range_iff unaliased zero]
  constructor
  · intro covers b'
    obtain ⟨outcome, returns⟩ :=
      Client.exists_returns serve
        ((inProcess hasher).scatterGatherHop partitions step frontier)
    obtain ⟨out, rfl, -, exact_⟩ := covers outcome returns
    rw [← exact_ b', (meets.ok returns).1 b']
  · intro covers outcome returns
    cases outcome with
    | error e =>
        obtain ⟨b, member, unbound⟩ := meets.error returns
        exact absurd (bound b member) unbound
    | ok out =>
        obtain ⟨reached, distinct⟩ := meets.ok returns
        refine ⟨out, rfl, distinct, fun b' => ?_⟩
        rw [reached, covers]

omit [Chrono] in
/-- The search from every binding, kept apart. -/
theorem expandHop_parts {V : GraphView} {handle : GenerationHandle}
    (unaliased : step.edgeAlias = none) (unfiltered : step.filters = [])
    (allLocal : AllLocal (serve handle)) (shows : ShowsAdjacency (serve handle) V)
    (frontier : List Binding) :
    (expandHop handle (.expandHop step) frontier).Meets serve
      (fun found => ∃ parts, found.localBindings = parts.flatten ∧
        List.Forall₂ (fun b part => part.Nodup ∧ ∀ b', b' ∈ part ↔
          HopReaches V step b b') frontier parts)
      (fun _ => ∃ b ∈ frontier, b.nodes[step.fromAlias]? = none) := by
  apply Client.Meets.bind (Client.Meets.acquire handle)
  rintro generation rfl
  have each : ∀ b ∈ frontier, (expandBinding (serve handle) step b).Meets serve
      (fun found => ((∀ b', b' ∈ found.all ↔ HopReaches V step b b') ∧
          found.remote = []) ∧ found.all.Nodup)
      (fun _ => ∃ b ∈ frontier, b.nodes[step.fromAlias]? = none) := by
    intro b member
    exact (((expandBinding_unaliased unaliased allLocal shows).and
        (expandBinding_remote allLocal)).and
      ((expandBinding_once unaliased).meets serve)).mono (fun _ post => post)
        fun _ missing => ⟨b, member, missing⟩
  apply Client.Meets.bind (expandFrontier_parts frontier each)
  rintro found ⟨parts, related, locals, _⟩
  rw [unfiltered, applyFilters_nil]
  apply Client.Meets.pure
  refine ⟨parts.map Frontier.localBindings, ?_,
    List.forall₂_map_right_iff.mpr (related.imp fun b part post => ?_)⟩
  · rw [locals, List.flatMap]
  · obtain ⟨⟨reached, remote⟩, distinct⟩ := post
    rw [Frontier.all, remote, List.map_nil, List.append_nil] at distinct reached
    exact ⟨distinct, reached⟩

omit [Chrono] in
/-- One call that searches all depths covers such a range exactly where the
rounds do. -/
theorem searchCoversRange_iff {V : GraphView} {handle : GenerationHandle}
    (unaliased : step.edgeAlias = none) (zero : step.hops.min = 0)
    (unfiltered : step.filters = []) (allLocal : AllLocal (serve handle))
    (shows : ShowsAdjacency (serve handle) V)
    (bound : ∀ b ∈ frontier, step.fromAlias ∈ b.nodes) :
    SearchCoversRange serve V handle step frontier ↔ StartsReturn V step frontier := by
  have meets := expandHop_parts unaliased unfiltered allLocal shows frontier
  rw [← hopReaches_range_iff unaliased zero]
  constructor
  · intro covers b'
    obtain ⟨outcome, returns⟩ :=
      Client.exists_returns serve (expandHop handle (.expandHop step) frontier)
    obtain ⟨found, -, rfl, -, -, exact_⟩ := covers outcome returns
    obtain ⟨parts, together, related⟩ := meets.ok returns
    rw [← exact_ b', together]
    exact (mem_flatten_partners (related.imp fun b part post => post.2)).symm
  · intro covers outcome returns
    cases outcome with
    | error e =>
        obtain ⟨b, member, unbound⟩ := meets.error returns
        obtain ⟨v, found⟩ := (b.mem_nodes_iff _).mp (bound b member)
        rw [unbound] at found
        cases found
    | ok found =>
        obtain ⟨parts, together, related⟩ := meets.ok returns
        have within : ∀ b', b' ∈ found.localBindings ↔
            ∃ b ∈ frontier, WithinRange V step b b' := by
          intro b'
          rw [← covers, together]
          exact mem_flatten_partners (related.imp fun b part post => post.2)
        refine ⟨found, parts, rfl, together, ?_, within⟩
        exact related.imp fun b part post =>
          ⟨post.1, fun b' member => ((post.2 b').mp member).withinRange unaliased⟩

/-- For a hop of a validated query from zero edges on, the executors give the
documented range if and only if every start is met again: the rounds in any
cluster, the search on the partition that has everything.

* `valid`, `planned`, `member`: the hop is one of an accepted query, so its edge
  has no alias;
* `zero`: the range starts at zero;
* `bound`: every binding of the frontier has its source.

The filters are left out of the search because it checks them through the
index. -/
theorem coverRange_iff {query : Query} {schema : Schema} {queryPlan : QueryPlan}
    (valid : SchemaValidator.validate query schema = .ok ())
    (planned : NaivePlanner.plan query = .ok queryPlan)
    (member : .expandHop step ∈ queryPlan.steps) (zero : step.hops.min = 0)
    (bound : ∀ b ∈ frontier, step.fromAlias ∈ b.nodes) :
    (RoundsCoverRange hasher partitions serve step frontier ↔
        StartsReturn (clusterView hasher (servingOf partitions serve)) step frontier) ∧
      ∀ (dataset : Dataset) (handle : GenerationHandle), hasher.nPartitions = 1 →
        dataset.Built hasher ⟨0⟩ (serve handle) →
          (SearchCoversRange serve dataset.view handle
            { step with filters := [] } frontier ↔
            StartsReturn dataset.view step frontier) := by
  have unaliased : step.edgeAlias = none := by
    apply unaliased_of_plan (SchemaValidator.validate_eq_ok_iff.mp valid) planned member
    intro single
    rw [single] at zero
    cases zero
  constructor
  · exact roundsCoverRange_iff unaliased zero bound
  · intro dataset handle single built
    have unfiltered : SearchCoversRange serve dataset.view handle
        { step with filters := [] } frontier ↔
        StartsReturn dataset.view { step with filters := [] } frontier :=
      searchCoversRange_iff unaliased zero rfl (allLocal_of_single single built)
        (showsAdjacency_of_single single built) bound
    exact unfiltered

end Executors

/-! ### Oneself or an acquaintance -/

section

open scoped Social

/-- `(a:Person)-[:KNOWS*min..max]->(b:Person)`. -/
def acquaintancesWithin (min max : Nat) : Query :=
  Social.matching [.node (Social.labelled "a" Social.person),
    .edge { Social.typed Social.knows with hops := { min := min, max := max } },
    .node (Social.labelled "b" Social.person)] "b"

/-- What its edge lowers to. -/
def withinHop (min max : Nat) : ExpandHop :=
  { fromAlias := "a", toAlias := "b", toLabel := some "Person",
    edgeType := some "KNOWS", direction := .outgoing
    hops := { min := min, max := max }, filters := [], edgeAlias := none }

/-- A scan and one hop within the bounds. -/
def withinPlan (min max : Nat) : QueryPlan where
  steps := [.resolveAll { aliasName := "a", label := "Person" },
    .expandHop (withinHop min max)]
  project := [{ aliasName := "b", property := none }]

/-- Persons 1 and 2 know each other. -/
def mutualAcquaintance : Dataset :=
  { Social.dataset with
    edgeRows := fun edgeType =>
      if edgeType = Social.knows then
        [{ id := ⟨10⟩, src := ⟨1⟩, dst := ⟨2⟩, properties := ∅ },
         { id := ⟨11⟩, src := ⟨2⟩, dst := ⟨1⟩, properties := ∅ }]
      else [] }

/-- A mutual acquaintance brings everyone back within two edges. -/
theorem mutualAcquaintance_coversRange :
    SearchCoversRange (fun _ => mutualAcquaintance.deployed Social.single ⟨""⟩)
      mutualAcquaintance.view ⟨""⟩
      (withinHop 0 2) [Binding.fromNode "a" ⟨1⟩] := by
  have valid :
      SchemaValidator.validate (acquaintancesWithin 0 2) Social.schema = .ok () := by
    decide
  have planned : NaivePlanner.plan (acquaintancesWithin 0 2) = .ok (withinPlan 0 2) := rfl
  have member : .expandHop (withinHop 0 2) ∈ (withinPlan 0 2).steps := by decide
  have bound : ∀ b ∈ [Binding.fromNode "a" ⟨1⟩],
      (withinHop 0 2).fromAlias ∈ b.nodes := by
    decide
  have covers := @coverRange_iff _ Social.single (deployment Social.single)
    (fun _ => mutualAcquaintance.deployed Social.single ⟨""⟩) _ _ _ _ _ valid planned
      member rfl bound
  apply (covers.2 mutualAcquaintance ⟨""⟩ rfl (built_iff.mpr ⟨0, rfl⟩)).mpr
  apply (startsReturn_iff (by decide)).mpr
  intro b member u bound
  obtain rfl : u = ⟨1⟩ := by
    rw [List.mem_singleton.mp member] at bound
    exact (Option.some.inj bound).symm
  have there : mutualAcquaintance.view.adjacent .outgoing ⟨1⟩ Social.knows ⟨10⟩ ⟨2⟩ :=
    ⟨by decide, by decide, (Social.knows, _), List.mem_cons_self, rfl, rfl, rfl⟩
  have back : mutualAcquaintance.view.adjacent .outgoing ⟨2⟩ Social.knows ⟨11⟩ ⟨1⟩ :=
    ⟨by decide, by decide, (Social.knows, _),
      List.mem_cons_of_mem _ List.mem_cons_self, rfl, rfl, rfl⟩
  have typed : TypeAllows (withinHop 0 2).edgeType Social.knows :=
    fun name same => Option.some.inj same
  exact ⟨2, by decide, le_rfl, ⟨2⟩, ⟨⟨1⟩, rfl, _, _, there, typed⟩, _, _, back, typed⟩

/-- Of oneself and one's acquaintances, both executors find the acquaintances
only. -/
theorem coverRange_fails :
    ((PestParser.parse (fun _ => (0, ""))
        "MATCH (a:Person)-[:KNOWS*0..1]->(b:Person) RETURN b").toOption.bind
      Except.toOption).map Query.pattern = some (acquaintancesWithin 0 1).pattern ∧
    SchemaValidator.validate (acquaintancesWithin 0 1) Social.schema = .ok () ∧
    NaivePlanner.plan (acquaintancesWithin 0 1) = .ok (withinPlan 0 1) ∧
    ((inProcess Social.single).scatterGatherHop (deployment Social.single) (withinHop 0 1)
      [Binding.fromNode "a" ⟨1⟩]).run
        (fun _ => Social.dataset.deployed Social.single) Social.inOrder 0 =
        .ok [Social.pair 1 2] ∧
    (expandHop ⟨""⟩ (.expandHop (withinHop 0 1)) [Binding.fromNode "a" ⟨1⟩]).run
      (fun _ => Social.dataset.deployed Social.single) Social.inOrder 0 =
        .ok ⟨[Social.pair 1 2], []⟩ ∧
    ¬ RoundsCoverRange Social.single (deployment Social.single)
      (Social.dataset.deployed Social.single)
      (withinHop 0 1) [Binding.fromNode "a" ⟨1⟩] ∧
    ¬ SearchCoversRange (Social.dataset.deployed Social.single) Social.dataset.view
      ⟨""⟩ (withinHop 0 1)
      [Binding.fromNode "a" ⟨1⟩] := by
  have rounds : ((inProcess Social.single).scatterGatherHop (deployment Social.single)
      (withinHop 0 1)
      [Binding.fromNode "a" ⟨1⟩]).run
        (fun _ => Social.dataset.deployed Social.single) Social.inOrder 0 =
        .ok [Social.pair 1 2] := by decide +kernel
  have search :
      (expandHop ⟨""⟩ (.expandHop (withinHop 0 1)) [Binding.fromNode "a" ⟨1⟩]).run
      (fun _ => Social.dataset.deployed Social.single) Social.inOrder 0 =
        .ok ⟨[Social.pair 1 2], []⟩ := by
    decide +kernel
  have itself : ∀ V, ∃ b ∈ [Binding.fromNode "a" ⟨1⟩],
      WithinRange V (withinHop 0 1) b (Social.pair 1 1) := by
    intro V
    exact ⟨_, List.mem_singleton_self _, ⟨1⟩, ⟨1⟩,
      0, by decide, le_rfl, Nat.zero_le 1, rfl, rfl⟩
  have absent : Social.pair 1 1 ∉ [Social.pair 1 2] := by decide
  refine ⟨by decide +kernel, by decide, rfl, rounds, search, ?_, ?_⟩
  · intro covers
    obtain ⟨out, ends, -, exact_⟩ := covers _ (Client.returns_run _ Social.inOrder 0 _)
    rw [rounds] at ends
    cases ends
    exact absent ((exact_ _).mpr (itself _))
  · intro covers
    obtain ⟨found, parts, ends, -, -, exact_⟩ :=
      covers _ (Client.returns_run _ Social.inOrder 0 _)
    rw [search] at ends
    cases ends
    exact absent ((exact_ _).mpr (itself _))

end

end GraphEngine
