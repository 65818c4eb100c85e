/-
Module: GraphEngine.Proofs.AntiJoin
Layer: Proofs
Purpose: The grouped anti-join decides every binding on its own.  Comparing
  equal condition lists makes no difference to a record, buckets and partitions
  split the frontier without loss, and hydrated references resolve as the
  cluster's view resolves them.
Trusted boundary: none
Main exports: evaluateFilters_congr, survives, checkGroup_meets,
  executeAntiJoin_meets, keepWith_iff
-/
import GraphEngine.Proofs.ScatterGather

namespace GraphEngine

open Std (ExtTreeMap ExtTreeSet)
open ScatterGatherExecutor
open SimpleLocalExecutor (candidateExists checkBinding landsOn)

/-! ### Equal condition lists -/

/-- Floats that compare equal compare alike with everything. -/
theorem F64.partialCmp_congr {x y : F64} (equal : x.eq y = true) (v : F64) :
    v.partialCmp x = v.partialCmp y := by
  have ordered : x.partialCmp y = some .eq := eq_of_beq equal
  unfold F64.partialCmp at ordered ⊢
  split at ordered
  case isTrue => cases ordered
  case isFalse numbers =>
    simp only [Bool.or_eq_true, not_or, Bool.not_eq_true] at numbers
    have position : x.position = y.position :=
      Std.LawfulEqOrd.eq_of_compare (Option.some.inj ordered)
    rw [numbers.1, numbers.2, position]

section Congruence

variable [Chrono]

/-- Literals that are equal to the executor compare alike. -/
theorem literalOrdering_congr {l l' : Literal} (equal : l.beq l' = true)
    (value : PropertyValue) : literalOrdering value l = literalOrdering value l' := by
  cases l <;> cases l' <;>
    simp only [Literal.beq, decide_eq_true_eq, Bool.false_eq_true] at equal
  case int64.int64 => rw [equal]
  case float64.float64 =>
    cases value <;> simp [literalOrdering, F64.partialCmp_congr equal]
  case bool.bool => rw [equal]
  case string.string => rw [equal]

theorem literalMatches_congr {l l' : Literal} (equal : l.beq l' = true)
    (value : PropertyValue) (op : ComparisonOp) :
    literalMatches value op l = literalMatches value op l' := by
  rw [literalMatches, literalMatches, literalOrdering_congr equal]

/-- Filters that are equal to the executor pass the same properties. -/
theorem evaluateFilter_congr {f g : PropertyFilter} (equal : f.beq g = true)
    (properties : Properties) :
    evaluateFilter properties f = evaluateFilter properties g := by
  obtain ⟨property, op, value⟩ := f
  obtain ⟨property', op', value'⟩ := g
  simp only [PropertyFilter.beq, Bool.and_eq_true, decide_eq_true_eq] at equal
  obtain ⟨⟨rfl, rfl⟩, literals⟩ := equal
  simp only [evaluateFilter, literalMatches_congr literals]

/-- Condition lists that compare equal accept the same records. -/
theorem evaluateFilters_congr {fs gs : List PropertyFilter}
    (equal : PropertyFilter.listBeq fs gs = true) (properties : Properties) :
    evaluateFilters properties fs = evaluateFilters properties gs := by
  induction fs generalizing gs with
  | nil =>
      cases gs with
      | nil => rfl
      | cons g gs => cases equal
  | cons f fs inductionHypothesis =>
      cases gs with
      | nil => cases equal
      | cons g gs =>
          rw [PropertyFilter.listBeq, Bool.and_eq_true] at equal
          have rest := inductionHypothesis equal.2
          simp only [evaluateFilters, List.all_cons] at rest ⊢
          rw [rest, evaluateFilter_congr equal.1]

/-- Conditions that are equal to the executor find the same candidates. -/
theorem candidateExists_congr {fs gs : List PropertyFilter}
    (equal : PropertyFilter.listBeq fs gs = true) (generation : IndexGeneration)
    (step : AntiJoinStep) (u v : NodeId) :
    candidateExists generation step fs u v =
      candidateExists generation step gs u v := by
  simp only [candidateExists, evaluateFilters_congr equal]

end Congruence

/-! ### One check -/

/-- Both node aliases of an anti-join are bound. -/
def Anchored (step : AntiJoinStep) (b : Binding) : Prop :=
  step.fromAlias ∈ b.nodes ∧ step.toAlias ∈ b.nodes

section Check

variable [Chrono] (generation : IndexGeneration) (step : AntiJoinStep)
variable (conditions : List PropertyFilter)

/-- No candidate edge of the generation joins the two nodes of the binding. -/
def unjoined (b : Binding) : Bool :=
  match b.nodes[step.fromAlias]?, b.nodes[step.toAlias]? with
  | some u, some v => !candidateExists generation step conditions u v
  | _, _ => false

/-- A binding with both ends is kept or dropped by what candidates there are. -/
theorem checkBinding_anchored {b : Binding} (anchored : Anchored step b) :
    checkBinding generation step conditions b =
      pure ([b].filter (unjoined generation step conditions)) := by
  rcases (b.mem_nodes_iff _).mp anchored.1 with ⟨u, boundFrom⟩
  rcases (b.mem_nodes_iff _).mp anchored.2 with ⟨v, boundTo⟩
  have fate : unjoined generation step conditions b =
      !candidateExists generation step conditions u v := by
    rw [unjoined, boundFrom, boundTo]
  rw [checkBinding, boundFrom, boundTo]
  simp only [List.filter_singleton, fate]
  cases candidateExists generation step conditions u v with
  | true => rfl
  | false => rfl

/-- A binding without one of the ends fails the call. -/
theorem checkBinding_unanchored {b : Binding} (unanchored : ¬ Anchored step b) :
    ∃ fault, checkBinding generation step conditions b = Client.fail fault := by
  rw [checkBinding]
  cases boundFrom : b.nodes[step.fromAlias]? with
  | none => exact ⟨_, rfl⟩
  | some u =>
      cases boundTo : b.nodes[step.toAlias]? with
      | none => exact ⟨_, rfl⟩
      | some v =>
          have anchored : Anchored step b :=
            ⟨(b.mem_nodes_iff _).mpr ⟨u, boundFrom⟩, (b.mem_nodes_iff _).mpr ⟨v, boundTo⟩⟩
          exact absurd anchored unanchored

/-- Over one generation a check keeps the bindings that no candidate joins. -/
theorem collect_checkBinding_anchored {bindings : List Binding}
    (anchored : ∀ b ∈ bindings, Anchored step b) :
    Client.collect (checkBinding generation step conditions) bindings =
      pure (bindings.filter (unjoined generation step conditions)) := by
  induction bindings with
  | nil => rfl
  | cons b rest inductionHypothesis =>
      have later := inductionHypothesis fun other member =>
        anchored other (List.mem_cons_of_mem b member)
      rw [Client.collect,
        checkBinding_anchored generation step conditions
          (anchored b List.mem_cons_self), Client.pure_bind, later, Client.pure_bind,
        ← List.filter_append, List.singleton_append]

/-- It fails on a binding that lacks an anchor. -/
theorem collect_checkBinding_unanchored {bindings : List Binding}
    (unanchored : ∃ b ∈ bindings, ¬ Anchored step b) :
    ∃ fault, Client.collect (checkBinding generation step conditions) bindings =
      Client.fail fault := by
  induction bindings with
  | nil =>
      rcases unanchored with ⟨b, member, -⟩
      cases member
  | cons b rest inductionHypothesis =>
      by_cases anchored : Anchored step b
      · rcases unanchored with ⟨other, member, lacking⟩
        rcases List.mem_cons.mp member with rfl | later
        · exact absurd anchored lacking
        · rcases inductionHypothesis ⟨other, later, lacking⟩ with ⟨fault, fails⟩
          rw [Client.collect,
            checkBinding_anchored generation step conditions anchored,
            Client.pure_bind, fails]
          exact ⟨fault, rfl⟩
      · rcases checkBinding_unanchored generation step conditions anchored
          with ⟨fault, fails⟩
        rw [Client.collect, fails]
        exact ⟨fault, rfl⟩

end Check

/-! ### One condition group -/

section Group

variable [Chrono] (hasher : Partitioning) (partitions : PartitionMap)
variable (serve : GenerationHandle → IndexGeneration)

/-- The fate of one binding under a resolved condition list. -/
def survives (serving : PartitionId → Option IndexGeneration) (step : AntiJoinStep)
    (conditions : List PropertyFilter) (b : Binding) : Bool :=
  match b.nodes[step.fromAlias]?, b.nodes[step.toAlias]? with
  | some u, some v =>
      match serving (hasher.partition u) with
      | some generation => !candidateExists generation step conditions u v
      | none => false
  | _, _ => false

/-- A binding survives where it is bound at both ends, its source is served, and
no candidate joins the two. -/
theorem survives_iff {serving : PartitionId → Option IndexGeneration}
    {step : AntiJoinStep} {conditions : List PropertyFilter} {b : Binding} :
    survives hasher serving step conditions b = true ↔
      ∃ u v generation, b.nodes[step.fromAlias]? = some u ∧
        b.nodes[step.toAlias]? = some v ∧
        serving (hasher.partition u) = some generation ∧
          ¬ candidateExists generation step conditions u v = true := by
  rw [survives]
  constructor
  · intro kept
    cases boundFrom : b.nodes[step.fromAlias]? with
    | none => rw [boundFrom] at kept; cases kept
    | some u =>
        cases boundTo : b.nodes[step.toAlias]? with
        | none => rw [boundFrom, boundTo] at kept; cases kept
        | some v =>
            cases serves : serving (hasher.partition u) with
            | none => simp only [boundFrom, boundTo, serves] at kept; cases kept
            | some generation =>
                simp only [boundFrom, boundTo, serves, Bool.not_eq_true'] at kept
                exact ⟨u, v, generation, rfl, rfl, serves, Bool.eq_false_iff.mp kept⟩
  · rintro ⟨u, v, generation, boundFrom, boundTo, serves, nothing⟩
    simp only [boundFrom, boundTo, serves, Bool.not_eq_true']
    exact Bool.eq_false_iff.mpr nothing

/-- Bindings survive conditions that are equal to the executor alike. -/
theorem survives_congr {serving : PartitionId → Option IndexGeneration}
    {step : AntiJoinStep} {fs gs : List PropertyFilter}
    (equal : PropertyFilter.listBeq fs gs = true) (b : Binding) :
    survives hasher serving step fs b = survives hasher serving step gs b := by
  simp only [survives, candidateExists_congr equal]

/-- The check on one partition, for bindings whose source that partition owns. -/
theorem checkAntiJoin_meets {partition : PartitionId} {replica : ReplicaEndpoint}
    (picked : pickReplica partitions partition = some replica) (step : AntiJoinStep)
    (conditions : List PropertyFilter) {bindings : List Binding}
    (owned : ∀ b ∈ bindings, ∀ u, b.nodes[step.fromAlias]? = some u →
      hasher.partition u = partition) :
    (inProcessRpc.checkAntiJoin replica step conditions bindings).Meets serve
      (· = bindings.filter (survives hasher (servingOf partitions serve) step conditions))
      (fun _ => ∃ b ∈ bindings, ¬ Anchored step b) := by
  refine Client.Meets.bind (Client.Meets.acquire replica.handle) ?_
  rintro generation rfl
  by_cases unanchored : ∃ b ∈ bindings, ¬ Anchored step b
  · rcases collect_checkBinding_unanchored _ step conditions unanchored
      with ⟨fault, fails⟩
    rw [fails]
    exact Client.Meets.fail unanchored
  · have anchored : ∀ b ∈ bindings, Anchored step b := fun b member =>
      not_not.mp fun lacking => unanchored ⟨b, member, lacking⟩
    rw [collect_checkBinding_anchored _ step conditions anchored]
    apply Client.Meets.pure
    apply List.filter_congr
    intro b member
    rcases (b.mem_nodes_iff _).mp (anchored b member).1 with ⟨u, boundFrom⟩
    rcases (b.mem_nodes_iff _).mp (anchored b member).2 with ⟨v, boundTo⟩
    have here := owned b member u boundFrom
    simp only [unjoined, survives, boundFrom, boundTo, here,
      servingOf_of_pick serve picked]

/-- A condition group, split by partition, keeps exactly the survivors. -/
theorem checkGroup_meets (step : AntiJoinStep)
    (group : List PropertyFilter × List Binding) :
    ((inProcess hasher).checkGroup partitions step group).Meets serve
      (·.Perm
        (group.2.filter (survives hasher (servingOf partitions serve) step group.1)))
      (fun _ => ∃ b ∈ group.2, ¬ Anchored step b) := by
  by_cases bound : ∀ b ∈ group.2, step.fromAlias ∈ b.nodes
  · rw [checkGroup, groupByOwningNodePartition_ok hasher bound, raiseError_ok,
      Client.pure_bind]
    refine Client.Meets.bind (Client.Meets.unordered _) fun parts perm => ?_
    have content : ∀ part ∈ parts,
        part.2 = group.2.filter fun b => ownerOf hasher step.fromAlias b = part.1 :=
      fun part member => (mem_toList_groupByKey.mp (perm.mem_iff.mp member)).1
    have owned : ∀ part ∈ parts, ∀ b ∈ part.2, ∀ u, b.nodes[step.fromAlias]? = some u →
        hasher.partition u = part.1 := by
      intro part member b inPart u found
      rw [content part member, List.mem_filter, decide_eq_true_eq] at inPart
      rw [← ownerOf_eq found, inPart.2]
    refine (Client.Meets.collect_perm (F := fun (part : PartitionId × List Binding) =>
      part.2.filter (survives hasher (servingOf partitions serve) step group.1))
        parts ?_).imp ?_
    · intro part member
      cases picked : pickReplica partitions part.1 with
      | none =>
          refine Client.Meets.pure ?_
          have nobody : part.2.filter
              (survives hasher (servingOf partitions serve) step group.1) = [] := by
            refine List.filter_eq_nil_iff.mpr fun b inPart => ?_
            unfold survives
            cases boundFrom : b.nodes[step.fromAlias]? with
            | none => simp
            | some u =>
                have here := owned part member b inPart u boundFrom
                cases b.nodes[step.toAlias]? with
                | none => simp
                | some v => simp [here, servingOf_of_pick_none serve picked]
          rw [nobody]
      | some replica =>
          refine (checkAntiJoin_meets hasher partitions serve picked step group.1
            (owned part member)).mono ?_ ?_
          · rintro out rfl
            exact .refl _
          · rintro fault ⟨b, inPart, unanchored⟩
            rw [content part member] at inPart
            exact ⟨b, (List.mem_filter.mp inPart).1, unanchored⟩
    · intro out pieces
      refine pieces.trans ?_
      have glued : (parts.flatMap Prod.snd).Perm group.2 :=
        (perm.flatMap_right _).trans (flatMap_groupByKey_perm _ _)
      have filtered :=
        glued.filter (survives hasher (servingOf partitions serve) step group.1)
      rwa [List.filter_flatMap] at filtered
  · obtain ⟨b, member, unbound⟩ : ∃ b ∈ group.2, step.fromAlias ∉ b.nodes := by
      by_contra none
      exact bound fun b member => by_contra fun unbound => none ⟨b, member, unbound⟩
    rw [checkGroup, groupByOwningNodePartition_error hasher member unbound]
    exact Client.Meets.fail ⟨b, member, fun anchored => unbound anchored.1⟩

/-! ### Condition groups -/

omit [Chrono] in
/-- One more binding goes into its group, or makes a new one. -/
theorem bucketByConditions_append (hydrated : Hydrated) (step : AntiJoinStep)
    (frontier : List Binding) (b : Binding) :
    bucketByConditions hydrated step (frontier ++ [b]) =
      pushResolved (hydrated.resolveAll step b) b
        (bucketByConditions hydrated step frontier) := by
  simp only [bucketByConditions, List.foldl_append, List.foldl_cons, List.foldl_nil]

omit [Chrono] in
/-- Bucketing keeps every binding whose conditions resolve, once, in a bucket
whose label compares equal to its own list. -/
theorem bucketByConditions_spec (hydrated : Hydrated) (step : AntiJoinStep)
    (frontier : List Binding) :
    ((bucketByConditions hydrated step frontier).flatMap Prod.snd).Perm
        (frontier.filter fun b => (hydrated.resolveAll step b).isSome) ∧
      ∀ bucket ∈ bucketByConditions hydrated step frontier, ∀ b ∈ bucket.2,
        ∃ resolved, hydrated.resolveAll step b = some resolved ∧
          (bucket.1 = resolved ∨ PropertyFilter.listBeq bucket.1 resolved = true) := by
  induction frontier using List.reverseRecOn with
  | nil => exact ⟨.refl _, fun bucket member => by cases member⟩
  | append_singleton frontier b inductionHypothesis =>
      obtain ⟨content, labels⟩ := inductionHypothesis
      rw [bucketByConditions_append, List.filter_append]
      cases resolves : hydrated.resolveAll step b with
      | none =>
          simp only [List.filter_cons, resolves, Option.isSome_none,
            Bool.false_eq_true, if_false, List.filter_nil, List.append_nil,
            pushResolved]
          exact ⟨content, labels⟩
      | some resolved =>
          simp only [List.filter_cons, resolves, Option.isSome_some, if_true,
            List.filter_nil, pushResolved]
          refine ⟨(flatMap_pushBucket_perm _ _ _ _).trans (content.append_right [b]), ?_⟩
          refine forall_pushBucket PropertyFilter.listBeq
            (F := fun label b => ∃ resolved, hydrated.resolveAll step b = some resolved ∧
              (label = resolved ∨ PropertyFilter.listBeq label resolved = true))
            labels ⟨resolved, resolves, .inl rfl⟩ ?_
          exact fun other equal => ⟨resolved, resolves, .inr equal⟩

/-- The fate of one binding once outer references are hydrated. -/
def keepWith (serving : PartitionId → Option IndexGeneration) (hydrated : Hydrated)
    (step : AntiJoinStep) (b : Binding) : Bool :=
  match hydrated.resolveAll step b with
  | some resolved => survives hasher serving step resolved b
  | none => false

/-- The label of a bucket decides its bindings as their own condition lists do. -/
theorem keepWith_of_bucket {serving : PartitionId → Option IndexGeneration}
    {hydrated : Hydrated} {step : AntiJoinStep} {frontier : List Binding}
    {bucket : List PropertyFilter × List Binding}
    (member : bucket ∈ bucketByConditions hydrated step frontier) {b : Binding}
    (inBucket : b ∈ bucket.2) :
    survives hasher serving step bucket.1 b =
      keepWith hasher serving hydrated step b := by
  obtain ⟨resolved, resolves, label⟩ :=
    (bucketByConditions_spec hydrated step frontier).2 bucket member b inBucket
  rw [keepWith, resolves]
  rcases label with same | equal
  · rw [same]
  · exact survives_congr hasher equal b

/-- All condition groups together keep exactly the bindings that survive on
their own. -/
theorem checkGroups_meets (step : AntiJoinStep) (hydrated : Hydrated)
    (frontier : List Binding) :
    (Client.collect ((inProcess hasher).checkGroup partitions step)
      (bucketByConditions hydrated step frontier)).Meets serve
      (·.Perm (frontier.filter
          (keepWith hasher (servingOf partitions serve) hydrated step)))
      (fun _ => ∃ b ∈ frontier, ¬ Anchored step b) := by
  obtain ⟨content, -⟩ := bucketByConditions_spec hydrated step frontier
  refine (Client.Meets.collect_perm
    (F := fun (bucket : List PropertyFilter × List Binding) =>
    bucket.2.filter (survives hasher (servingOf partitions serve) step bucket.1)) _
      fun bucket member => ?_).imp ?_
  · refine (checkGroup_meets hasher partitions serve step bucket).mono
      (fun _ post => post) ?_
    rintro fault ⟨b, inBucket, unanchored⟩
    have kept := content.mem_iff.mp (List.mem_flatMap.mpr ⟨bucket, member, inBucket⟩)
    exact ⟨b, (List.mem_filter.mp kept).1, unanchored⟩
  · intro out pieces
    refine pieces.trans ?_
    have relabel : ((bucketByConditions hydrated step frontier).flatMap fun bucket =>
        bucket.2.filter (survives hasher (servingOf partitions serve) step bucket.1)) =
        ((bucketByConditions hydrated step frontier).flatMap Prod.snd).filter
          (keepWith hasher (servingOf partitions serve) hydrated step) := by
      rw [List.filter_flatMap]
      refine List.flatMap_congr fun bucket member =>
        List.filter_congr fun b inBucket => ?_
      exact keepWith_of_bucket hasher member inBucket
    rw [relabel]
    refine (content.filter _).trans ?_
    rw [List.filter_filter]
    refine .of_eq (List.filter_congr fun b _ => ?_)
    rw [keepWith]
    cases hydrated.resolveAll step b <;> simp

/-! ### Hydration of outer references -/

/-- What the hydration for an anti-join guarantees; `sample` is the binding the
aliases are classified by. -/
structure Hydrates (V : GraphView) (step : AntiJoinStep) (sample : Binding)
    (frontier : List Binding) (hydrated : Hydrated) : Prop where
  classified : ∀ condition ∈ step.outerConditions,
    isEdge hydrated.outerIsEdge condition.outer.aliasName =
      decide (condition.outer.aliasName ∈ sample.edges)
  nodeSound : ∀ v record, hydrated.nodeProps[v]? = some record → V.nodeRecord v record
  edgeSound : ∀ e record, hydrated.edgeProps[e]? = some record → V.edgeRecord e record
  nodeComplete : ∀ b ∈ frontier, ∀ condition ∈ step.outerConditions,
    condition.outer.aliasName ∉ sample.edges →
      ∀ v, b.nodes[condition.outer.aliasName]? = some v →
      ∀ record, V.nodeRecord v record → hydrated.nodeProps[v]? = some record
  edgeComplete : ∀ b ∈ frontier, ∀ condition ∈ step.outerConditions,
    condition.outer.aliasName ∈ sample.edges →
      ∀ e, b.edges[condition.outer.aliasName]? = some e →
      ∀ record, V.edgeRecord e record → ∃ other, hydrated.edgeProps[e]? = some other

/-- An outer alias that a binding does not bind. -/
def Lacking (step : AntiJoinStep) (b : Binding) : Prop :=
  ∃ condition ∈ step.outerConditions,
    condition.outer.aliasName ∉ b.edges ∧ condition.outer.aliasName ∉ b.nodes

/-- An outer condition refers to the alias `x`, which the binding does not
bind. -/
def Lacks (step : AntiJoinStep) (b : Binding) (x : String) : Prop :=
  (∃ condition ∈ step.outerConditions, condition.outer.aliasName = x) ∧
    x ∉ b.edges ∧ x ∉ b.nodes

omit [Chrono] in
/-- Something is lacking exactly where some alias is. -/
theorem lacking_iff_lacks {step : AntiJoinStep} {b : Binding} :
    Lacking step b ↔ ∃ x, Lacks step b x := by
  constructor
  · rintro ⟨condition, member, notEdge, notNode⟩
    exact ⟨_, ⟨condition, member, rfl⟩, notEdge, notNode⟩
  · rintro ⟨_, ⟨condition, member, rfl⟩, notEdge, notNode⟩
    exact ⟨condition, member, notEdge, notNode⟩

omit [Chrono] in
/-- The outer aliases are told apart if the sample binds all of them. -/
theorem classifyOuter_ok {sample : Binding} {conditions : List OuterCondition}
    (bound : ∀ condition ∈ conditions, condition.outer.aliasName ∈ sample.edges ∨
      condition.outer.aliasName ∈ sample.nodes) :
    classifyOuter sample conditions = .ok (collectMap (conditions.map fun condition =>
      (condition.outer.aliasName,
        decide (condition.outer.aliasName ∈ sample.edges)))) := by
  rw [classifyOuter, collectMap]
  generalize (∅ : ExtTreeMap String Bool compare) = outerIsEdge
  induction conditions generalizing outerIsEdge with
  | nil => rfl
  | cons condition rest inductionHypothesis =>
      have later := fun acc => inductionHypothesis
        (fun other member => bound other (List.mem_cons_of_mem condition member)) acc
      rw [List.foldlM_cons, List.map_cons, List.foldl_cons]
      split
      case isTrue inEdges =>
        rw [decide_eq_true inEdges]
        exact later _
      case isFalse notInEdges =>
        rw [decide_eq_false notInEdges,
          if_pos ((bound condition List.mem_cons_self).resolve_left notInEdges)]
        exact later _

omit [Chrono] in
/-- The classification fails on an outer alias that the sample does not bind. -/
theorem classifyOuter_error {sample : Binding} {conditions : List OuterCondition}
    {condition : OuterCondition} (member : condition ∈ conditions)
    (notEdge : condition.outer.aliasName ∉ sample.edges)
    (notNode : condition.outer.aliasName ∉ sample.nodes) :
    ∃ x, classifyOuter sample conditions = .error (.unknownAlias x) ∧
      (∃ condition ∈ conditions, condition.outer.aliasName = x) ∧ x ∉ sample.edges ∧
        x ∉ sample.nodes := by
  rw [classifyOuter]
  generalize (∅ : ExtTreeMap String Bool compare) = outerIsEdge
  induction conditions generalizing outerIsEdge with
  | nil => cases member
  | cons first rest inductionHypothesis =>
      rw [List.foldlM_cons]
      by_cases here : first.outer.aliasName ∈ sample.edges ∨
        first.outer.aliasName ∈ sample.nodes
      · -- the first alias is bound, so the condition is among the others
        have other : condition ∈ rest := by
          rcases List.mem_cons.mp member with rfl | later
          · exact absurd here (not_or.mpr ⟨notEdge, notNode⟩)
          · exact later
        have wider (x : String)
            (lacked : ∃ condition ∈ rest, condition.outer.aliasName = x) :
            ∃ condition ∈ first :: rest, condition.outer.aliasName = x := by
          rcases lacked with ⟨lacked, inRest, named⟩
          exact ⟨lacked, List.mem_cons_of_mem first inRest, named⟩
        split
        case isTrue =>
          exact (inductionHypothesis other _).imp fun x =>
            And.imp_right (And.imp_left (wider x))
        case isFalse notInEdges =>
          rw [if_pos (here.resolve_left notInEdges)]
          exact (inductionHypothesis other _).imp fun x =>
            And.imp_right (And.imp_left (wider x))
      · rw [not_or] at here
        rw [if_neg here.1, if_neg here.2]
        exact ⟨_, rfl, ⟨first, List.mem_cons_self, rfl⟩, here⟩

omit [Chrono] in
/-- Every outer alias is classified as the sample has it. -/
theorem isEdge_classified {sample : Binding} {conditions : List OuterCondition}
    {condition : OuterCondition} (member : condition ∈ conditions) :
    isEdge (collectMap (conditions.map fun condition =>
      (condition.outer.aliasName, decide (condition.outer.aliasName ∈ sample.edges))))
      condition.outer.aliasName = decide (condition.outer.aliasName ∈ sample.edges) := by
  have listed :
      (condition.outer.aliasName, decide (condition.outer.aliasName ∈ sample.edges)) ∈
      conditions.map fun condition =>
        (condition.outer.aliasName, decide (condition.outer.aliasName ∈ sample.edges)) :=
    List.mem_map.mpr ⟨condition, member, rfl⟩
  rw [isEdge, getElem?_collectMap_of_agree listed fun other inPairs => ?_,
    Option.getD_some]
  obtain ⟨another, -, same⟩ := List.mem_map.mp inPairs
  simp only [Prod.mk.injEq] at same
  rw [← same.2, same.1]

/-- Fetch node records only when some are needed. -/
theorem hydrateNodes_meets (ids : ExtTreeSet NodeId compare)
    {Allowed : Fault → Prop} :
    ((inProcess hasher).hydrateNodes partitions ids).Meets serve
      (fun properties => ∀ v record, properties[v]? = some record ↔
        v ∈ ids ∧ (clusterView hasher (servingOf partitions serve)).nodeRecord v
          record) Allowed := by
  rw [hydrateNodes]
  split
  case isTrue empty =>
    rw [ExtTreeSet.isEmpty_iff] at empty
    subst empty
    exact Client.Meets.pure (by simp)
  case isFalse =>
    refine Client.Meets.bind (Client.Meets.unordered _) fun l perm => ?_
    refine (getNodeProperties_meets hasher partitions serve l).imp
      fun properties post v record => ?_
    rw [post, mem_setEnumeration perm]

/-- Fetch edge records only when some are needed, from the partitions in any
order. -/
theorem hydrateEdges_meetsBy (ids : ExtTreeSet EdgeId compare)
    {Allowed : Fault → Prop} :
    ((inProcess hasher).hydrateEdges partitions ids).MeetsBy serve
      (·.Perm partitions.replicasByPartition.keys)
      (fun order properties => ∀ e, properties[e]? =
        if e ∈ ids then foundInOrder (servingOf partitions serve) order e
          else none) Allowed := by
  rw [hydrateEdges]
  split
  case isTrue empty =>
    rw [ExtTreeSet.isEmpty_iff] at empty
    subst empty
    refine Client.MeetsBy.ofMeets (.refl _) (Client.Meets.pure ?_)
    simp
  case isFalse =>
    refine Client.MeetsBy.after (Client.Meets.unordered _) fun l perm => ?_
    refine (getEdgeProperties_meetsBy hasher partitions serve l).mono ?_
      fun _ fault => fault
    intro order properties found e
    simp only [found, mem_setEnumeration perm]

/-- Whatever the order, the edges that some partition has are found. -/
theorem hydrateEdges_meets (ids : ExtTreeSet EdgeId compare)
    {Allowed : Fault → Prop} :
    ((inProcess hasher).hydrateEdges partitions ids).Meets serve
      (fun properties =>
        (∀ e record, properties[e]? = some record →
          (clusterView hasher (servingOf partitions serve)).edgeRecord e record) ∧
        ∀ e ∈ ids, ∀ record,
          (clusterView hasher (servingOf partitions serve)).edgeRecord e record →
          ∃ other, properties[e]? = some other) Allowed := by
  refine (hydrateEdges_meetsBy hasher partitions serve ids).sound.imp ?_
  rintro properties ⟨order, perm, found⟩
  constructor
  · intro e record hydrated
    rw [found, Option.ite_none_right_eq_some] at hydrated
    exact foundInOrder_sound hydrated.2
  · rintro e member record ⟨p, generation, serves, stored⟩
    rw [found, if_pos member]
    obtain ⟨replica, picked, -⟩ := Option.map_eq_some_iff.mp serves
    exact foundInOrder_complete
      (perm.mem_iff.mpr (mem_keys_of_pickReplica picked)) serves stored

/-- Hydration and bucketing succeed exactly when the sample binds every outer
alias. -/
theorem resolveAndGroupByCondition_meetsBy (step : AntiJoinStep) (sample : Binding)
    (frontier : List Binding) :
    ((inProcess hasher).resolveAndGroupByCondition partitions step sample
      frontier).MeetsBy serve
      (·.Perm partitions.replicasByPartition.keys)
      (fun order buckets => ¬ Lacking step sample ∧ ∃ hydrated,
        Hydrates (searchView hasher (servingOf partitions serve) order) step sample
          frontier hydrated ∧
        buckets = bucketByConditions hydrated step frontier)
      (fun _ => Lacking step sample) := by
  by_cases lacking : Lacking step sample
  · obtain ⟨condition, member, notEdge, notNode⟩ := lacking
    obtain ⟨x, fails, -⟩ := classifyOuter_error member notEdge notNode
    rw [resolveAndGroupByCondition, fails]
    exact Client.MeetsBy.ofMeets (.refl _)
      (Client.Meets.fail ⟨condition, member, notEdge, notNode⟩)
  · have bound : ∀ condition ∈ step.outerConditions,
        condition.outer.aliasName ∈ sample.edges ∨
        condition.outer.aliasName ∈ sample.nodes := by
      intro condition member
      by_contra neither
      rw [not_or] at neither
      exact lacking ⟨condition, member, neither⟩
    rw [resolveAndGroupByCondition, classifyOuter_ok bound, raiseError_ok,
      Client.pure_bind]
    refine Client.MeetsBy.after (hydrateNodes_meets hasher partitions serve _)
      fun nodeProps nodes => ?_
    refine Client.MeetsBy.bind (hydrateEdges_meetsBy hasher partitions serve _) ?_
    intro order edgeProps _ edges
    refine Client.Meets.pure ⟨lacking, _, ?_, rfl⟩
    constructor
    · exact fun condition member => isEdge_classified member
    · exact fun v record found => ((nodes v record).mp found).2
    · intro e record found
      rw [edges, Option.ite_none_right_eq_some] at found
      exact found.2
    · intro b inFrontier condition member notEdge v found record recorded
      refine (nodes v record).mpr ⟨?_, recorded⟩
      rw [nodeIdsNeeded, mem_setOfList, List.mem_flatMap]
      refine ⟨b, inFrontier, List.mem_filterMap.mpr ⟨condition, member, ?_⟩⟩
      rw [isEdge_classified member, decide_eq_false notEdge]
      exact found
    · intro b inFrontier condition member anEdge e found record recorded
      refine ⟨record, ?_⟩
      rw [edges, if_pos ?_]
      · exact recorded
      rw [edgeIdsNeeded, mem_setOfList, List.mem_flatMap]
      refine ⟨b, inFrontier, List.mem_filterMap.mpr ⟨condition, member, ?_⟩⟩
      rw [isEdge_classified member, decide_eq_true anEdge]
      exact found

/-- The groups hold the bindings whose conditions resolve, each among bindings
with conditions that compare equal to its own. -/
structure GroupsOf (step : AntiJoinStep) (hydrated : Hydrated) (frontier : List Binding)
    (groups : List (List PropertyFilter × List Binding)) : Prop where
  complete : ∀ b ∈ frontier, ∀ resolved, hydrated.resolveAll step b = some resolved →
    ∃ group ∈ groups, b ∈ group.2
  sound : ∀ group ∈ groups, ∀ b ∈ group.2, b ∈ frontier ∧ ∃ resolved,
    hydrated.resolveAll step b = some resolved ∧
      (group.1 = resolved ∨ PropertyFilter.listBeq group.1 resolved = true)

omit [Chrono] in
/-- The buckets are the groups: those whose conditions resolve alike. -/
theorem groupsOf_buckets (step : AntiJoinStep) (hydrated : Hydrated)
    (frontier : List Binding) :
    GroupsOf step hydrated frontier (bucketByConditions hydrated step frontier) := by
  rcases bucketByConditions_spec hydrated step frontier with ⟨content, labels⟩
  constructor
  · intro b member resolved resolves
    have kept : b ∈ frontier.filter fun b => (hydrated.resolveAll step b).isSome :=
      List.mem_filter.mpr ⟨member, Option.isSome_of_eq_some resolves⟩
    exact List.mem_flatMap.mp (content.mem_iff.mpr kept)
  · intro group listed b inGroup
    have kept := content.mem_iff.mp (List.mem_flatMap.mpr ⟨group, listed, inGroup⟩)
    exact ⟨(List.mem_filter.mp kept).1, labels group listed b inGroup⟩

omit [Chrono] in
/-- Without outer conditions there is one group. -/
theorem groupsOf_literal {step : AntiJoinStep} (literalOnly : step.outerConditions = [])
    (hydrated : Hydrated) (frontier : List Binding) :
    GroupsOf step hydrated frontier [(step.literalConditions, frontier)] where
  complete b member _ _ := ⟨_, List.mem_singleton_self _, member⟩
  sound group listed b inGroup := by
    cases List.mem_singleton.mp listed
    refine ⟨inGroup, step.literalConditions, ?_, .inl rfl⟩
    simp [Hydrated.resolveAll, literalOnly]

/-- The condition groups are the buckets of a hydrated frontier, also when there
is nothing to hydrate. -/
theorem conditionGroups_meetsBy (step : AntiJoinStep) (sample : Binding)
    (rest : List Binding) :
    ((inProcess hasher).conditionGroups partitions step sample
      (sample :: rest)).MeetsBy serve
      (·.Perm partitions.replicasByPartition.keys)
      (fun order groups => ¬ Lacking step sample ∧ ∃ hydrated,
        Hydrates (searchView hasher (servingOf partitions serve) order) step sample
          (sample :: rest) hydrated ∧
        GroupsOf step hydrated (sample :: rest) groups ∧
        (Client.collect
          ((inProcess hasher).checkGroup partitions step) groups).Meets serve
          (·.Perm ((sample :: rest).filter
            (keepWith hasher (servingOf partitions serve) hydrated step)))
          (fun _ => ∃ b ∈ sample :: rest, ¬ Anchored step b))
      (fun _ => Lacking step sample) := by
  rw [conditionGroups]
  split
  case isTrue literalOnly =>
    have none : ∀ condition, condition ∉ step.outerConditions := by simp [literalOnly]
    refine Client.MeetsBy.ofMeets (.refl _) (Client.Meets.pure fun order _ =>
      ⟨?_, ⟨∅, ∅, ∅⟩, ?_, groupsOf_literal literalOnly _ _, ?_⟩)
    · rintro ⟨condition, member, -⟩
      exact none condition member
    · constructor
      · exact fun condition member => (none condition member).elim
      · exact fun v record found => by simp at found
      · exact fun e record found => by simp at found
      · exact fun b _ condition member => (none condition member).elim
      · exact fun b _ condition member => (none condition member).elim
    · refine (Client.Meets.collect_perm
        (F := fun (group : List PropertyFilter × List Binding) =>
        group.2.filter
          (survives hasher (servingOf partitions serve) step group.1)) _ ?_).imp ?_
      · intro group member
        rw [List.mem_singleton] at member
        subst member
        exact checkGroup_meets hasher partitions serve step _
      · intro out pieces
        have fate : keepWith hasher (servingOf partitions serve) ⟨∅, ∅, ∅⟩ step =
            survives hasher (servingOf partitions serve) step step.literalConditions := by
          funext b
          simp [keepWith, Hydrated.resolveAll, literalOnly]
        rw [fate]
        simpa using pieces
  case isFalse =>
    refine (resolveAndGroupByCondition_meetsBy hasher partitions serve step sample
      (sample :: rest)).mono ?_
      fun _ lacking => lacking
    rintro order buckets ⟨bound, hydrated, hydrates, rfl⟩
    exact ⟨bound, hydrated, hydrates, groupsOf_buckets step hydrated _,
      checkGroups_meets hasher partitions serve step hydrated (sample :: rest)⟩

/-- The whole anti-join: every binding is decided on its own, by the edge
records found in some order of the partitions, which may be any. -/
theorem executeAntiJoin_meetsBy (step : AntiJoinStep) (frontier : List Binding) :
    ((inProcess hasher).executeAntiJoin partitions step frontier).MeetsBy serve
      (·.Perm partitions.replicasByPartition.keys)
      (fun order out => ∃ hydrated,
        (∀ sample ∈ frontier.head?, ¬ Lacking step sample ∧
          Hydrates (searchView hasher (servingOf partitions serve) order) step sample
            frontier hydrated) ∧
        out.Perm (frontier.filter
          (keepWith hasher (servingOf partitions serve) hydrated step)))
      (fun _ => (∃ sample ∈ frontier.head?, Lacking step sample) ∨
        ∃ b ∈ frontier, ¬ Anchored step b) := by
  cases frontier with
  | nil =>
      exact Client.MeetsBy.ofMeets (.refl _)
        (Client.Meets.pure fun order _ => ⟨⟨∅, ∅, ∅⟩, by simp, .refl _⟩)
  | cons sample rest =>
      refine Client.MeetsBy.bind
        ((conditionGroups_meetsBy hasher partitions serve step sample rest).mono
        (fun _ _ post => post) fun _ lacking => .inl ⟨sample, rfl, lacking⟩) ?_
      rintro order groups - ⟨bound, hydrated, hydrates, -, checked⟩
      refine checked.mono ?_ fun fault unanchored => .inr unanchored
      intro out kept
      refine ⟨hydrated, ?_, kept⟩
      rintro _ ⟨⟩
      exact ⟨bound, hydrates⟩

omit [Chrono] in
/-- What is found in some order of the partitions hydrates for the cluster as a
whole. -/
theorem Hydrates.ofSearch {order : List PartitionId} {step : AntiJoinStep}
    {sample : Binding} {frontier : List Binding} {hydrated : Hydrated}
    (perm : order.Perm partitions.replicasByPartition.keys)
    (hydrates : Hydrates (searchView hasher (servingOf partitions serve) order) step
      sample frontier hydrated) :
    Hydrates (clusterView hasher (servingOf partitions serve)) step sample frontier
      hydrated where
  classified := hydrates.classified
  nodeSound := hydrates.nodeSound
  edgeSound e record found := foundInOrder_sound (hydrates.edgeSound e record found)
  nodeComplete := hydrates.nodeComplete
  edgeComplete := by
    rintro b inFrontier condition member anEdge e bound record
      ⟨p, generation, serves, stored⟩
    obtain ⟨replica, picked, -⟩ := Option.map_eq_some_iff.mp serves
    have asked : p ∈ order := perm.mem_iff.mpr (mem_keys_of_pickReplica picked)
    obtain ⟨other, found⟩ := foundInOrder_complete asked serves stored
    exact hydrates.edgeComplete b inFrontier condition member anEdge e bound other found

/-- The whole anti-join, whatever the order. -/
theorem executeAntiJoin_meets (step : AntiJoinStep) (frontier : List Binding) :
    ((inProcess hasher).executeAntiJoin partitions step frontier).Meets serve
      (fun out => ∃ hydrated,
        (∀ sample ∈ frontier.head?, ¬ Lacking step sample ∧
          Hydrates (clusterView hasher (servingOf partitions serve)) step sample
            frontier hydrated) ∧
        out.Perm (frontier.filter
          (keepWith hasher (servingOf partitions serve) hydrated step)))
      (fun _ => (∃ sample ∈ frontier.head?, Lacking step sample) ∨
        ∃ b ∈ frontier, ¬ Anchored step b) := by
  refine (executeAntiJoin_meetsBy hasher partitions serve step frontier).sound.imp ?_
  rintro out ⟨order, perm, hydrated, guarantee, kept⟩
  refine ⟨hydrated, fun sample first => ?_, kept⟩
  rcases guarantee sample first with ⟨bound, hydrates⟩
  exact ⟨bound, hydrates.ofSearch hasher partitions serve perm⟩

omit [Chrono] hasher partitions serve in
/-- An anti-join whose first binding lacks an outer alias fails on such an alias
before any call, whatever carries the calls. -/
theorem executeAntiJoin_lacking (executor : ScatterGatherExecutor)
    (partitions : PartitionMap) {step : AntiJoinStep} {sample : Binding}
    (rest : List Binding) (lacking : Lacking step sample) :
    ∃ x, executor.executeAntiJoin partitions step (sample :: rest) =
      raise (.unknownAlias x) ∧
      Lacks step sample x := by
  rcases lacking with ⟨condition, member, notEdge, notNode⟩
  rcases classifyOuter_error member notEdge notNode with ⟨x, fails, lacks⟩
  refine ⟨x, ?_, lacks⟩
  rw [executeAntiJoin, conditionGroups, if_neg (List.ne_nil_of_mem member),
    resolveAndGroupByCondition, fails]
  rfl

/-! ### The fate of a binding, in terms of the view -/

/-- A binding whose outer aliases are edges where those of the sample are. -/
def AliasesAs (sample b : Binding) (step : AntiJoinStep) : Prop :=
  ∀ condition ∈ step.outerConditions,
    (condition.outer.aliasName ∈ b.edges ↔ condition.outer.aliasName ∈ sample.edges)

section Fate

variable {hasher partitions serve} {V : GraphView}
variable {step : AntiJoinStep} {sample b : Binding} {frontier : List Binding}
variable {hydrated : Hydrated}

/-- A view keeps a binding whose outer conditions all resolve exactly if no
candidate edge between its nodes has what the resolved conditions ask for;
`Asked` says that in other words, whatever the conditions resolve to. -/
theorem keep_iff_of_asks {u v : NodeId} {Asked : Properties → Prop}
    (boundFrom : b.nodes[step.fromAlias]? = some u)
    (boundTo : b.nodes[step.toAlias]? = some v) (owned : V.owned u)
    (settled : ∀ condition ∈ step.outerConditions, ∃ filter,
      ResolvesTo V b condition filter)
    (asks : ∀ resolved, List.Forall₂ (ResolvesTo V b) step.outerConditions resolved →
      ∀ properties,
        evaluateFilters properties (step.literalConditions ++ resolved) = true ↔
          Asked properties) :
    Keep V step b ↔ ¬ ∃ t record, V.candidate step.direction u t v record ∧
      TypeAllows step.edgeType t ∧ Asked record.properties := by
  constructor
  · rintro ⟨u', v', resolved, boundFrom', boundTo', -, related, nothing⟩
      ⟨t, record, candidate, typed, asked⟩
    rw [boundFrom] at boundFrom'
    rw [boundTo] at boundTo'
    cases boundFrom'
    cases boundTo'
    exact nothing ⟨t, record, candidate, typed, (asks resolved related _).mpr asked⟩
  · intro nothing
    obtain ⟨resolved, related⟩ := exists_forall₂ settled
    refine ⟨u, v, resolved, boundFrom, boundTo, owned, related, ?_⟩
    rintro ⟨t, record, candidate, typed, passes⟩
    exact nothing ⟨t, record, candidate, typed, (asks resolved related _).mp passes⟩

omit [Chrono] in
/-- Hydration finds the properties that the view gives. -/
theorem properties_iff (hydrates : Hydrates V step sample frontier hydrated)
    (agree : V.EdgesAgree) (inFrontier : b ∈ frontier)
    (aliases : AliasesAs sample b step) {condition : OuterCondition}
    (member : condition ∈ step.outerConditions) {properties : Properties} :
    hydrated.properties b condition.outer.aliasName = some properties ↔
      BoundProperties V b condition.outer.aliasName
        properties := by
  rw [Hydrated.properties, hydrates.classified condition member]
  by_cases anEdge : condition.outer.aliasName ∈ sample.edges
  · have inEdges := (aliases condition member).mpr anEdge
    obtain ⟨e, bound⟩ := (b.mem_edges_iff _).mp inEdges
    rw [decide_eq_true anEdge, if_pos rfl, bound, Option.bind_some,
      Option.map_eq_some_iff]
    constructor
    · rintro ⟨record, found, rfl⟩
      exact .edge bound (hydrates.edgeSound e record found)
    · intro boundProperties
      cases boundProperties with
      | node notEdge => rw [bound] at notEdge; cases notEdge
      | @edge e' record bound' recorded =>
          rw [bound] at bound'
          cases bound'
          obtain ⟨other, found⟩ :=
            hydrates.edgeComplete b inFrontier condition member anEdge e bound
              record recorded
          rw [found, agree e record other recorded (hydrates.edgeSound e other found)]
          exact ⟨other, rfl, rfl⟩
  · have unbound : b.edges[condition.outer.aliasName]? = none := by
      refine Std.ExtTreeMap.getElem?_eq_none fun inEdges => ?_
      exact anEdge ((aliases condition member).mp inEdges)
    rw [decide_eq_false anEdge, if_neg Bool.false_ne_true]
    constructor
    · intro found
      obtain ⟨v, bound, hydratedRecord⟩ := Option.bind_eq_some_iff.mp found
      obtain ⟨record, stored, rfl⟩ := Option.map_eq_some_iff.mp hydratedRecord
      exact .node unbound bound (hydrates.nodeSound v record stored)
    · intro boundProperties
      cases boundProperties with
      | edge bound => rw [unbound] at bound; cases bound
      | @node v record notEdge bound recorded =>
          rw [bound, Option.bind_some,
            hydrates.nodeComplete b inFrontier condition member anEdge v bound
              record recorded]
          rfl

omit [Chrono] in
/-- Once the records are fetched a condition resolves as the graph says. -/
theorem resolve_iff (hydrates : Hydrates V step sample frontier hydrated)
    (agree : V.EdgesAgree) (inFrontier : b ∈ frontier)
    (aliases : AliasesAs sample b step) {condition : OuterCondition}
    (member : condition ∈ step.outerConditions) {filter : PropertyFilter} :
    hydrated.resolve b condition = some filter ↔
      ResolvesTo V b condition filter := by
  rw [Hydrated.resolve, Option.bind_eq_bind, Option.bind_eq_some_iff]
  constructor
  · rintro ⟨properties, bound, rest⟩
    obtain ⟨value, stored, rest⟩ := Option.bind_eq_some_iff.mp rest
    obtain ⟨literal, converts, same⟩ := Option.bind_eq_some_iff.mp rest
    refine ⟨properties, value, literal, ?_, stored, converts, (Option.some.inj same).symm⟩
    exact (properties_iff hydrates agree inFrontier aliases member).mp bound
  · rintro ⟨properties, value, literal, bound, stored, converts, rfl⟩
    refine ⟨properties,
      (properties_iff hydrates agree inFrontier aliases member).mpr bound, ?_⟩
    rw [stored, Option.bind_eq_bind, Option.bind_some, converts]
    rfl

omit [Chrono] in
/-- The resolved list of a binding. -/
theorem resolveAll_iff (hydrates : Hydrates V step sample frontier hydrated)
    (agree : V.EdgesAgree) (inFrontier : b ∈ frontier)
    (aliases : AliasesAs sample b step) {conditions : List PropertyFilter} :
    hydrated.resolveAll step b = some conditions ↔ ∃ resolved,
      List.Forall₂ (ResolvesTo V b) step.outerConditions
        resolved ∧ step.literalConditions ++ resolved = conditions := by
  rw [Hydrated.resolveAll, Option.map_eq_some_iff]
  refine exists_congr fun resolved => and_congr_left fun _ => ?_
  rw [mapM_eq_some_iff]
  exact forall₂_congr fun condition member filter =>
    resolve_iff hydrates agree inFrontier aliases member

/-- The candidate edges of a generation are those that the view shows for the
nodes it owns. -/
theorem candidateExists_iff {generation : IndexGeneration} {u v : NodeId}
    (serves : servingOf partitions serve (hasher.partition u) = some generation)
    {conditions : List PropertyFilter} :
    candidateExists generation step conditions u v = true ↔ ∃ t record,
      (clusterView hasher (servingOf partitions serve)).candidate step.direction
        u t v record ∧
        TypeAllows step.edgeType t ∧
          evaluateFilters record.properties conditions = true := by
  rw [candidateExists, List.any_eq_true]
  constructor
  · rintro ⟨entry, member, holds⟩
    rw [Bool.and_eq_true, Bool.and_eq_true, typeMatches_iff] at holds
    obtain ⟨⟨typed, lands⟩, passes⟩ := holds
    cases found : generation.edgeRecords[entry.edgeId]? with
    | none => rw [found] at passes; cases passes
    | some record =>
        rw [found] at passes
        exact ⟨entry.edgeType, record,
          ⟨generation, serves, entry, member, rfl, lands, found⟩, typed,
          passes⟩
  · rintro ⟨t, record, ⟨other, serves', entry, member, rfl, lands, found⟩, typed, passes⟩
    rw [serves] at serves'
    cases serves'
    refine ⟨entry, member, ?_⟩
    rw [Bool.and_eq_true, Bool.and_eq_true, typeMatches_iff, found]
    exact ⟨⟨typed, lands⟩, passes⟩

/-- After hydration a binding survives exactly when the view keeps it.  The view
is the cluster's, but may show other edge records to the outer references. -/
theorem keepWith_iff
    (sameOwners : V.owned = (clusterView hasher (servingOf partitions serve)).owned)
    (sameCandidates : V.candidate =
      (clusterView hasher (servingOf partitions serve)).candidate)
    (hydrates : Hydrates V step sample frontier hydrated) (agree : V.EdgesAgree)
    (inFrontier : b ∈ frontier) (aliases : AliasesAs sample b step) :
    keepWith hasher (servingOf partitions serve) hydrated step b = true ↔
      Keep V step b := by
  rw [Keep, sameOwners, sameCandidates]
  have resolution : ∀ conditions, hydrated.resolveAll step b = some conditions ↔ _ :=
    fun _ =>
    resolveAll_iff hydrates agree inFrontier aliases
  constructor
  · intro kept
    rw [keepWith] at kept
    cases resolves : hydrated.resolveAll step b with
    | none => rw [resolves] at kept; cases kept
    | some conditions =>
        rw [resolves] at kept
        obtain ⟨resolved, related, rfl⟩ := (resolution conditions).mp resolves
        obtain ⟨u, v, generation, boundFrom, boundTo, serves, nothing⟩ :=
          (survives_iff hasher).mp kept
        refine ⟨u, v, resolved, boundFrom, boundTo,
          Option.isSome_iff_exists.mpr ⟨generation, serves⟩, related, ?_⟩
        exact fun candidate => nothing ((candidateExists_iff serves).mpr candidate)
  · rintro ⟨u, v, resolved, boundFrom, boundTo, owned, related, nothing⟩
    obtain ⟨generation, serves⟩ := Option.isSome_iff_exists.mp owned
    rw [keepWith, (resolution _).mpr ⟨resolved, related, rfl⟩]
    apply (survives_iff hasher).mpr
    exact ⟨u, v, generation, boundFrom, boundTo, serves,
      fun candidate => nothing ((candidateExists_iff serves).mp candidate)⟩

end Fate

end Group

end GraphEngine
