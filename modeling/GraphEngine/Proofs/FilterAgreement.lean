/-
Module: GraphEngine.Proofs.FilterAgreement
Layer: Proofs
Purpose: The two ways of checking `WHERE` filters on a hop target.  The
  partition looks nodes up in its property index and refuses what the index
  cannot express; the coordinator compares hydrated records.  The two keep the
  same bindings exactly where the index shows what satisfies the filters and its
  ranges take in nothing else.
Trusted boundary: none
Main exports: refusal, inRange_iff, Unseen, Overreached, ChecksAgree,
  IndexStandsIn, filtersAgree_iff, indexStandsIn_of_answeredUnder
-/
import GraphEngine.Proofs.PropertyLookup
import GraphEngine.Proofs.Served
import GraphEngine.Proofs.StartResolution

namespace GraphEngine

open Std (ExtTreeSet)
open SimpleLocalExecutor

/-! ### Bounds -/

section Bounds

/-- Being within a bound is what the operator of the bound accepts. -/
theorem Bound.allowsBelow_eq (key key' : PropertyKey) :
    (Bound.excluded key).allowsBelow key' = ComparisonOp.gt.accepts (compare key' key) ∧
      (Bound.included key).allowsBelow key' = ComparisonOp.gte.accepts
        (compare key' key) := by
  have turned : compare key key' = (compare key' key).swap := Std.OrientedCmp.eq_swap
  rw [Bound.allowsBelow, Bound.allowsBelow, turned]
  cases compare key' key <;> exact ⟨rfl, rfl⟩

/-- Upper bounds allow what `<` and `<=` accept. -/
theorem Bound.allowsAbove_eq (key key' : PropertyKey) :
    (Bound.excluded key).allowsAbove key' = ComparisonOp.lt.accepts (compare key' key) ∧
      (Bound.included key).allowsAbove key' = ComparisonOp.lte.accepts
        (compare key' key) := by
  rw [Bound.allowsAbove, Bound.allowsAbove]
  cases compare key' key <;> exact ⟨rfl, rfl⟩

end Bounds

/-! ### Filters through the index -/

section Index

variable {properties : PropertyIndex} {label : String} {filter : PropertyFilter}
variable {filters : List PropertyFilter}

/-- What the property index cannot express: a literal without a key, and `<>`. -/
def refusal (filter : PropertyFilter) : Option Fault :=
  match literalToPropertyKey filter.value with
  | .error message => some (.panic message)
  | .ok _ =>
      if filter.op = .ne then
        some (.error (.unknownAlias
            s!"WHERE ... <> on property {filter.property} is not supported in v1"))
      else none

/-- The node is indexed under a key that the operator accepts against the
literal's. -/
def FoundBy (properties : PropertyIndex) (label : String) (filter : PropertyFilter)
    (v : NodeId) : Prop :=
  ∃ key, literalToPropertyKey filter.value = .ok key ∧
    ∃ key', filter.op.accepts (compare key' key) = true ∧
    v ∈ properties.lookupEq label filter.property key'

/-- A filter that the index refuses fails the call. -/
theorem propertyFilterMatches_refused {fault : Fault}
    (refused : refusal filter = some fault) :
    propertyFilterMatches properties label filter = .error fault := by
  rw [refusal] at refused
  unfold propertyFilterMatches
  cases keyed : literalToPropertyKey filter.value with
  | error message =>
      rw [keyed] at refused
      cases refused
      rfl
  | ok key =>
      rw [keyed] at refused
      dsimp only at refused
      split at refused
      case isTrue unequal =>
          cases refused
          rw [unequal]
          rfl
      case isFalse => cases refused

/-- The range that an operator asks of the index holds the keys that it
accepts. -/
theorem propertyFilterMatches_ok (accepted : refusal filter = none) :
    ∃ found, propertyFilterMatches properties label filter = .ok found ∧
      ∀ v, v ∈ found ↔ FoundBy properties label filter v := by
  rw [refusal] at accepted
  unfold propertyFilterMatches FoundBy
  cases keyed : literalToPropertyKey filter.value with
  | error message =>
      rw [keyed] at accepted
      cases accepted
  | ok key =>
      rw [keyed] at accepted
      simp only [Except.ok.injEq, exists_eq_left']
      cases op : filter.op with
      | eq =>
          refine ⟨_, rfl, fun v => ?_⟩
          rw [mem_setOfList]
          constructor
          · exact fun member => ⟨key, by simp [ComparisonOp.accepts], member⟩
          · rintro ⟨key', same, member⟩
            have equal : compare key' key = .eq := by
              simpa [ComparisonOp.accepts] using same
            rwa [Std.LawfulEqOrd.eq_of_compare equal] at member
      | ne =>
          rw [op] at accepted
          cases accepted
      | gt =>
          refine ⟨_, rfl, fun v => ?_⟩
          simp only [mem_setOfList, mem_lookupRange, (Bound.allowsBelow_eq _ _).1,
            Bound.allowsAbove, true_and]
      | gte =>
          refine ⟨_, rfl, fun v => ?_⟩
          simp only [mem_setOfList, mem_lookupRange, (Bound.allowsBelow_eq _ _).2,
            Bound.allowsAbove, true_and]
      | lt =>
          refine ⟨_, rfl, fun v => ?_⟩
          simp only [mem_setOfList, mem_lookupRange, (Bound.allowsAbove_eq _ _).1,
            Bound.allowsBelow, true_and]
      | lte =>
          refine ⟨_, rfl, fun v => ?_⟩
          simp only [mem_setOfList, mem_lookupRange, (Bound.allowsAbove_eq _ _).2,
            Bound.allowsBelow, true_and]

/-- The nodes allowed so far. -/
def Allows (allowed : Option (ExtTreeSet NodeId compare)) (v : NodeId) : Prop :=
  ∀ nodes, allowed = some nodes → v ∈ nodes

/-- The first filter that the index cannot express ends the check, whatever was
found before. -/
theorem allowedNodes_refused {fault : Fault}
    (refused : filters.findSome? refusal = some fault) :
    allowedNodes properties label filters = .error fault := by
  rw [allowedNodes]
  generalize (none : Option (ExtTreeSet NodeId compare)) = allowed
  induction filters generalizing allowed with
  | nil => cases refused
  | cons filter rest inductionHypothesis =>
      rw [List.foldlM_cons]
      rw [List.findSome?_cons] at refused
      cases here : refusal filter with
      | some first =>
          rw [here] at refused
          cases refused
          rw [propertyFilterMatches_refused here]
          rfl
      | none =>
          rw [here] at refused
          obtain ⟨found, ends, -⟩ :=
            @propertyFilterMatches_ok properties label filter here
          rw [ends]
          cases allowed with
          | none => exact inductionHypothesis refused (some found)
          | some previous =>
              exact inductionHypothesis refused
                (some (previous.filter fun id => id ∈ found))

/-- The nodes allowed are those that every filter finds. -/
theorem allowedNodes_ok (accepted : filters.findSome? refusal = none) :
    ∃ allowed, allowedNodes properties label filters = .ok allowed ∧
      (filters ≠ [] → allowed.isSome) ∧
      ∀ v, Allows allowed v ↔ ∀ filter ∈ filters, FoundBy properties label filter v := by
  rw [allowedNodes]
  induction filters using List.reverseRecOn with
  | nil =>
      exact ⟨none, rfl, fun nonempty => absurd rfl nonempty, fun v => by simp [Allows]⟩
  | append_singleton filters filter inductionHypothesis =>
      rw [List.findSome?_append, Option.or_eq_none_iff,
        List.findSome?_singleton] at accepted
      obtain ⟨allowed, ends, -, allows⟩ := inductionHypothesis accepted.1
      obtain ⟨found, last, isFound⟩ :=
        @propertyFilterMatches_ok properties label filter accepted.2
      rw [List.foldlM_append, ends]
      have split : ∀ v,
          (∀ filter' ∈ filters ++ [filter], FoundBy properties label filter' v) ↔
          Allows allowed v ∧ v ∈ found := by
        intro v
        rw [List.forall_mem_append, List.forall_mem_singleton, allows, isFound]
      cases allowed with
      | none =>
          refine ⟨some found, ?_, fun _ => rfl, fun v => ?_⟩
          · simp only [List.foldlM_cons, List.foldlM_nil, last]
            rfl
          · rw [split]
            simp [Allows]
      | some previous =>
          refine ⟨some (previous.filter fun id => id ∈ found), ?_, fun _ =>
            rfl, fun v => ?_⟩
          · simp only [List.foldlM_cons, List.foldlM_nil, last]
            rfl
          · rw [split]
            simp [Allows]

/-- The check fails on the first filter that the index cannot express, with what
is documented of it. -/
theorem applyFilters_refused {fault : Fault}
    (refused : filters.findSome? refusal = some fault) (toAlias : String)
    (bindings : List Binding) :
    applyFilters properties (some label) toAlias filters bindings = .error fault := by
  have nonempty : filters ≠ [] := by
    rintro rfl
    cases refused
  unfold applyFilters
  rw [if_neg nonempty]
  dsimp only
  rw [allowedNodes_refused refused]
  rfl

/-- It fails where a binding does not bind the target. -/
theorem bound_of_applyFilters {toAlias : String} {bindings kept : List Binding}
    (nonempty : filters ≠ [])
    (ends : applyFilters properties
      (some label) toAlias filters bindings = .ok kept) :
    ∀ b ∈ bindings, toAlias ∈ b.nodes := by
  intro b member
  unfold applyFilters at ends
  rw [if_neg nonempty] at ends
  dsimp only at ends
  cases allowed : allowedNodes properties label filters with
  | error fault =>
      rw [allowed] at ends
      cases ends
  | ok nodes =>
      rw [allowed] at ends
      rcases tested_of_filterM ends member with ⟨holds, tested⟩
      cases found : b.nodes[toAlias]? with
      | none =>
          rw [found] at tested
          cases tested
      | some v => exact (b.mem_nodes_iff _).mpr ⟨v, found⟩

/-- Otherwise it keeps, in their order, the bindings whose target every filter
finds. -/
theorem applyFilters_ok (accepted : filters.findSome? refusal = none)
    {toAlias : String} {bindings : List Binding}
    (bound : ∀ b ∈ bindings, toAlias ∈ b.nodes) : ∃ keeps : Binding → Bool,
      applyFilters properties (some label) toAlias filters bindings =
        .ok (bindings.filter keeps) ∧
      ∀ b ∈ bindings, keeps b = true ↔
        ∀ v, b.nodes[toAlias]? = some v →
          ∀ filter ∈ filters, FoundBy properties label filter v := by
  unfold applyFilters
  split
  case isTrue none =>
      refine ⟨fun _ => true, by rw [List.filter_true], fun b _ => iff_of_true rfl ?_⟩
      simp [none]
  case isFalse nonempty =>
      obtain ⟨allowed, ends, known, allows⟩ :=
        @allowedNodes_ok properties label filters accepted
      obtain ⟨nodes, rfl⟩ := Option.isSome_iff_exists.mp (known nonempty)
      refine ⟨fun b => (b.nodes[toAlias]?).any fun v => v ∈ nodes, ?_, fun b member => ?_⟩
      · dsimp only
        rw [ends]
        apply filterM_ok
        intro b member
        obtain ⟨v, found⟩ := (b.mem_nodes_iff _).mp (bound b member)
        rw [found]
        rfl
      · obtain ⟨v, found⟩ := (b.mem_nodes_iff _).mp (bound b member)
        have allowsV := allows v
        simp only [Allows, Option.some.injEq, forall_eq'] at allowsV
        simp [found, allowsV]

end Index

/-! ### Values and their keys -/

/-- Keys of different variants compare as the variants do. -/
theorem PropertyKey.compare_of_variants {key key' : PropertyKey}
    (differ : key'.variant ≠ key.variant) :
    compare key' key = compare key'.variant key.variant := by
  have notEqual : compare key'.variant key.variant ≠ .eq := fun same =>
    differ (Std.LawfulEqOrd.eq_of_compare same)
  show (compare key'.variant key.variant).then _ = _
  cases order : compare key'.variant key.variant with
  | lt => rfl
  | gt => rfl
  | eq => exact absurd order notEqual

section Values

variable [Chrono]

/-- The operators whose ranges end below the timestamps, when the bound is no
timestamp. -/
def ComparisonOp.EndsBelow (op : ComparisonOp) : Prop := op = .eq ∨ op = .lt ∨ op = .lte

/-- A value is in the range that an operator asks of the index exactly when it
is no timestamp above the range, and the literal matches it or it is of another
kind that the range takes in. -/
theorem inRange_iff {value : PropertyValue} {literal : Literal} {op : ComparisonOp}
    {key key' : PropertyKey} (indexed : propertyKey value = some key')
    (keyed : literalToPropertyKey literal = .ok key) (notNe : op ≠ .ne) :
    op.accepts (compare key' key) = true ↔
      ¬ ((∃ t, value = .timestamp t) ∧ op.EndsBelow) ∧
      (literalMatches value op literal = true ∨
        key'.variant ≠ key.variant ∧
          op.accepts (compare key'.variant key.variant) = true) := by
  by_cases same : key'.variant = key.variant
  · -- no literal has the variant of timestamps
    have noTime : ¬ ∃ t, value = .timestamp t := by
      rintro ⟨t, rfl⟩
      cases indexed
      cases literal <;> cases keyed <;> cases same
    rw [literalMatches, literalOrdering_of_keys indexed keyed same]
    simp [noTime, same]
  · rw [PropertyKey.compare_of_variants same]
    by_cases time : ∃ t, value = .timestamp t
    · obtain ⟨t, rfl⟩ := time
      cases indexed
      have above : compare (PropertyKey.timestamp t).variant key.variant = .gt := by
        cases literal <;> cases keyed <;> rfl
      cases op <;>
        simp [above, same, ComparisonOp.accepts, ComparisonOp.EndsBelow] at notNe ⊢
    · have incomparable : literalMatches value op literal = false := by
        cases literal <;> cases keyed <;> cases value <;> cases indexed <;>
          first | rfl | exact absurd rfl same | exact absurd ⟨_, rfl⟩ time
      simp [time, same, incomparable]

end Values

/-- The label marks a property of that name as indexed. -/
def Schema.IndexesName (schema : Schema) (label : Label) (property : String) : Prop :=
  ∃ prop, schema.Indexes label prop ∧ prop.name = property

/-- The index does not show a record under the property of a filter, or not to
the filter's operator: the record is under another label, the label does not
mark the property as indexed, or a timestamp is stored, which the ranges of `=`,
`<` and `<=` never reach. -/
inductive Unseen (schema : Schema) (label : Label) (record : NodeRecord)
    (filter : PropertyFilter) : Prop where
  | otherLabel (differ : record.label ≠ label)
  | unindexed (lacks : ¬ schema.IndexesName label filter.property)
  | timestamp {t : Int}
      (stored : record.properties[filter.property]? = some (.timestamp t))
      (endsBelow : filter.op.EndsBelow)

/-- The stored value is of another kind than the literal, and the range of the
operator takes that kind in. -/
def Overreached (record : NodeRecord) (filter : PropertyFilter) : Prop :=
  ∃ value key key', record.properties[filter.property]? = some value ∧
    propertyKey value = some key' ∧
    literalToPropertyKey filter.value = .ok key ∧ key'.variant ≠ key.variant ∧
    filter.op.accepts (compare key'.variant key.variant) = true

/-! ### A built generation -/

section Built

variable {dataset : Dataset} {hasher : Partitioning} {p : PartitionId}
variable {generation : IndexGeneration}
variable {label : Label} {filter : PropertyFilter}

/-- A node is found under an indexed property by the key of its stored value. -/
theorem foundBy_iff_stored (unique : dataset.UniqueNodeIds)
    (built : dataset.Built hasher p generation) {key : PropertyKey}
    (keyed : literalToPropertyKey filter.value = .ok key) {v : NodeId} :
    FoundBy generation.properties label.name filter v ↔
      dataset.schema.IndexesName label filter.property ∧
      ∃ record, generation.nodeRecords[v]? = some record ∧ record.label = label ∧
        ∃ value, record.properties[filter.property]? = some value ∧
          ∃ key', propertyKey value = some key' ∧
            filter.op.accepts (compare key' key) = true := by
  have underKey : ∀ key',
      v ∈ generation.properties.lookupEq label.name filter.property key' ↔
      dataset.schema.IndexesName label filter.property ∧
        generation.Retains label filter.property (fun other => other = key') v := by
    intro key'
    by_cases indexes : dataset.schema.IndexesName label filter.property
    · obtain ⟨prop, indexed, named⟩ := indexes
      rw [← named]
      exact (mem_lookupEq_iff_retains unique built indexed).trans
        (iff_and_self.mpr fun _ => ⟨prop, indexed, rfl⟩)
    · rw [lookupEq_eq_nil_of_built built
        fun prop indexed named => indexes ⟨prop, indexed, named⟩]
      exact iff_of_false List.not_mem_nil fun both => indexes both.1
  rw [FoundBy, keyed]
  simp only [Except.ok.injEq, exists_eq_left', underKey]
  constructor
  · rintro ⟨key', accepts, indexes, record, value, key'', retained, labelled, stored,
      -, valueKey, rfl⟩
    exact ⟨indexes, record, retained, labelled, value, stored, key'', valueKey, accepts⟩
  · rintro ⟨indexes, record, retained, labelled, value, stored, key', valueKey, accepts⟩
    refine ⟨key', accepts, indexes, record, value, key', retained, labelled, stored,
      ?_, valueKey, rfl⟩
    rintro rfl
    cases valueKey

/-- What the index cannot express has no key, or is `<>`. -/
theorem key_of_accepted (accepted : refusal filter = none) :
    filter.op ≠ .ne ∧ ∃ key, literalToPropertyKey filter.value = .ok key := by
  rw [refusal] at accepted
  cases keyed : literalToPropertyKey filter.value with
  | error message =>
      rw [keyed] at accepted
      cases accepted
  | ok key =>
      rw [keyed] at accepted
      dsimp only at accepted
      split at accepted
      case isTrue => cases accepted
      case isFalse notNe => exact ⟨notNe, key, rfl⟩

variable [Chrono]

/-- A node is found by the index when the index shows its record to the filter,
and the record satisfies the filter or the range reaches too far. -/
theorem foundBy_iff (unique : dataset.UniqueNodeIds)
    (built : dataset.Built hasher p generation) (accepted : refusal filter = none)
    {v : NodeId} {record : NodeRecord}
    (recorded : generation.nodeRecords[v]? = some record) :
    FoundBy generation.properties label.name filter v ↔
      ¬ Unseen dataset.schema label record filter ∧
      (evaluateFilter record.properties filter = true ∨ Overreached record filter) := by
  obtain ⟨notNe, key, keyed⟩ := key_of_accepted accepted
  rw [foundBy_iff_stored unique built keyed]
  simp only [recorded, Option.some.injEq, exists_eq_left']
  constructor
  · rintro ⟨indexes, labelled, value, stored, key', valueKey, accepts⟩
    obtain ⟨reached, agrees⟩ := (inRange_iff valueKey keyed notNe).mp accepts
    constructor
    · rintro (differ | lacks | ⟨isTime, endsBelow⟩)
      · exact differ labelled
      · exact lacks indexes
      · rw [stored] at isTime
        exact reached ⟨⟨_, Option.some.inj isTime⟩, endsBelow⟩
    · rw [evaluateFilter, stored]
      refine agrees.imp id fun farther => ?_
      exact ⟨value, key, key', stored, valueKey, keyed, farther.1, farther.2⟩
  · rintro ⟨seen, agrees⟩
    have labelled : record.label = label := by_contra fun differ =>
      seen (.otherLabel differ)
    have indexes := not_not.mp fun lacks => seen (.unindexed lacks)
    refine ⟨indexes, labelled, ?_⟩
    have untimely : ∀ value, record.properties[filter.property]? = some value →
        ¬ ((∃ t, value = .timestamp t) ∧ filter.op.EndsBelow) := by
      rintro _ stored ⟨⟨t, rfl⟩, endsBelow⟩
      exact seen (.timestamp stored endsBelow)
    rcases agrees
      with holds | ⟨value, key₀, key', stored, valueKey, keyed₀, differ, takesIn⟩
    · rw [evaluateFilter] at holds
      cases stored : record.properties[filter.property]? with
      | none =>
          rw [stored] at holds
          cases holds
      | some value =>
          rw [stored] at holds
          -- a value that a literal with a key matches has a key
          have hasKey : ∃ key', propertyKey value = some key' := by
            rcases literal_cases : filter.value with l | l | l | l <;>
              rw [literal_cases] at holds keyed <;>
              cases value <;> first | exact ⟨_, rfl⟩ | cases holds | cases keyed
          obtain ⟨key', valueKey⟩ := hasKey
          exact ⟨value, rfl, key', valueKey,
            (inRange_iff valueKey keyed notNe).mpr ⟨untimely value stored, .inl holds⟩⟩
    · rw [keyed] at keyed₀
      cases keyed₀
      exact ⟨value, stored, key', valueKey,
        (inRange_iff valueKey keyed notNe).mpr
          ⟨untimely value stored, .inr ⟨differ, takesIn⟩⟩⟩

end Built

/-! ### The two checks -/

section Checks

variable [Chrono] {dataset : Dataset} {hasher : Partitioning} {partitions : PartitionMap}
variable {serve : GenerationHandle → IndexGeneration} {replica : ReplicaEndpoint}
variable {label : Label} {step : ExpandHop}

/-- The check through the index succeeds and keeps, in their order, the bindings
whose target's record satisfies every filter, and the check of the records, in
every run, keeps the same.  The one is what a partition does by itself, the
other what the coordinator does with the records that it fetches. -/
def ChecksAgree (dataset : Dataset) (hasher : Partitioning)
    (partitions : PartitionMap) (serve : GenerationHandle → IndexGeneration)
    (generation : IndexGeneration) (step : ExpandHop) (bindings : List Binding) :
    Prop :=
  ∃ kept, applyFilters generation.properties step.toLabel step.toAlias step.filters
    bindings = .ok kept ∧
    (∀ b, b ∈ kept ↔ b ∈ bindings ∧ PassesFilters dataset.view step b) ∧
    ∀ outcome, ((inProcess hasher).filterFrontier partitions step bindings).Returns
      serve outcome →
      outcome = .ok kept

/-- The index can stand in for the records of some bindings.  It can express
every filter, every binding binds the target, it shows the records that satisfy
all filters to each of them, and of a record that does not satisfy all, some
filter keeps the node out: one to which the record is not shown, or one that
fails and whose range does not reach too far. -/
structure IndexStandsIn (dataset : Dataset) (label : Label) (step : ExpandHop)
    (bindings : List Binding) : Prop where
  expressible : ∀ filter ∈ step.filters, refusal filter = none
  bound : step.filters ≠ [] → ∀ b ∈ bindings, step.toAlias ∈ b.nodes
  shown : ∀ b ∈ bindings, ∀ v record, b.nodes[step.toAlias]? = some v →
    dataset.view.nodeRecord v record →
    evaluateFilters record.properties step.filters = true →
    ∀ filter ∈ step.filters, ¬ Unseen dataset.schema label record filter
  keptOut : ∀ b ∈ bindings, ∀ v record, b.nodes[step.toAlias]? = some v →
    dataset.view.nodeRecord v record →
    evaluateFilters record.properties step.filters = false →
    ∃ filter ∈ step.filters, Unseen dataset.schema label record filter ∨
      evaluateFilter record.properties filter = false ∧ ¬ Overreached record filter

omit [Chrono] in
/-- The only partition shows its records, and they are those of the tables. -/
theorem nodeRecord_clusterView_iff (single : hasher.nPartitions = 1)
    (picked : pickReplica partitions ⟨0⟩ = some replica) {v : NodeId}
    {record : NodeRecord} :
    (clusterView hasher (servingOf partitions serve)).nodeRecord v record ↔
      (serve replica.handle).nodeRecords[v]? = some record := by
  have serves : servingOf partitions serve (hasher.partition v) =
      some (serve replica.handle) := by
    rw [partition_eq_zero single, servingOf_of_pick serve picked]
  constructor
  · rintro ⟨generation, served, recorded⟩
    rw [serves] at served
    cases served
    exact recorded
  · exact fun recorded => ⟨_, serves, recorded⟩

omit [Chrono] in
/-- The one partition has the records of all nodes. -/
theorem nodeRecord_view_iff (single : hasher.nPartitions = 1)
    (unique : dataset.UniqueNodeIds) {generation : IndexGeneration}
    (built : dataset.Built hasher ⟨0⟩ generation) {v : NodeId} {record : NodeRecord} :
    dataset.view.nodeRecord v record ↔ generation.nodeRecords[v]? = some record := by
  rw [nodeRecord_iff_of_built unique built]
  exact (and_iff_right (partition_eq_zero single v)).symm

/-- A node passes the filters in the cluster exactly where its record in the one
partition does. -/
theorem passesFilters_clusterView_iff (single : hasher.nPartitions = 1)
    (unique : dataset.UniqueNodeIds)
    (picked : pickReplica partitions ⟨0⟩ = some replica)
    (built : dataset.Built hasher ⟨0⟩ (serve replica.handle)) (b : Binding) :
    PassesFilters (clusterView hasher (servingOf partitions serve)) step b ↔
      PassesFilters dataset.view step b := by
  simp only [PassesFilters, nodeRecord_clusterView_iff single picked,
    nodeRecord_view_iff single unique built]

/-- For one record: all filters find the node exactly when the record satisfies
them, unless the index hides what satisfies them or reaches what does not. -/
theorem foundByAll_iff (unique : dataset.UniqueNodeIds) {p : PartitionId}
    {generation : IndexGeneration} (built : dataset.Built hasher p generation)
    {filters : List PropertyFilter}
    (accepted : ∀ filter ∈ filters, refusal filter = none) {v : NodeId}
    {record : NodeRecord} (recorded : generation.nodeRecords[v]? = some record) :
    ((∀ filter ∈ filters, FoundBy generation.properties label.name filter v) ↔
      evaluateFilters record.properties filters = true) ↔
    (evaluateFilters record.properties filters = true →
      ∀ filter ∈ filters, ¬ Unseen dataset.schema label record filter) ∧
    (evaluateFilters record.properties filters = false →
      ∃ filter ∈ filters, Unseen dataset.schema label record filter ∨
        evaluateFilter record.properties filter = false ∧
          ¬ Overreached record filter) := by
  have found : ∀ filter ∈ filters, FoundBy generation.properties label.name filter v ↔
      ¬ Unseen dataset.schema label record filter ∧
        (evaluateFilter record.properties filter = true ∨ Overreached record filter) :=
    fun filter member => foundBy_iff unique built (accepted filter member) recorded
  cases satisfied : evaluateFilters record.properties filters with
  | true =>
      have each := List.all_eq_true.mp satisfied
      simp only [iff_true, Bool.true_eq_false, false_implies, and_true, true_implies]
      refine forall_congr' fun filter => imp_congr_right fun member => ?_
      rw [found filter member]
      exact and_iff_left (.inl (each filter member))
  | false =>
      simp only [Bool.false_eq_true, iff_false, false_implies, true_implies, true_and,
        not_forall]
      constructor
      · rintro ⟨filter, member, missed⟩
        rw [found filter member, not_and_or, not_not, not_or, Bool.not_eq_true] at missed
        exact ⟨filter, member, missed⟩
      · rintro ⟨filter, member, missed⟩
        refine ⟨filter, member, ?_⟩
        rw [found filter member, not_and_or, not_not, not_or, Bool.not_eq_true]
        exact missed

/-- For one binding: all filters find its target exactly when it passes the
check of the records. -/
theorem keeps_iff_passes (unique : dataset.UniqueNodeIds)
    (single : hasher.nPartitions = 1) {generation : IndexGeneration}
    (built : dataset.Built hasher ⟨0⟩ generation)
    (accepted : ∀ filter ∈ step.filters, refusal filter = none) {b : Binding}
    {v : NodeId} (bound : b.nodes[step.toAlias]? = some v) :
    ((∀ filter ∈ step.filters, FoundBy generation.properties label.name filter v) ↔
      PassesFilters dataset.view step b) ↔
    (∀ record, dataset.view.nodeRecord v record →
      evaluateFilters record.properties step.filters = true →
      ∀ filter ∈ step.filters, ¬ Unseen dataset.schema label record filter) ∧
    ∀ record, dataset.view.nodeRecord v record →
      evaluateFilters record.properties step.filters = false →
      ∃ filter ∈ step.filters, Unseen dataset.schema label record filter ∨
        evaluateFilter record.properties filter = false ∧
          ¬ Overreached record filter := by
  simp only [PassesFilters, bound, Option.some.injEq,
    nodeRecord_view_iff single unique built, exists_and_left, exists_eq_left']
  cases recorded : generation.nodeRecords[v]? with
  | none =>
      simp only [reduceCtorEq, false_and, exists_false, or_false, false_implies,
        implies_true, and_true, iff_true]
      constructor
      · intro each
        by_contra nonempty
        obtain ⟨filter, member⟩ := List.exists_mem_of_ne_nil _ nonempty
        obtain ⟨key, keyed⟩ := (key_of_accepted (accepted filter member)).2
        obtain ⟨-, record, retained, -⟩ :=
          (foundBy_iff_stored unique built keyed).mp (each filter member)
        rw [recorded] at retained
        cases retained
      · intro empty filter member
        rw [empty] at member
        cases member
  | some record =>
      have passes : (step.filters = [] ∨
          evaluateFilters record.properties step.filters = true) ↔
          evaluateFilters record.properties step.filters = true := by
        refine or_iff_right_of_imp fun empty => ?_
        rw [empty]
        rfl
      simp only [Option.some.injEq, exists_eq_left', forall_eq', passes]
      exact foundByAll_iff unique built accepted recorded

omit [Chrono] in
/-- Without filters both checks keep everything. -/
theorem applyFilters_empty {properties : PropertyIndex} {toLabel : Option String}
    {toAlias : String} (bindings : List Binding) :
    applyFilters properties toLabel toAlias [] bindings = .ok bindings := by
  unfold applyFilters
  rw [if_pos rfl]

/-- Where the index stands in, its check keeps what passes the check of the
records. -/
theorem applyFilters_of_standsIn (unique : dataset.UniqueNodeIds)
    (single : hasher.nPartitions = 1) {generation : IndexGeneration}
    (built : dataset.Built hasher ⟨0⟩ generation)
    (labelled : step.toLabel = some label.name) {bindings : List Binding}
    (standsIn : IndexStandsIn dataset label step bindings) : ∃ keeps : Binding → Bool,
      applyFilters generation.properties step.toLabel step.toAlias step.filters bindings =
        .ok (bindings.filter keeps) ∧
      ∀ b ∈ bindings, keeps b = true ↔ PassesFilters dataset.view step b := by
  by_cases empty : step.filters = []
  · refine ⟨fun _ => true, ?_, fun b _ => iff_of_true rfl (.inl empty)⟩
    rw [empty, applyFilters_empty, List.filter_true]
  · have accepted := List.findSome?_eq_none_iff.mpr standsIn.expressible
    obtain ⟨keeps, ends, keepsIff⟩ :=
      @applyFilters_ok generation.properties label.name _ accepted _ _
        (standsIn.bound empty)
    refine ⟨keeps, labelled ▸ ends, fun b member => (keepsIff b member).trans ?_⟩
    obtain ⟨v, found⟩ := (b.mem_nodes_iff _).mp (standsIn.bound empty b member)
    simp only [found, Option.some.injEq, forall_eq']
    exact (keeps_iff_passes unique single built standsIn.expressible found).mpr
      ⟨fun record => standsIn.shown b member v record found,
        fun record => standsIn.keptOut b member v record found⟩

/-- Where the check through the index keeps what passes the check of the
records, the index stands in. -/
theorem standsIn_of_applyFilters (unique : dataset.UniqueNodeIds)
    (single : hasher.nPartitions = 1) {generation : IndexGeneration}
    (built : dataset.Built hasher ⟨0⟩ generation)
    (labelled : step.toLabel = some label.name) {bindings kept : List Binding}
    (ends : applyFilters generation.properties step.toLabel step.toAlias
      step.filters bindings = .ok kept)
    (content : ∀ b, b ∈ kept ↔ b ∈ bindings ∧ PassesFilters dataset.view step b) :
    IndexStandsIn dataset label step bindings := by
  by_cases empty : step.filters = []
  · constructor <;> simp [empty, evaluateFilters]
  · rw [labelled] at ends
    have accepted : step.filters.findSome? refusal = none := by
      cases refused : step.filters.findSome? refusal with
      | none => rfl
      | some fault =>
          rw [applyFilters_refused refused] at ends
          cases ends
    have bound := bound_of_applyFilters empty ends
    have expressible := List.findSome?_eq_none_iff.mp accepted
    obtain ⟨keeps, ends', keepsIff⟩ :=
      @applyFilters_ok generation.properties label.name _ accepted _ _ bound
    rw [ends] at ends'
    cases ends'
    have each : ∀ b ∈ bindings, ∀ v, b.nodes[step.toAlias]? = some v →
        ((∀ filter ∈ step.filters, FoundBy generation.properties label.name filter v) ↔
          PassesFilters dataset.view step b) := by
      intro b member v found
      have same : keeps b = true ↔ PassesFilters dataset.view step b := by
        have inKept := content b
        rw [List.mem_filter] at inKept
        simpa [member] using inKept
      have byAll := (keepsIff b member).symm.trans same
      simpa only [found, Option.some.injEq, forall_eq'] using byAll
    have standsIn := fun b member v found =>
      (keeps_iff_passes unique single built expressible found).mp (each b member v found)
    exact ⟨expressible, fun _ => bound, fun b member v record found =>
      (standsIn b member v found).1 record,
      fun b member v record found => (standsIn b member v found).2 record⟩

/-- On a generation that holds all of a dataset, the check of filters through
the property index agrees with the check of the records exactly when the index
can stand in for the records that the bindings lead to.

* `single`, `picked`, `built`: there is one partition, its replica is found, and
  it serves what the builder makes of the dataset;
* `unique`: a node has one row, hence one record;
* `labelled`: the target of the hop has a label, as a hop with filters that is
  planned and executed without a fault has;
* the bindings are arbitrary, and so are the filters. -/
theorem filtersAgree_iff (unique : dataset.UniqueNodeIds)
    (single : hasher.nPartitions = 1)
    (picked : pickReplica partitions ⟨0⟩ = some replica)
    (built : dataset.Built hasher ⟨0⟩ (serve replica.handle))
    (labelled : step.toLabel = some label.name) (bindings : List Binding) :
    ChecksAgree dataset hasher partitions serve (serve replica.handle) step bindings ↔
      IndexStandsIn dataset label step bindings := by
  constructor
  · rintro ⟨kept, ends, content, -⟩
    exact standsIn_of_applyFilters unique single built labelled ends content
  · intro standsIn
    obtain ⟨keeps, ends, passes⟩ :=
      applyFilters_of_standsIn unique single built labelled standsIn
    refine ⟨_, ends, fun b => ?_, fun outcome returns => ?_⟩
    · rw [List.mem_filter]
      exact and_congr_right (passes b)
    · -- the check of the records never fails, and goes by the same records
      have meets :=
        @filterFrontier_keeps _ hasher partitions serve (fun _ => False) step bindings
      cases outcome with
      | error fault => exact (meets.error returns).elim
      | ok out =>
          obtain ⟨passing, rfl, passesHere⟩ := meets.ok returns
          refine congrArg Except.ok (List.filter_congr fun b member => ?_)
          rw [Bool.eq_iff_iff, passes b member, passesHere b member]
          exact passesFilters_clusterView_iff single unique picked built b

/-! ### Declarations that the index can answer for -/

omit [Chrono] in
/-- A type whose values the index answers for as the records do: of the
literal's own type with the property indexed, or of another with `=` or the
property not indexed.  Texts do not find timestamps, and floats are no keys. -/
def ScalarType.AnsweredFor (indexed : Prop) (filter : PropertyFilter)
    (ty : ScalarType) : Prop :=
  match ty, filter.value with
  | .int64, .int64 _ | .bool, .bool _ | .string, .string _ => indexed
  | .timestamp, .string _ | .float64, .float64 _ => False
  | _, _ => filter.op = .eq ∨ ¬ indexed

/-- A conforming value of such a type is matched only where it is shown, and
kept out where it is not matched. -/
theorem answered_of_answeredFor {indexed : Prop} {filter : PropertyFilter}
    {ty : ScalarType} {value : PropertyValue}
    (answered : ty.AnsweredFor indexed filter) (typed : HasType value ty) :
    (literalMatches value filter.op filter.value = true → indexed ∧
      ∀ t, value ≠ .timestamp t) ∧
      (¬ indexed ∨ ∀ key key', propertyKey value = some key' →
        literalToPropertyKey filter.value = .ok key →
        key'.variant ≠ key.variant →
          filter.op.accepts (compare key'.variant key.variant) = false) := by
  have byEquality : filter.op = .eq → ∀ key key' : PropertyKey,
      key'.variant ≠ key.variant →
      filter.op.accepts (compare key'.variant key.variant) = false := by
    intro isEq key key' differ
    rw [isEq, ComparisonOp.accepts, beq_eq_false_iff_ne]
    exact fun same => differ (Std.LawfulEqOrd.eq_of_compare same)
  obtain ⟨property, op, literal⟩ := filter
  constructor
  · intro holds
    cases typed <;> cases literal <;> first | cases holds | exact answered.elim | skip
    case int64.int64 => exact ⟨answered, fun t isTime => by cases isTime⟩
    case bool.bool => exact ⟨answered, fun t isTime => by cases isTime⟩
    case string.string => exact ⟨answered, fun t isTime => by cases isTime⟩
  · cases typed <;> cases literal <;>
      first
        | exact answered.elim
        | exact answered.symm.imp id fun isEq key key' _ _ => byEquality isEq key key'
        | skip
    all_goals
      right
      rintro _ _ ⟨⟩ ⟨⟩ differ
      exact absurd rfl differ

/-- The index answers for all values that the label declares under the filter's
property. -/
def AnsweredUnder (schema : Schema) (label : Label) (filter : PropertyFilter) : Prop :=
  ∀ nodeDef, schema.nodeDef label = some nodeDef → ∀ prop ∈ nodeDef.properties,
    prop.name = filter.property →
    prop.ty.AnsweredFor (schema.IndexesName label filter.property) filter

/-- In particular the index stands in for conforming records of the label
itself, when it can express the filters and answers for all that the label
declares under their properties. -/
theorem indexStandsIn_of_answeredUnder (conforms : dataset.Conforms)
    {bindings : List Binding}
    (expressible : ∀ filter ∈ step.filters, refusal filter = none)
    (bound : ∀ b ∈ bindings, step.toAlias ∈ b.nodes)
    (ofLabel : ∀ b ∈ bindings, ∀ v record, b.nodes[step.toAlias]? = some v →
      dataset.view.nodeRecord v record → record.label = label)
    (answered : ∀ filter ∈ step.filters, AnsweredUnder dataset.schema label filter) :
    IndexStandsIn dataset label step bindings := by
  -- a stored value other than null has a declared type that the index answers for
  have each : ∀ b ∈ bindings, ∀ v record, b.nodes[step.toAlias]? = some v →
      dataset.view.nodeRecord v record →
      ∀ filter ∈ step.filters, ∀ value,
        record.properties[filter.property]? = some value → value = .null ∨
        ∃ ty : ScalarType, HasType value ty ∧
          ty.AnsweredFor (dataset.schema.IndexesName label filter.property) filter := by
    intro b member v record found recorded filter listed value stored
    have same := ofLabel b member v record found recorded
    obtain ⟨node, inTables, -, rfl⟩ := recorded
    obtain ⟨nodeDef, declared, conform⟩ := conforms.node node inTables
    obtain ⟨prop, inLabel, named, typed | ⟨-, isNull⟩⟩ := conform.typed _ _ stored
    · exact .inr ⟨prop.ty, typed,
        answered filter listed nodeDef (same ▸ declared) prop inLabel named⟩
    · exact .inl isNull
  refine ⟨expressible, fun _ => bound, ?_, ?_⟩
  · intro b member v record found recorded satisfied filter listed
    have holds := List.all_eq_true.mp satisfied filter listed
    rw [evaluateFilter] at holds
    cases stored : record.properties[filter.property]? with
    | none =>
        rw [stored] at holds
        cases holds
    | some value =>
        rw [stored] at holds
        rcases each b member v record found recorded filter listed value stored
          with rfl | ⟨ty, typed, answers⟩
        · cases matched : filter.value <;> rw [matched] at holds <;> cases holds
        · obtain ⟨indexed, noTime⟩ := (answered_of_answeredFor answers typed).1 holds
          rintro (differ | lacks | ⟨isTime, -⟩)
          · exact differ (ofLabel b member v record found recorded)
          · exact lacks indexed
          · rw [stored] at isTime
            exact noTime _ (Option.some.inj isTime)
  · intro b member v record found recorded unsatisfied
    obtain ⟨filter, listed, fails⟩ := List.all_eq_false.mp unsatisfied
    refine ⟨filter, listed, ?_⟩
    by_cases indexed : dataset.schema.IndexesName label filter.property
    · refine .inr ⟨Bool.eq_false_iff.mpr fails, ?_⟩
      rintro ⟨value, key, key', stored, valueKey, keyed, differ, takesIn⟩
      rcases each b member v record found recorded filter listed value stored
        with rfl | ⟨ty, typed, answers⟩
      · cases valueKey
      · rcases (answered_of_answeredFor answers typed).2 with lacks | outside
        · exact lacks indexed
        · rw [outside key key' valueKey keyed differ] at takesIn
          cases takesIn
    · exact .inl (.unindexed indexed)

end Checks

section

open scoped Social

/-- The hop of
`MATCH (a:Person)-[:KNOWS]->(b:Person) WHERE b.name = "Bob" RETURN b`. -/
def hopToBob : ExpandHop where
  fromAlias := "a"
  toAlias := "b"
  toLabel := some "Person"
  edgeType := some "KNOWS"
  direction := .outgoing
  hops := { min := 1, max := 1 }
  filters := [{ property := "name", op := .eq, value := .string "Bob" }]
  edgeAlias := none

/-- The acquaintances called Bob: the index can answer, and agrees. -/
theorem hopToBob_checksAgree :
    ChecksAgree Social.dataset Social.single (deployment Social.single)
    (Social.dataset.deployed Social.single)
    (Social.dataset.deployed Social.single ⟨""⟩) hopToBob
    [Social.pair 1 2, Social.pair 2 4] := by
  refine (filtersAgree_iff Social.uniqueNodeIds rfl
    (pickReplica_deployment Social.single ⟨0⟩)
    (built_iff.mpr ⟨0, rfl⟩) (rfl : hopToBob.toLabel = some Social.person.name) _).mpr ?_
  apply indexStandsIn_of_answeredUnder Social.conforms
  · intro filter listed
    cases List.mem_singleton.mp listed
    rfl
  · decide +kernel
  · rintro b member v _ found ⟨node, inTables, id, rfl⟩
    have notCompany : v ≠ ⟨3⟩ := by
      have targets : ∀ b ∈ [Social.pair 1 2, Social.pair 2 4],
          b.nodes[hopToBob.toAlias]? ≠ some ⟨3⟩ := by
        decide +kernel
      rintro rfl
      exact targets b member found
    rw [Social.nodes_eq] at inTables
    simp only [List.mem_cons, List.not_mem_nil, or_false] at inTables
    rcases inTables with rfl | rfl | rfl | rfl
    · exact absurd id.symm notCompany
    all_goals rfl
  · intro filter listed nodeDef declared prop inLabel named
    cases List.mem_singleton.mp listed
    cases declared
    cases List.mem_singleton.mp inLabel
    exact ⟨_, ⟨_, rfl, List.mem_cons_self, rfl⟩, rfl⟩

end

namespace Persons

/-- A hop to somebody who joined in May. -/
def hopToNewcomer : ExpandHop where
  fromAlias := "a"
  toAlias := "p"
  toLabel := some "Person"
  edgeType := none
  direction := .outgoing
  hops := { min := 1, max := 1 }
  filters := [inMay]
  edgeAlias := none

/-- The validator accepts the filter, the newcomer satisfies it, and the check
of the records keeps the newcomer. The index holds the day as a timestamp and is
asked for a text: its check keeps nobody. -/
theorem newcomer_unseen :
    SchemaValidator.validate joinedInMay newcomer.schema = .ok () ∧
      newcomer.Conforms ∧ newcomer.UniqueNodeIds ∧
    newcomer.Built Social.single ⟨0⟩ (newcomer.deployed Social.single ⟨""⟩) ∧
    applyFilters (newcomer.deployed Social.single ⟨""⟩).properties
      hopToNewcomer.toLabel hopToNewcomer.toAlias
      hopToNewcomer.filters [.fromNode "p" ⟨1⟩] = .ok [] ∧
    ((inProcess Social.single).filterFrontier (deployment Social.single) hopToNewcomer
      [.fromNode "p" ⟨1⟩]).run
      (fun _ => newcomer.deployed Social.single) Social.inOrder 0 =
        .ok [.fromNode "p" ⟨1⟩] ∧
    ¬ ChecksAgree newcomer Social.single (deployment Social.single)
      (newcomer.deployed Social.single)
      (newcomer.deployed Social.single ⟨""⟩) hopToNewcomer [.fromNode "p" ⟨1⟩] := by
  have unique : newcomer.UniqueNodeIds := by
    unfold Dataset.UniqueNodeIds
    decide
  have kept : ((inProcess Social.single).filterFrontier
      (deployment Social.single) hopToNewcomer
      [.fromNode "p" ⟨1⟩]).run
        (fun _ => newcomer.deployed Social.single) Social.inOrder 0 =
        .ok [.fromNode "p" ⟨1⟩] := by decide +kernel
  have dropped : applyFilters
      (newcomer.deployed Social.single ⟨""⟩).properties hopToNewcomer.toLabel
      hopToNewcomer.toAlias hopToNewcomer.filters [.fromNode "p" ⟨1⟩] = .ok [] := by
        decide +kernel
  refine ⟨by decide, newcomer_conforms, unique, built_iff.mpr ⟨0, rfl⟩, dropped, kept, ?_⟩
  rintro ⟨out, ends, -, same⟩
  rw [dropped] at ends
  cases ends
  have outcome := same _ (kept ▸ Client.returns_run _ Social.inOrder 0 _)
  cases outcome

end Persons

end GraphEngine
