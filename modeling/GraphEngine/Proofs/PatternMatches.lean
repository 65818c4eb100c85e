/-
Module: GraphEngine.Proofs.PatternMatches
Layer: Proofs
Purpose: What the start step and the hops of a plan reach, read off the pattern:
  the bindings of its aliases whose first node fits, each of whose edges is
  there, and whose targets pass the filters routed to them.
Trusted boundary: none
Main exports: hopReaches_joined_iff, started_iff, BindsPrefix, SegmentsFit,
  reached_hops_iff
-/
import GraphEngine.Proofs.Provenance
import GraphEngine.Proofs.StartResolution
import GraphEngine.Spec.Matches

namespace GraphEngine

open NaivePlanner (hopStep whereFilters startFilter resolveStartOrAllStep)

/-! ### One hop -/

section Hops

variable {dataset : Dataset} {query : Query} {a b : Binding} {x : String}
variable {edge : EdgePattern} {toNode : NodePattern}

/-- An extension is determined by what it binds and by what it leaves alone. -/
theorem eq_extend_iff {y : String} {v : NodeId} {edgeAlias : Option String}
    {e : EdgeId} :
    b = a.extend y v edgeAlias e ↔ a.AgreesOutside [y] edgeAlias.toList b ∧
      b.nodes[y]? = some v ∧
      ∀ z, edgeAlias = some z → b.edges[z]? = some e := by
  constructor
  · rintro rfl
    refine ⟨⟨?_, ?_⟩, ?_, ?_⟩
    · intro z outside
      rw [Binding.extend_nodes, Binding.bindNode_nodes]
      exact if_neg fun same : y = z => outside (List.mem_singleton.mpr same.symm)
    · intro z outside
      rw [Binding.extend_edges]
      exact if_neg fun same => outside (Option.mem_toList.mpr same)
    · rw [Binding.extend_nodes, Binding.bindNode_nodes, if_pos rfl]
    · intro z same
      rw [Binding.extend_edges, if_pos same]
  · rintro ⟨agrees, node, edges⟩
    apply Binding.ext_parts
    · apply Std.ExtTreeMap.ext_getElem?
      intro z
      rw [Binding.extend_nodes, Binding.bindNode_nodes]
      by_cases here : y = z
      · rw [if_pos here, ← here, node]
      · rw [if_neg here]
        exact agrees.nodes z fun member => here (List.mem_singleton.mp member).symm
    · apply Std.ExtTreeMap.ext_getElem?
      intro z
      rw [Binding.extend_edges]
      by_cases here : edgeAlias = some z
      · rw [if_pos here, edges z here]
      · rw [if_neg here]
        exact agrees.edges z fun member => here (Option.mem_toList.mp member)

/-- A hop binds its target and its edge alias to what its edge pattern joins to
the source, and nothing else. -/
theorem hopReaches_joined_iff
    (single : ∀ y, edge.aliasName = some y → edge.hops = ⟨1, 1⟩)
    (positive : 1 ≤ edge.hops.min) :
    HopReaches dataset.view (hopStep query x edge toNode) a b ↔
      a.AgreesOutside [toNode.aliasName] edge.aliasName.toList b ∧
        ∃ u v, a.nodes[x]? = some u ∧ b.nodes[toNode.aliasName]? = some v ∧
          dataset.Joined b edge u v := by
  cases aliased : edge.aliasName with
  | none =>
      have unaliased : (hopStep query x edge toNode).edgeAlias = none := aliased
      have bound (v : NodeId) : b = a.bindNode toNode.aliasName v ↔
          a.AgreesOutside [toNode.aliasName] [] b ∧
            b.nodes[toNode.aliasName]? = some v := by
        show b = a.extend toNode.aliasName v none ⟨0⟩ ↔ _
        rw [eq_extend_iff]
        exact and_congr_right fun _ => and_iff_left nofun
      rw [hopReaches_unaliased_iff unaliased positive]
      simp only [hopStep, bound, Dataset.Joined, aliased, Option.toList_none]
      constructor
      · rintro ⟨u, v, length, source, lower, upper, walk, agrees, target⟩
        exact ⟨agrees, u, v, source, target, length, lower, upper, walk⟩
      · rintro ⟨agrees, u, v, source, target, length, lower, upper, walk⟩
        exact ⟨u, v, length, source, lower, upper, walk, agrees, target⟩
  | some y =>
      have once : (hopStep query x edge toNode).hops = ⟨1, 1⟩ := single y aliased
      have stepAlias : (hopStep query x edge toNode).edgeAlias = some y := aliased
      rw [hopReaches_single_iff once, HopOnce]
      simp only [Dataset.Joined, aliased, stepAlias, eq_extend_iff]
      constructor
      · rintro ⟨u, t, e, v, source, adjacent, typed, agrees, target, named⟩
        exact ⟨agrees, u, v, source, target, t, e, named y rfl, adjacent, typed⟩
      · rintro ⟨agrees, u, v, source, target, t, e, named, adjacent, typed⟩
        refine ⟨u, t, e, v, source, adjacent, typed, agrees, target, ?_⟩
        rintro _ ⟨⟩
        exact named

/-- Whether an edge pattern matches depends on its aliases alone. -/
theorem edgeMatches_congr {y : String} (source : a.nodes[x]? = b.nodes[x]?)
    (target : a.nodes[y]? = b.nodes[y]?)
    (between : ∀ z, edge.aliasName = some z → a.edges[z]? = b.edges[z]?) :
    dataset.EdgeMatches a x edge y ↔ dataset.EdgeMatches b x edge y := by
  rw [Dataset.EdgeMatches, Dataset.EdgeMatches, source, target]
  refine exists_congr fun u => exists_congr fun v => and_congr_right fun _ =>
    and_congr_right fun _ => ?_
  rw [Dataset.Joined, Dataset.Joined]
  cases aliased : edge.aliasName with
  | none => exact Iff.rfl
  | some z => simp only [between z aliased]

end Hops

/-! ### The first node -/

section Starts

variable [Chrono] {dataset : Dataset} {first : NodePattern}
variable {filters : List PropertyFilter} {start : PlanStep}

omit [Chrono] in
/-- One filter at most is the one that the start step carries. -/
theorem startFilter_of_few (few : (first.propertyFilters ++ filters).length ≤ 1) :
    startFilter first filters = .ok (first.propertyFilters ++ filters).head? := by
  unfold startFilter
  cases inline : first.propertyFilters with
  | cons filter rest => rfl
  | nil =>
      rw [inline, List.nil_append] at few
      cases filters with
      | nil => rfl
      | cons filter rest =>
          cases rest with
          | nil => rfl
          | cons other rest => simp at few

omit [Chrono] in
theorem eq_singleton_of_head? {l : List PropertyFilter} (few : l.length ≤ 1)
    {filter : PropertyFilter} (head : l.head? = some filter) : l = [filter] := by
  cases l with
  | nil => cases head
  | cons other rest =>
      cases rest with
      | nil => rw [Option.some.inj head]
      | cons another rest => simp at few

/-- The record of a node fits the first node of a pattern and the filters on
it. -/
def FitsFirst (dataset : Dataset) (first : NodePattern)
    (filters : List PropertyFilter) (v : NodeId) : Prop :=
  ∃ record, dataset.view.nodeRecord v record ∧ first.label = some record.label ∧
    evaluateFilters record.properties (first.propertyFilters ++ filters) = true

/-- The start step finds the nodes that fit, if those that satisfy its filter
can be looked up. -/
theorem started_iff (started : resolveStartOrAllStep first filters = .ok start)
    (few : (first.propertyFilters ++ filters).length ≤ 1)
    (lookable : ∀ filter ∈ first.propertyFilters ++ filters, ∀ node ∈ dataset.nodes,
      first.label = some node.1 → evaluateFilter node.2.properties filter = true →
      Lookable dataset.schema node filter.property) {b : Binding} :
    Started dataset.view start b ↔ ∃ v, b = Binding.fromNode first.aliasName v ∧
      FitsFirst dataset first filters v := by
  obtain ⟨label, labelled,
      ⟨none, rfl⟩ | ⟨filter, key, carried, equality, keyed, rfl⟩⟩ :=
    start_cases started
  · rw [startFilter_of_few few] at none
    have empty : first.propertyFilters ++ filters = [] :=
      List.head?_eq_none_iff.mp (Except.ok.inj none)
    constructor
    · rintro ⟨v, ⟨node, member, id, named⟩, rfl⟩
      refine ⟨v, rfl, _, ⟨node, member, id, rfl⟩, ?_, by rw [empty]; rfl⟩
      rw [labelled, Label.name_injective _ _ named]
    · rintro ⟨v, rfl, _, ⟨node, member, id, rfl⟩, same, -⟩
      rw [labelled] at same
      exact ⟨v, ⟨node, member, id, congrArg Label.name (Option.some.inj same).symm⟩, rfl⟩
  · rw [startFilter_of_few few] at carried
    have single := eq_singleton_of_head? few (Except.ok.inj carried)
    have passes (properties : Properties) :
        evaluateFilters properties (first.propertyFilters ++ filters) = true ↔
        evaluateFilter properties filter = true := by
      rw [single, evaluateFilters, List.all_cons, List.all_nil, Bool.and_true]
    constructor
    · rintro ⟨v, ⟨node, member, id, indexed⟩, rfl⟩
      obtain ⟨named, holds, -⟩ := (mem_indexedKeys_iff equality keyed).mp indexed
      refine ⟨v, rfl, _, ⟨node, member, id, rfl⟩, ?_, (passes _).mpr holds⟩
      rw [labelled, Label.name_injective _ _ named]
    · rintro ⟨v, rfl, _, ⟨node, member, id, rfl⟩, same, holds⟩
      rw [passes] at holds
      have found := lookable filter
        (single ▸ List.mem_singleton_self filter) node member same holds
      rw [labelled] at same
      have named : node.1.name = label.name :=
        congrArg Label.name (Option.some.inj same).symm
      exact ⟨v, ⟨node, member, id,
          (mem_indexedKeys_iff equality keyed).mpr ⟨named, holds, found⟩⟩, rfl⟩

end Starts

/-! ### Along a pattern -/

section Prefixes

variable [Chrono] (dataset : Dataset) (query : Query) (first : NodePattern)

omit [Chrono] in
/-- The aliases of the first node and of some segments are bound, and no
others. -/
structure BindsPrefix (segments : List (EdgePattern × NodePattern)) (b : Binding) :
    Prop where
  nodes : ∀ y, y ∈ b.nodes ↔ y ∈ first.aliasName :: segments.map fun segment =>
    segment.2.aliasName
  edges : ∀ z, z ∈ b.edges ↔ z ∈ segments.flatMap fun segment =>
    segment.1.aliasName.toList

/-- The conditions that a hop checks on its target hold. -/
def TargetFits (target : NodePattern) (b : Binding) : Prop :=
  (if target.label.isSome then whereFilters query target.aliasName else []) = [] ∨
    ∃ v record, b.nodes[target.aliasName]? = some v ∧ dataset.view.nodeRecord v record ∧
      evaluateFilters record.properties
        (if target.label.isSome then whereFilters query target.aliasName else []) = true

/-- The first node fits, and every segment is matched and its target fits. -/
structure SegmentsFit (segments : List (EdgePattern × NodePattern)) (b : Binding) :
    Prop where
  start : ∃ v, b.nodes[first.aliasName]? = some v ∧
    FitsFirst dataset first (whereFilters query first.aliasName) v
  segment : ∀ before edge target after, segments = before ++ (edge, target) :: after →
    dataset.EdgeMatches b (lastAlias first.aliasName before) edge target.aliasName ∧
      TargetFits dataset query target b

variable {dataset query first} {segments : List (EdgePattern × NodePattern)}
variable {a b : Binding} {edge : EdgePattern}
variable {target : NodePattern}

/-- What fits depends on the aliases of the segments alone. -/
theorem SegmentsFit.congr (fits : SegmentsFit dataset query first segments a)
    (nodes : ∀ y ∈ first.aliasName :: segments.map fun segment =>
      segment.2.aliasName, a.nodes[y]? = b.nodes[y]?)
    (edges : ∀ z ∈ segments.flatMap fun segment => segment.1.aliasName.toList,
      a.edges[z]? = b.edges[z]?) : SegmentsFit dataset query first segments b := by
  constructor
  · obtain ⟨v, bound, rest⟩ := fits.start
    exact ⟨v, (nodes _ List.mem_cons_self).symm.trans bound, rest⟩
  · intro before edge target after split
    obtain ⟨joined, passes⟩ := fits.segment before edge target after split
    subst split
    have source : lastAlias first.aliasName before ∈
        first.aliasName :: (before ++ (edge, target) :: after).map fun segment =>
          segment.2.aliasName := by
      rw [List.map_append, ← List.cons_append]
      exact List.mem_append_left _ (lastAlias_mem first.aliasName before)
    have sink : target.aliasName ∈
        first.aliasName :: (before ++ (edge, target) :: after).map fun segment =>
          segment.2.aliasName := by
      simp
    refine ⟨(edgeMatches_congr (nodes _ source) (nodes _ sink) ?_).mp joined,
      passes.imp id ?_⟩
    · intro z aliased
      apply edges
      simp [aliased]
    · rintro ⟨v, record, bound, rest⟩
      exact ⟨v, record, (nodes _ sink).symm.trans bound, rest⟩

/-- A pattern with one more segment fits where the shorter one does and the last
edge and node match. -/
theorem segmentsFit_concat_iff :
    SegmentsFit dataset query first (segments ++ [(edge, target)]) b ↔
    SegmentsFit dataset query first segments b ∧
      dataset.EdgeMatches b (lastAlias first.aliasName segments) edge target.aliasName ∧
        TargetFits dataset query target b := by
  constructor
  · rintro ⟨fitsFirst, each⟩
    refine ⟨⟨fitsFirst, ?_⟩, each segments edge target [] rfl⟩
    rintro before edge' target' after rfl
    exact each before edge' target' (after ++ [(edge, target)]) (by simp)
  · rintro ⟨⟨fitsFirst, each⟩, last⟩
    refine ⟨fitsFirst, fun before edge' target' after split => ?_⟩
    rcases List.eq_nil_or_concat after with rfl | ⟨earlier, final, rfl⟩
    · obtain ⟨rfl, same⟩ := List.append_inj' split rfl
      cases same
      exact last
    · rw [List.concat_eq_append, ← List.cons_append, ← List.append_assoc] at split
      obtain ⟨rfl, -⟩ := List.append_inj' split rfl
      exact each before edge' target' earlier rfl

omit [Chrono] in
/-- A binding without what a hop has bound. -/
def Binding.forget (b : Binding) (y : String) (edgeAlias : Option String) : Binding where
  nodes := b.nodes.erase y
  edges := match edgeAlias with
    | none => b.edges
    | some z => b.edges.erase z

omit [Chrono] in
/-- What is forgotten of the nodes. -/
theorem Binding.forget_nodes (b : Binding) (y : String) (edgeAlias : Option String)
    (x : String) :
    (b.forget y edgeAlias).nodes[x]? = if y = x then none else b.nodes[x]? := by
  simp [Binding.forget, Std.ExtTreeMap.getElem?_erase]

omit [Chrono] in
/-- What is forgotten of the edges. -/
theorem Binding.forget_edges (b : Binding) (y : String) (edgeAlias : Option String)
    (x : String) :
    (b.forget y edgeAlias).edges[x]? = if edgeAlias = some x then none
      else b.edges[x]? := by
  cases edgeAlias with
  | none => simp [Binding.forget]
  | some z => simp [Binding.forget, Std.ExtTreeMap.getElem?_erase]

omit [Chrono] in
theorem Binding.agreesOutside_forget (b : Binding) (y : String)
    (edgeAlias : Option String) :
    (b.forget y edgeAlias).AgreesOutside [y] edgeAlias.toList b where
  nodes x outside := by
    rw [Binding.forget_nodes,
      if_neg fun same : y = x => outside (List.mem_singleton.mpr same.symm)]
  edges x outside := by
    rw [Binding.forget_edges, if_neg fun same => outside (Option.mem_toList.mpr same)]

omit [Chrono] in
/-- A binding of a pattern, extended by one more node and edge. -/
theorem BindsPrefix.concat (binds : BindsPrefix first segments a)
    (agrees : a.AgreesOutside [target.aliasName] edge.aliasName.toList b)
    (bound : target.aliasName ∈ b.nodes)
    (named : ∀ z, edge.aliasName = some z → z ∈ b.edges) :
    BindsPrefix first (segments ++ [(edge, target)]) b := by
  constructor
  · intro y
    rw [List.map_append, ← List.cons_append, List.mem_append, List.map_singleton,
      List.mem_singleton]
    by_cases here : y = target.aliasName
    · subst here
      exact iff_of_true bound (.inr rfl)
    · have same := agrees.nodes y fun member => here (List.mem_singleton.mp member)
      rw [or_iff_left here, ← binds.nodes, Binding.mem_nodes_iff,
        Binding.mem_nodes_iff, same]
  · intro z
    rw [List.flatMap_append, List.mem_append, List.flatMap_singleton]
    by_cases here : z ∈ edge.aliasName.toList
    · exact iff_of_true (named z (Option.mem_toList.mp here)) (.inr here)
    · rw [or_iff_left here, ← binds.edges, Binding.mem_edges_iff,
        Binding.mem_edges_iff, agrees.edges z here]

omit [Chrono] in
/-- A binding of a pattern with its last segment forgotten binds the shorter
pattern. -/
theorem BindsPrefix.forget
    (binds : BindsPrefix first (segments ++ [(edge, target)]) b)
    (fresh : target.aliasName ∉ first.aliasName :: segments.map fun segment =>
      segment.2.aliasName)
    (freshEdge : ∀ z ∈ edge.aliasName.toList, z ∉ segments.flatMap fun segment =>
      segment.1.aliasName.toList) :
    BindsPrefix first segments (b.forget target.aliasName edge.aliasName) := by
  constructor
  · intro y
    have whole := binds.nodes y
    rw [List.map_append, ← List.cons_append, List.mem_append, List.map_singleton,
      List.mem_singleton] at whole
    rw [Binding.mem_nodes_iff, Binding.forget_nodes]
    by_cases here : target.aliasName = y
    · subst here
      exact iff_of_false (by simp) fresh
    · rw [if_neg here, ← Binding.mem_nodes_iff, whole, or_iff_left (Ne.symm here)]
  · intro z
    have whole := binds.edges z
    rw [List.flatMap_append, List.mem_append, List.flatMap_singleton] at whole
    rw [Binding.mem_edges_iff, Binding.forget_edges]
    by_cases here : edge.aliasName = some z
    · rw [if_pos here]
      exact iff_of_false (by simp) (freshEdge z (Option.mem_toList.mpr here))
    · rw [if_neg here, ← Binding.mem_edges_iff, whole,
        or_iff_left fun member => here (Option.mem_toList.mp member)]

omit [Chrono] in
/-- What is left outside the last segment was bound before it. -/
theorem Binding.AgreesOutside.earlier
    (agrees : a.AgreesOutside [target.aliasName] edge.aliasName.toList b)
    (fresh : target.aliasName ∉ first.aliasName :: segments.map fun segment =>
      segment.2.aliasName)
    (freshEdge : ∀ z ∈ edge.aliasName.toList, z ∉ segments.flatMap fun segment =>
      segment.1.aliasName.toList) :
    (∀ y ∈ first.aliasName :: segments.map fun segment => segment.2.aliasName,
      a.nodes[y]? = b.nodes[y]?) ∧
      ∀ z ∈ segments.flatMap fun segment => segment.1.aliasName.toList,
        a.edges[z]? = b.edges[z]? := by
  constructor
  · intro y member
    exact (agrees.nodes y fun same =>
      fresh (List.mem_singleton.mp same ▸ member)).symm
  · intro z member
    exact (agrees.edges z fun same => freshEdge z same member).symm

/-- The bindings of a node that fits are those of its alias alone that fit a
pattern without segments. -/
theorem bindsFirst_iff :
    (∃ v, b = Binding.fromNode first.aliasName v ∧
      FitsFirst dataset first (whereFilters query first.aliasName) v) ↔
      BindsPrefix first [] b ∧ SegmentsFit dataset query first [] b := by
  constructor
  · rintro ⟨v, rfl, fits⟩
    refine ⟨⟨fun y => ?_, fun z => ?_⟩,
      ⟨v, by rw [Binding.fromNode_nodes, if_pos rfl], fits⟩, ?_⟩
    · rw [Binding.mem_fromNode_nodes, List.map_nil, List.mem_singleton, eq_comm]
    · exact iff_of_false (Binding.mem_fromNode_edges _ _ _) List.not_mem_nil
    · intro before edge target after split
      simp at split
  · rintro ⟨binds, ⟨v, bound, fits⟩, -⟩
    refine ⟨v, Binding.ext_parts ?_ ?_, fits⟩
    · apply Std.ExtTreeMap.ext_getElem?
      intro y
      rw [Binding.fromNode_nodes]
      by_cases here : first.aliasName = y
      · rw [if_pos here, ← here, bound]
      · rw [if_neg here]
        exact Std.ExtTreeMap.getElem?_eq_none fun member =>
          here (List.mem_singleton.mp ((binds.nodes y).mp member)).symm
    · apply Std.ExtTreeMap.ext_getElem?
      intro z
      rw [Binding.fromNode_edges]
      exact Std.ExtTreeMap.getElem?_eq_none fun member =>
        List.not_mem_nil ((binds.edges z).mp member)

/-- The bindings that the hops of a pattern reach are those of its aliases that
fit it, if no alias is used twice. -/
theorem reached_hops_iff {start : PlanStep} {keep : AntiJoinStep → Binding → Prop}
    (started : ∀ b, Started dataset.view start b ↔
      ∃ v, b = Binding.fromNode first.aliasName v ∧
      FitsFirst dataset first (whereFilters query first.aliasName) v)
    (nodup : (first.aliasName :: segments.map fun segment =>
        segment.2.aliasName).Nodup)
    (nodupEdges : (segments.flatMap fun segment =>
        segment.1.aliasName.toList).Nodup)
    (hops : ∀ segment ∈ segments, (∀ y, segment.1.aliasName = some y →
        segment.1.hops = ⟨1, 1⟩) ∧ 1 ≤ segment.1.hops.min) :
    Reached dataset.view keep start (hopsOf query first.aliasName segments) b ↔
      BindsPrefix first segments b ∧ SegmentsFit dataset query first segments b := by
  induction segments using List.reverseRecOn generalizing b with
  | nil => exact (started b).trans bindsFirst_iff
  | append_singleton segments segment inductionHypothesis =>
      obtain ⟨edge, target⟩ := segment
      rw [List.map_append, ← List.cons_append] at nodup
      rw [List.flatMap_append] at nodupEdges
      have apart := (List.nodup_append.mp nodup).2.2
      have apartEdges := (List.nodup_append.mp nodupEdges).2.2
      have fresh : target.aliasName ∉ first.aliasName :: segments.map fun segment =>
          segment.2.aliasName :=
        fun member => apart _ member _ List.mem_cons_self rfl
      have freshEdge (z : String) (member : z ∈ edge.aliasName.toList) :
          z ∉ segments.flatMap fun segment => segment.1.aliasName.toList :=
        fun member' => apartEdges z member' z (by simpa using member) rfl
      have earlier (a : Binding) := @inductionHypothesis a (List.nodup_append.mp nodup).1
        (List.nodup_append.mp nodupEdges).1 fun other member =>
          hops other (List.mem_append_left _ member)
      obtain ⟨single, positive⟩ :=
        hops (edge, target) (List.mem_append_right _ (List.mem_singleton_self _))
      rw [hopsOf_append, hopsOf, hopsOf, reached_append, segmentsFit_concat_iff]
      constructor
      · rintro ⟨a, reached, reaches, passes⟩
        obtain ⟨binds, fits⟩ := (earlier a).mp reached
        obtain ⟨agrees, u, v, source, sink, joined⟩ :=
          (hopReaches_joined_iff single positive).mp reaches
        obtain ⟨nodesSame, edgesSame⟩ := agrees.earlier fresh freshEdge
        refine ⟨binds.concat agrees ((b.mem_nodes_iff _).mpr ⟨v, sink⟩) ?_,
          fits.congr nodesSame edgesSame, ?_, passes⟩
        · intro z aliased
          simp only [Dataset.Joined, aliased] at joined
          obtain ⟨_, e, named, -⟩ := joined
          exact (b.mem_edges_iff z).mpr ⟨e, named⟩
        · exact ⟨u, v, (nodesSame _ (lastAlias_mem _ _)).symm.trans source, sink, joined⟩
      · rintro ⟨binds, fits, ⟨u, v, source, sink, joined⟩, passes⟩
        have agrees := b.agreesOutside_forget target.aliasName edge.aliasName
        obtain ⟨nodesSame, edgesSame⟩ := agrees.earlier fresh freshEdge
        refine ⟨b.forget target.aliasName edge.aliasName,
          (earlier _).mpr ⟨binds.forget fresh freshEdge, ?_⟩, ?_, passes⟩
        · exact fits.congr (fun y member => (nodesSame y member).symm) fun z member =>
            (edgesSame z member).symm
        · apply (hopReaches_joined_iff single positive).mpr
          exact ⟨agrees, u, v,
            (nodesSame _ (lastAlias_mem _ _)).trans source, sink, joined⟩

end Prefixes

end GraphEngine
