/-
Module: GraphEngine.Proofs.LocalHop
Layer: Proofs
Purpose: What one partition contributes to a hop.  The loops over adjacency
  entries and over accepted nodes are described by the set of bindings they hand
  out, and a single-hop step hands out exactly the bindings one entry further.
Trusted boundary: none
Main exports: LocalHop, visitEntries_next, visitEntries_unaliased,
  visitEntries_taken, acceptNodes_all, expandHop_single
-/
import GraphEngine.Lib.ClientRules
import GraphEngine.Spec.ClusterView

namespace GraphEngine

open Std (ExtTreeSet)

/-- The bindings handed out, local or remote. -/
def Frontier.all (frontier : Frontier) : List Binding :=
  frontier.localBindings ++ frontier.remote.map Prod.snd

namespace SimpleLocalExecutor

/-! ### Adjacency entries -/

section Visit

variable (step : ExpandHop) (binding : Binding)

/-- An entry of the step's type that leads to a local node. -/
def LeadsLocal (entry : AdjacencyEntry) (v : NodeId) : Prop :=
  TypeAllows step.edgeType entry.edgeType ∧ entry.dstLocal = some v

/-- An entry of the step's type that leads to a remote node. -/
def LeadsRemote (entry : AdjacencyEntry) (v : NodeId) : Prop :=
  TypeAllows step.edgeType entry.edgeType ∧ entry.dstLocal = none ∧
    entry.dstRemote.map RemoteRef.node = some v

/-- An entry leads to a node, here or elsewhere, exactly where its type is
allowed and it ends there. -/
theorem leads_iff {entry : AdjacencyEntry} {v : NodeId} :
    LeadsLocal step entry v ∨ LeadsRemote step entry v ↔
      TypeAllows step.edgeType entry.edgeType ∧ entry.endpoint = some v := by
  unfold LeadsLocal LeadsRemote AdjacencyEntry.endpoint
  cases entry.dstLocal with
  | none => simp
  | some dst => simp

/-- The nodes to explore next: those that entries lead to here. -/
theorem visitEntries_next (entries : List AdjacencyEntry) (state : HopState)
    (v : NodeId) :
    v ∈ (entries.foldl (visitEntry step binding) state).next ↔
      v ∈ state.next ∨ ∃ entry ∈ entries, LeadsLocal step entry v := by
  induction entries generalizing state with
  | nil => simp
  | cons entry rest inductionHypothesis =>
      have here : v ∈ (visitEntry step binding state entry).next ↔
          v ∈ state.next ∨ LeadsLocal step entry v := by
        unfold visitEntry LeadsLocal
        rw [← typeMatches_iff]
        grind
      rw [List.foldl_cons, inductionHypothesis, here, or_assoc]
      simp

/-- Every node remembered as seen has its binding handed out. -/
def HandedOut (state : HopState) : Prop :=
  ∀ v ∈ state.seen, binding.bindNode step.toAlias v ∈ state.found.all

/-- Without an edge alias an entry hands out the binding of its remote node,
unless that was done. -/
theorem visitEntry_unaliased (unaliased : step.edgeAlias = none) (state : HopState)
    (handedOut : HandedOut step binding state) (entry : AdjacencyEntry) :
    HandedOut step binding (visitEntry step binding state entry) ∧
      ∀ b', b' ∈ (visitEntry step binding state entry).found.all ↔
        b' ∈ state.found.all ∨ ∃ v, LeadsRemote step entry v ∧
          b' = binding.bindNode step.toAlias v := by
  unfold LeadsRemote visitEntry
  rw [← typeMatches_iff, unaliased]
  cases typed : typeMatches step.edgeType entry with
  | false => simpa using handedOut
  | true =>
      cases isLocal : entry.dstLocal with
      | some dst => simpa [HandedOut] using handedOut
      | none =>
          cases isRemote : entry.dstRemote with
          | none => simpa using handedOut
          | some remoteRef =>
              by_cases seen : remoteRef.node ∈ state.seen
              · have known := handedOut _ seen
                refine ⟨by simpa [seen] using handedOut, fun b' => ?_⟩
                simp only [seen]
                constructor
                · exact fun member => .inl (by simpa using member)
                · rintro (member | ⟨v, ⟨-, -, same⟩, rfl⟩)
                  · simpa using member
                  · cases same
                    simpa using known
              · simp only [Binding.extend, Frontier.all] at handedOut ⊢
                refine ⟨fun v member => ?_, fun b' => ?_⟩
                · simp only [seen, Option.isSome_none, Bool.false_eq_true,
                    not_false_eq_true, or_true, if_true, if_false] at member ⊢
                  rcases ExtTreeSet.mem_insert.mp member with same | old
                  · have nodeEq : remoteRef.node = v := Std.LawfulEqOrd.eq_of_compare same
                    simp [Frontier.all, nodeEq]
                  · have known := handedOut v old
                    simp only [Frontier.all, List.mem_append, List.map_append] at known ⊢
                    exact known.imp id .inl
                · simp [seen, or_assoc, eq_comm]

/-- What entries hand out across the border, node by node. -/
theorem visitEntries_unaliased (unaliased : step.edgeAlias = none)
    (entries : List AdjacencyEntry) (state : HopState)
    (handedOut : HandedOut step binding state) :
    HandedOut step binding (entries.foldl (visitEntry step binding) state) ∧
      ∀ b', b' ∈ (entries.foldl (visitEntry step binding) state).found.all ↔
        b' ∈ state.found.all ∨ ∃ v, (∃ entry ∈ entries, LeadsRemote step entry v) ∧
          b' = binding.bindNode step.toAlias v := by
  induction entries generalizing state with
  | nil => simpa using handedOut
  | cons entry rest inductionHypothesis =>
      obtain ⟨handedOut', here⟩ :=
        visitEntry_unaliased step binding unaliased state handedOut entry
      obtain ⟨handedOut'', later⟩ := inductionHypothesis _ handedOut'
      refine ⟨handedOut'', fun b' => ?_⟩
      rw [List.foldl_cons, later, here, or_assoc]
      simp [or_and_right, exists_or]

/-- The end and the edge of an entry of the step's type. -/
def taken (entry : AdjacencyEntry) : Option (NodeId × EdgeId) :=
  if typeMatches step.edgeType entry then entry.endpoint.map fun v =>
    (v, entry.edgeId) else none

/-- The binding that goes on along an edge to its end. -/
def along (edge : NodeId × EdgeId) : Binding :=
  binding.extend step.toAlias edge.1 step.edgeAlias edge.2

/-- The bindings that entries are taken to. -/
theorem mem_taken {entries : List AdjacencyEntry} {b' : Binding} :
    b' ∈ (entries.filterMap (taken step)).map (along step binding) ↔
      ∃ entry ∈ entries, TypeAllows step.edgeType entry.edgeType ∧
        ∃ v, entry.endpoint = some v ∧
        b' = binding.extend step.toAlias v step.edgeAlias entry.edgeId := by
  simp only [List.mem_map, List.mem_filterMap, taken, ← typeMatches_iff]
  constructor
  · rintro ⟨edge, ⟨entry, member, found⟩, rfl⟩
    split at found
    case isTrue typed =>
        obtain ⟨v, leads, rfl⟩ := Option.map_eq_some_iff.mp found
        exact ⟨entry, member, typed, v, leads, rfl⟩
    case isFalse => cases found
  · rintro ⟨entry, member, typed, v, leads, rfl⟩
    exact ⟨(v, entry.edgeId),
      ⟨entry, member, by rw [if_pos typed, leads, Option.map_some]⟩, rfl⟩

/-- With an edge alias every entry hands out its own binding. -/
theorem visitEntries_taken (aliased : step.edgeAlias.isSome)
    (entries : List AdjacencyEntry) (state : HopState) :
    (entries.foldl (visitEntry step binding) state).found.all.Perm
      (state.found.all ++ (entries.filterMap (taken step)).map (along step binding)) := by
  induction entries generalizing state with
  | nil => simp
  | cons entry rest inductionHypothesis =>
      have here : (visitEntry step binding state entry).found.all.Perm
          (state.found.all ++ ([entry].filterMap (taken step)).map
            (along step binding)) := by
        unfold visitEntry taken along Frontier.all AdjacencyEntry.endpoint
        cases typed : typeMatches step.edgeType entry with
        | false => simp [typed]
        | true =>
            cases isLocal : entry.dstLocal with
            | some dst =>
                simp only [typed, isLocal, aliased, if_true, List.filterMap_cons,
                  List.filterMap_nil, Option.some_or, Option.map_some, List.map_cons,
                  List.map_nil, List.append_assoc]
                exact List.Perm.append_left _ List.perm_append_comm
            | none =>
                cases isRemote : entry.dstRemote with
                | none => simp [typed, isLocal, isRemote]
                | some remoteRef => simp [typed, isLocal, isRemote, aliased]
      rw [List.foldl_cons]
      apply (inductionHypothesis _).trans
      rw [← List.singleton_append, List.filterMap_append, List.map_append,
        ← List.append_assoc]
      exact here.append_right _

/-- Entries without remote ends leave the remote bindings alone. -/
theorem visitEntries_remote (entries : List AdjacencyEntry) (state : HopState)
    (allLocal : ∀ entry ∈ entries, entry.dstRemote = none) :
    (entries.foldl (visitEntry step binding) state).found.remote =
      state.found.remote := by
  induction entries generalizing state with
  | nil => rfl
  | cons entry rest inductionHypothesis =>
      rw [List.foldl_cons, inductionHypothesis _ fun other member =>
        allLocal other (List.mem_cons_of_mem entry member)]
      unfold visitEntry
      rw [allLocal entry List.mem_cons_self]
      grind

end Visit

/-! ### Accepted nodes -/

section Accept

variable (step : ExpandHop) (binding : Binding)

/-- What the nodes of a depth hand out. -/
theorem acceptNodes_all (targets : List NodeId) (state : HopState)
    (handedOut : HandedOut step binding state) :
    HandedOut step binding (targets.foldl (acceptNode step binding) state) ∧
      ∀ b', b' ∈ (targets.foldl (acceptNode step binding) state).found.all ↔
        b' ∈ state.found.all ∨ ∃ v ∈ targets, b' = binding.bindNode step.toAlias v := by
  induction targets generalizing state with
  | nil => simpa using handedOut
  | cons node rest inductionHypothesis =>
      have here : HandedOut step binding (acceptNode step binding state node) ∧
          ∀ b', b' ∈ (acceptNode step binding state node).found.all ↔
            b' ∈ state.found.all ∨ b' = binding.bindNode step.toAlias node := by
        unfold acceptNode
        split
        case isTrue seen =>
          refine ⟨handedOut, fun b' => ⟨.inl, ?_⟩⟩
          rintro (member | rfl)
          · exact member
          · exact handedOut node seen
        case isFalse =>
          refine ⟨fun v member => ?_, fun b' => ?_⟩
          · rcases ExtTreeSet.mem_insert.mp member with same | old
            · have nodeEq : node = v := Std.LawfulEqOrd.eq_of_compare same
              simp [Frontier.all, nodeEq]
            · have known := handedOut v old
              simp only [Frontier.all, List.mem_append] at known ⊢
              exact known.imp .inl id
          · simp only [Frontier.all, List.mem_append, List.mem_singleton]
            tauto
      obtain ⟨handedOut', atNode⟩ := here
      obtain ⟨handedOut'', later⟩ := inductionHypothesis _ handedOut'
      refine ⟨handedOut'', fun b' => ?_⟩
      rw [List.foldl_cons, later, atNode, or_assoc]
      simp

@[simp] theorem acceptNodes_next (targets : List NodeId) (state : HopState) :
    (targets.foldl (acceptNode step binding) state).next = state.next := by
  induction targets generalizing state with
  | nil => rfl
  | cons node rest inductionHypothesis =>
      rw [List.foldl_cons, inductionHypothesis, acceptNode]
      split <;> rfl

@[simp] theorem acceptNodes_remote (targets : List NodeId) (state : HopState) :
    (targets.foldl (acceptNode step binding) state).found.remote =
      state.found.remote := by
  induction targets generalizing state with
  | nil => rfl
  | cons node rest inductionHypothesis =>
      rw [List.foldl_cons, inductionHypothesis, acceptNode]
      split <;> rfl

end Accept

/-! ### A single hop -/

/-- The entries met when a list of nodes is explored. -/
theorem visitNodes_eq (generation : IndexGeneration) (step : ExpandHop)
    (binding : Binding) (state : HopState) (nodes : List NodeId) :
    visitNodes generation step binding state nodes =
      (nodes.flatMap (generation.neighbors step.direction)).foldl
        (visitEntry step binding)
        { state with next := ∅ } := by
  rw [visitNodes, List.foldl_flatMap]

/-- One adjacency entry of a generation further. -/
def LocalHop (generation : IndexGeneration) (step : ExpandHop) (b b' : Binding) : Prop :=
  ∃ u v, b.nodes[step.fromAlias]? = some u ∧
    ∃ entry ∈ generation.neighbors step.direction u,
    TypeAllows step.edgeType entry.edgeType ∧ entry.endpoint = some v ∧
      b' = b.extend step.toAlias v step.edgeAlias entry.edgeId

section Single

variable {serve : GenerationHandle → IndexGeneration} {Allowed : Fault → Prop}
variable {generation : IndexGeneration} {step : ExpandHop} {binding : Binding}

/-- The entries met are those of the nodes explored. -/
theorem exists_entry_iff {current : ExtTreeSet NodeId compare} {nodes : List NodeId}
    (perm : nodes.Perm current.toList) (P : AdjacencyEntry → Prop) :
    (∃ entry ∈ nodes.flatMap (generation.neighbors step.direction), P entry) ↔
      ∃ u ∈ current, ∃ entry ∈ generation.neighbors step.direction u, P entry := by
  constructor
  · rintro ⟨entry, member, holds⟩
    obtain ⟨u, inNodes, inRow⟩ := List.mem_flatMap.mp member
    exact ⟨u, (mem_setEnumeration perm).mp inNodes, entry, inRow, holds⟩
  · rintro ⟨u, inCurrent, entry, inRow, holds⟩
    exact ⟨entry,
      List.mem_flatMap.mpr ⟨u, (mem_setEnumeration perm).mpr inCurrent, inRow⟩, holds⟩

/-- The nodes to explore after a whole depth. -/
theorem visitNodes_next (generation : IndexGeneration) (step : ExpandHop)
    (binding : Binding) (state : HopState) {current : ExtTreeSet NodeId compare}
    {nodes : List NodeId} (perm : nodes.Perm current.toList) (v : NodeId) :
    v ∈ (visitNodes generation step binding state nodes).next ↔
      ∃ u ∈ current, ∃ entry ∈ generation.neighbors step.direction u,
        LeadsLocal step entry v := by
  rw [visitNodes_eq, visitEntries_next, exists_entry_iff perm]
  simp

/-- One depth without an edge alias. -/
theorem exploreDepth_unaliased (unaliased : step.edgeAlias = none) (depth : Nat)
    (current : ExtTreeSet NodeId compare) {state : HopState}
    (handedOut : HandedOut step binding state) :
    (exploreDepth generation step binding depth current state).Meets serve
      (fun after => HandedOut step binding after ∧
        (∀ v, v ∈ after.next ↔ ∃ u ∈ current,
          ∃ entry ∈ generation.neighbors step.direction u, LeadsLocal step entry v) ∧
        ∀ b', b' ∈ after.found.all ↔ b' ∈ state.found.all ∨ ∃ v, (∃ u ∈ current,
          ∃ entry ∈ generation.neighbors step.direction u, LeadsRemote step entry v ∨
            step.hops.min ≤ depth ∧ LeadsLocal step entry v) ∧
          b' = binding.bindNode step.toAlias v) Allowed := by
  rw [exploreDepth]
  refine Client.Meets.bind (Client.Meets.unordered _) fun nodes perm => ?_
  have next := visitNodes_next generation step binding state perm
  have visited := visitEntries_unaliased step binding unaliased
    (nodes.flatMap (generation.neighbors step.direction))
    { state with next := ∅ } handedOut
  rw [← visitNodes_eq] at visited
  obtain ⟨handedOut', all⟩ := visited
  simp only [exists_entry_iff perm] at all
  by_cases accepts : step.hops.min ≤ depth
  · rw [if_pos ⟨by rw [unaliased]; rfl, accepts⟩]
    refine Client.Meets.bind (Client.Meets.unordered _) fun targets targetsPerm => ?_
    obtain ⟨handedOut'', accepted⟩ := acceptNodes_all step binding targets _ handedOut'
    refine Client.Meets.pure ⟨handedOut'', fun v => ?_, fun b' => ?_⟩
    · rw [acceptNodes_next]
      exact next v
    · rw [accepted, all]
      simp only [mem_setEnumeration targetsPerm, next, accepts, true_and, and_or_left,
        exists_or, or_and_right, or_assoc]
  · rw [if_neg fun both => accepts both.2]
    refine Client.Meets.pure ⟨handedOut', next, fun b' => ?_⟩
    rw [all]
    simp [accepts]

/-- The first depth with an edge alias. -/
theorem exploreDepth_aliased (aliased : step.edgeAlias.isSome) (start : NodeId) :
    (exploreDepth generation step binding 1 ((∅ : ExtTreeSet NodeId compare).insert start)
      ⟨∅, ∅, ⟨[], []⟩⟩).Meets serve
      (fun after => after.found.all.Perm
        (((generation.neighbors step.direction start).filterMap (taken step)).map
          (along step binding)))
      Allowed := by
  rw [exploreDepth]
  refine Client.Meets.bind (Client.Meets.unordered _) fun nodes perm => ?_
  have onlyStart : nodes = [start] := List.perm_singleton.mp perm
  have notNone : ¬ step.edgeAlias.isNone := by
    rw [Option.isNone_iff_eq_none, ← Option.not_isSome_iff_eq_none]
    exact fun absent => absent aliased
  rw [if_neg fun both => notNone both.1]
  refine Client.Meets.pure ?_
  rw [onlyStart, visitNodes_eq, List.flatMap_singleton]
  exact visitEntries_taken step binding aliased _ _

/-- The first depth alone is one adjacency entry further, whether or not the
edge is aliased. -/
theorem exploreDepth_first (single : step.hops = ⟨1, 1⟩) {start : NodeId}
    (bound : binding.nodes[step.fromAlias]? = some start) :
    (exploreDepth generation step binding 1 ((∅ : ExtTreeSet NodeId compare).insert start)
      ⟨∅, ∅, ⟨[], []⟩⟩).Meets serve
      (fun after => ∀ b', b' ∈ after.found.all ↔
        LocalHop generation step binding b') Allowed := by
  have meaning : ∀ b', LocalHop generation step binding b' ↔
      ∃ entry ∈ generation.neighbors step.direction start,
        TypeAllows step.edgeType entry.edgeType ∧ ∃ v, entry.endpoint = some v ∧
          b' = binding.extend step.toAlias v step.edgeAlias entry.edgeId := by
    intro b'
    constructor
    · rintro ⟨u, v, boundU, entry, member, typed, leads, same⟩
      rw [bound] at boundU
      cases boundU
      exact ⟨entry, member, typed, v, leads, same⟩
    · rintro ⟨entry, member, typed, v, leads, same⟩
      exact ⟨start, v, bound, entry, member, typed, leads, same⟩
  cases unaliased : step.edgeAlias with
  | some aliasName =>
      refine (exploreDepth_aliased (by rw [unaliased]; rfl) start).imp
        fun after handed b' => ?_
      rw [handed.mem_iff, meaning, mem_taken]
  | none =>
      refine (exploreDepth_unaliased unaliased 1 _ (by simp [HandedOut])).imp
        fun after post b' => ?_
      rw [post.2.2, meaning, single]
      simp only [Frontier.all, List.map_nil, List.append_nil, List.not_mem_nil, false_or,
        ExtTreeSet.mem_insert, le_refl, true_and, unaliased, Binding.extend]
      constructor
      · rintro ⟨v, ⟨u, same, entry, member, leads⟩, rfl⟩
        have startEq : start = u := by simpa using same
        subst startEq
        obtain ⟨typed, endpoint⟩ := (leads_iff step).mp leads.symm
        exact ⟨entry, member, typed, v, endpoint, rfl⟩
      · rintro ⟨entry, member, typed, v, endpoint, rfl⟩
        have leads := (leads_iff step).mpr ⟨typed, endpoint⟩
        exact ⟨v, ⟨start, by simp, entry, member, leads.symm⟩, rfl⟩

/-- A single-hop step expands a binding by the first depth alone. -/
theorem expandBinding_first (single : step.hops = ⟨1, 1⟩) {start : NodeId}
    (bound : binding.nodes[step.fromAlias]? = some start) {P : Frontier → Prop}
    (first : (exploreDepth generation step binding 1
        ((∅ : ExtTreeSet NodeId compare).insert start) ⟨∅, ∅, ⟨[], []⟩⟩).Meets serve
      (fun after => P after.found) Allowed) :
    (expandBinding generation step binding).Meets serve P Allowed := by
  rw [expandBinding, bound]
  refine Client.Meets.bind ?_ fun state post => Client.Meets.pure post
  rw [single, expandDepths]
  refine Client.Meets.bind first fun explored post => ?_
  rw [expandDepths, ite_self]
  exact Client.Meets.pure post

/-- The expansion of one binding by a single-hop step. -/
theorem expandBinding_single (single : step.hops = ⟨1, 1⟩) :
    (expandBinding generation step binding).Meets serve
      (fun found => ∀ b', b' ∈ found.all ↔ LocalHop generation step binding b')
      (fun _ => binding.nodes[step.fromAlias]? = none) := by
  cases bound : binding.nodes[step.fromAlias]? with
  | none =>
      rw [expandBinding, bound]
      exact Client.Meets.fail rfl
  | some start => exact expandBinding_first single bound (exploreDepth_first single bound)

/-- The expansion of a frontier hands out what the expansions of its bindings
hand out, binding after binding. -/
theorem expandFrontier_parts {Post : Binding → Frontier → Prop}
    {Fault' : Fault → Prop} (frontier : List Binding)
    (each : ∀ b ∈ frontier,
      (expandBinding generation step b).Meets serve (Post b) Fault') :
    (expandFrontier generation step frontier).Meets serve
      (fun found => ∃ parts, List.Forall₂ Post frontier parts ∧
        found.localBindings = parts.flatMap Frontier.localBindings ∧
        found.remote = parts.flatMap Frontier.remote) Fault' := by
  refine Client.Meets.foldlM
    (I := fun visited (found : Frontier) => ∃ parts, List.Forall₂ Post visited parts ∧
    found.localBindings = parts.flatMap Frontier.localBindings ∧
    found.remote = parts.flatMap Frontier.remote) frontier ⟨[], .nil, rfl, rfl⟩ ?_
  intro visited b later acc split earlier
  have member : b ∈ frontier := by rw [split]; simp
  refine Client.Meets.bind (each b member) fun found post => ?_
  obtain ⟨parts, related, locals, remotes⟩ := earlier
  refine Client.Meets.pure
    ⟨parts ++ [found], List.rel_append related (.cons post .nil), ?_, ?_⟩
  · rw [locals, List.flatMap_append, List.flatMap_singleton]
  · rw [remotes, List.flatMap_append, List.flatMap_singleton]

/-- What is handed out is what the expansions of the bindings hand out. -/
theorem expandFrontier_all {Y : Binding → Binding → Prop} {Fault' : Fault → Prop}
    (frontier : List Binding)
    (each : ∀ b ∈ frontier, (expandBinding generation step b).Meets serve
      (fun found => ∀ b', b' ∈ found.all ↔ Y b b') Fault') :
    (expandFrontier generation step frontier).Meets serve
      (fun found => ∀ b', b' ∈ found.all ↔ ∃ b ∈ frontier, Y b b') Fault' := by
  refine (expandFrontier_parts frontier each).imp ?_
  rintro found ⟨parts, related, locals, remotes⟩ b'
  have allParts : List.Forall₂ (fun b part => ∀ b', b' ∈ part ↔ Y b b') frontier
      (parts.map Frontier.all) :=
    List.forall₂_map_right_iff.mpr related
  rw [← mem_flatten_partners allParts]
  simp only [Frontier.all, locals, remotes, List.map_flatMap, List.mem_append,
    List.mem_flatten, List.mem_map, List.mem_flatMap, exists_exists_and_eq_and,
    and_or_left, exists_or]

/-- The expansion of a frontier by a single-hop step. -/
theorem expandFrontier_single (single : step.hops = ⟨1, 1⟩) (frontier : List Binding) :
    (expandFrontier generation step frontier).Meets serve
      (fun found => ∀ b', b' ∈ found.all ↔ ∃ b ∈ frontier, LocalHop generation step b b')
      (fun _ => ∃ b ∈ frontier, b.nodes[step.fromAlias]? = none) :=
  expandFrontier_all frontier fun b member =>
    (expandBinding_single single).mono (fun _ post => post) fun _ missing =>
      ⟨b, member, missing⟩

end Single

/-! ### The call -/

theorem applyFilters_nil (properties : PropertyIndex) (toLabel : Option String)
    (toAlias : String) (bindings : List Binding) :
    applyFilters properties toLabel toAlias [] bindings = .ok bindings := rfl

/-- A single-hop `expand_hop` without filters, on a frozen generation. -/
theorem expandHop_single {serve : GenerationHandle → IndexGeneration}
    {step : ExpandHop} (single : step.hops = ⟨1, 1⟩)
    (unfiltered : step.filters = []) (index : GenerationHandle)
    (frontier : List Binding) :
    (expandHop index (.expandHop step) frontier).Meets serve
      (fun found => ∀ b', b' ∈ found.all ↔
        ∃ b ∈ frontier, LocalHop (serve index) step b b')
      (fun _ => ∃ b ∈ frontier, b.nodes[step.fromAlias]? = none) := by
  refine Client.Meets.bind (Client.Meets.acquire index) ?_
  rintro generation rfl
  refine Client.Meets.bind (expandFrontier_single single frontier) fun found post => ?_
  rw [unfiltered, applyFilters_nil]
  exact Client.Meets.pure post

end SimpleLocalExecutor

end GraphEngine
