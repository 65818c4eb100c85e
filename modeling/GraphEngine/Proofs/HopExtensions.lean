/-
Module: GraphEngine.Proofs.HopExtensions
Layer: Proofs
Purpose: What an expansion makes of a binding, for every step and every content
  of the index: it binds the target alias to a node that some adjacency entry
  names, binds the edge alias if there is one, and changes nothing else. Without
  an edge alias it hands out every extension of a binding once.
Trusted boundary: none
Main exports: Extends, expandBinding_once, expandHop_always, expandHop_within
-/
import GraphEngine.Proofs.LocalHop

namespace GraphEngine

open Std (ExtTreeSet)

/-- The binding with the target alias bound to a node satisfying `P`, and the
edge alias, if any, to an edge. -/
def Extends (step : ExpandHop) (P : NodeId → Prop) (b b' : Binding) : Prop :=
  ∃ v e, P v ∧ b' = b.extend step.toAlias v step.edgeAlias e

/-- The target alias of an extended binding is bound to a node satisfying the
predicate. -/
theorem Extends.target {step : ExpandHop} {P : NodeId → Prop} {b b' : Binding}
    (extends_ : Extends step P b b') {v : NodeId}
    (bound : b'.nodes[step.toAlias]? = some v) : P v := by
  obtain ⟨w, e, holds, rfl⟩ := extends_
  rw [Binding.extend_nodes, Binding.bindNode_nodes, if_pos rfl] at bound
  cases bound
  exact holds

/-- A binding tells to which node its alias was bound last. -/
theorem bindNode_inj {b : Binding} {aliasName : String} {v w : NodeId} :
    b.bindNode aliasName v = b.bindNode aliasName w ↔ v = w := by
  constructor
  · intro same
    have target : (b.bindNode aliasName v).nodes[aliasName]? = some w := by
      rw [same, Binding.bindNode_nodes, if_pos rfl]
    rw [Binding.bindNode_nodes, if_pos rfl] at target
    exact Option.some.inj target
  · rintro rfl
    rfl

namespace SimpleLocalExecutor

variable {generation : IndexGeneration} {step : ExpandHop} {P : NodeId → Prop}
variable {binding : Binding}
variable {state : HopState}

/-- The local or remote node of an entry satisfies `P`. -/
def NamesWithin (P : NodeId → Prop) (entry : AdjacencyEntry) : Prop :=
  ∀ v, entry.endpoint = some v → P v

/-- Every node waiting to be explored satisfies `P`, and every binding handed
out extends the binding expanded. -/
structure SearchWithin (step : ExpandHop) (P : NodeId → Prop) (binding : Binding)
    (state : HopState) : Prop where
  next : ∀ v ∈ state.next, P v
  found : ∀ b' ∈ state.found.all, Extends step P binding b'

/-- A search that has found nothing is within any bound. -/
theorem SearchWithin.start : SearchWithin step P binding ⟨∅, ∅, ⟨[], []⟩⟩ where
  next := by simp
  found := by simp [Frontier.all]

theorem SearchWithin.restart (within : SearchWithin step P binding state) :
    SearchWithin step P binding { state with next := ∅ } where
  next := by simp
  found := within.found

/-- One entry more. -/
theorem SearchWithin.visit (within : SearchWithin step P binding state)
    {entry : AdjacencyEntry} (names : NamesWithin P entry) :
    SearchWithin step P binding (visitEntry step binding state entry) := by
  rw [visitEntry]
  split
  case isFalse => exact within
  case isTrue =>
      split
      case h_1 dst isLocal =>
          have holds : P dst :=
            names dst (by rw [AdjacencyEntry.endpoint, isLocal, Option.some_or])
          have next : ∀ v ∈ state.next.insert dst, P v := by
            intro v member
            cases ExtTreeSet.mem_insert.mp member with
            | inl same => rwa [← Std.LawfulEqOrd.eq_of_compare same]
            | inr old => exact within.next v old
          split
          case isFalse => exact ⟨next, within.found⟩
          case isTrue =>
              constructor
              · exact next
              · intro b' member
                simp only [Frontier.all, List.mem_append, List.mem_singleton] at member
                rcases member with (old | rfl) | remote
                · exact within.found b' (List.mem_append_left _ old)
                · exact ⟨dst, entry.edgeId, holds, rfl⟩
                · exact within.found b' (List.mem_append_right _ remote)
      case h_2 isLocal =>
          split
          case h_2 => exact within
          case h_1 remoteRef isRemote =>
              have holds : P remoteRef.node :=
                names _ (by rw [AdjacencyEntry.endpoint, isLocal, Option.none_or,
                    isRemote, Option.map_some])
              split
              case isFalse => exact within
              case isTrue =>
                  constructor
                  · exact within.next
                  · intro b' member
                    simp only [Frontier.all, List.map_append, List.map_cons,
                      List.map_nil, List.mem_append, List.mem_singleton] at member
                    rcases member with isLocal | old | rfl
                    · exact within.found b' (List.mem_append_left _ isLocal)
                    · exact within.found b' (List.mem_append_right _ old)
                    · exact ⟨remoteRef.node, entry.edgeId, holds, rfl⟩

/-- Following entries that name nodes of the bound stays within it. -/
theorem SearchWithin.visits (within : SearchWithin step P binding state)
    (entries : List AdjacencyEntry) (names : ∀ entry ∈ entries, NamesWithin P entry) :
    SearchWithin step P binding (entries.foldl (visitEntry step binding) state) := by
  induction entries generalizing state with
  | nil => exact within
  | cons entry rest inductionHypothesis =>
      rw [List.foldl_cons]
      apply inductionHypothesis (within.visit (names entry List.mem_cons_self))
      exact fun other member => names other (List.mem_cons_of_mem entry member)

/-- One node handed out. -/
theorem SearchWithin.accept (unaliased : step.edgeAlias = none)
    (within : SearchWithin step P binding state) {node : NodeId} (holds : P node) :
    SearchWithin step P binding (acceptNode step binding state node) := by
  rw [acceptNode]
  split
  case isTrue => exact within
  case isFalse =>
      constructor
      · exact within.next
      · intro b' member
        simp only [Frontier.all, List.mem_append, List.mem_singleton] at member
        rcases member with (old | rfl) | remote
        · exact within.found b' (List.mem_append_left _ old)
        · refine ⟨node, ⟨0⟩, holds, ?_⟩
          rw [unaliased]
          rfl
        · exact within.found b' (List.mem_append_right _ remote)

/-- Accepting nodes of the bound stays within it. -/
theorem SearchWithin.accepts (unaliased : step.edgeAlias = none)
    (within : SearchWithin step P binding state) (nodes : List NodeId)
    (holds : ∀ node ∈ nodes, P node) :
    SearchWithin step P binding (nodes.foldl (acceptNode step binding) state) := by
  induction nodes generalizing state with
  | nil => exact within
  | cons node rest inductionHypothesis =>
      rw [List.foldl_cons]
      apply inductionHypothesis (within.accept unaliased (holds node List.mem_cons_self))
      exact fun other member => holds other (List.mem_cons_of_mem node member)

/-- One depth more. -/
theorem exploreDepth_always
    (names : ∀ u, ∀ entry ∈ generation.neighbors step.direction u,
      NamesWithin P entry) (depth : Nat) (current : ExtTreeSet NodeId compare)
    (within : SearchWithin step P binding state) :
    (exploreDepth generation step binding depth current state).Always
      (SearchWithin step P binding) := by
  apply Client.Always.bind (Client.Always.unordered _)
  intro nodes _
  have visited : SearchWithin step P binding
      (visitNodes generation step binding state nodes) := by
    rw [visitNodes_eq]
    apply within.restart.visits
    intro entry member
    obtain ⟨u, -, inRow⟩ := List.mem_flatMap.mp member
    exact names u entry inRow
  split
  case isFalse => exact Client.Always.pure visited
  case isTrue accepts =>
      apply Client.Always.bind (Client.Always.unordered _)
      intro targets perm
      apply Client.Always.pure
      apply visited.accepts (Option.isNone_iff_eq_none.mp accepts.1)
      exact fun node member => visited.next node ((mem_setEnumeration perm).mp member)

/-- Every depth stays within the bound. -/
theorem expandDepths_always
    (names : ∀ u, ∀ entry ∈ generation.neighbors step.direction u,
      NamesWithin P entry) (remaining depth : Nat)
    (current : ExtTreeSet NodeId compare)
    (within : SearchWithin step P binding state) :
    (expandDepths generation step binding remaining depth current state).Always
      (SearchWithin step P binding) := by
  induction remaining generalizing depth current state with
  | zero => exact Client.Always.pure within
  | succ remaining inductionHypothesis =>
      rw [expandDepths]
      apply Client.Always.bind (exploreDepth_always names depth current within)
      intro explored found
      split
      · exact Client.Always.pure found
      · exact inductionHypothesis (depth + 1) explored.next found

/-- What a binding is expanded to extends it, by nodes of the bound. -/
theorem expandBinding_always
    (names : ∀ u, ∀ entry ∈ generation.neighbors step.direction u,
      NamesWithin P entry) :
    (expandBinding generation step binding).Always fun found =>
      ∀ b' ∈ found.all, Extends step P binding b' := by
  rw [expandBinding]
  split
  · exact Client.Always.fail _
  · apply Client.Always.bind (expandDepths_always names step.hops.max 1 _ .start)
    intro state within
    exact Client.Always.pure within.found

/-- What a frontier is expanded to extends one of its bindings. -/
theorem expandFrontier_always
    (names : ∀ u, ∀ entry ∈ generation.neighbors step.direction u,
      NamesWithin P entry) (frontier : List Binding) :
    (expandFrontier generation step frontier).Always fun found =>
      ∀ b' ∈ found.all, ∃ b ∈ frontier, Extends step P b b' := by
  apply Client.Always.foldlM
  · simp [Frontier.all]
  · intro b member acc earlier
    apply Client.Always.bind (expandBinding_always names)
    intro found here
    apply Client.Always.pure
    intro b' inBoth
    simp only [Frontier.all, List.map_append, List.mem_append] at inBoth earlier here
    rcases inBoth with (old | new) | (old | new)
    · exact earlier b' (.inl old)
    · exact ⟨b, member, here b' (.inl new)⟩
    · exact earlier b' (.inr old)
    · exact ⟨b, member, here b' (.inr new)⟩

/-- Filtering through the property index only drops bindings. -/
theorem mem_of_mem_applyFilters {properties : PropertyIndex}
    {toLabel : Option String} {toAlias : String} {filters : List PropertyFilter}
    {bindings kept : List Binding}
    (filtered : applyFilters properties toLabel toAlias filters bindings = .ok kept)
    {b : Binding} (member : b ∈ kept) : b ∈ bindings := by
  unfold applyFilters at filtered
  split at filtered
  case isTrue =>
      cases filtered
      exact member
  case isFalse =>
      split at filtered
      case h_1 =>
          cases filtered
          exact member
      case h_2 label =>
          cases allowed : allowedNodes properties label filters with
          | error e =>
              rw [allowed] at filtered
              cases filtered
          | ok nodes =>
              rw [allowed] at filtered
              exact mem_of_mem_filterM filtered member

/-! ### Every extension once -/

/-- The bindings handed out are distinct, and the node of each is remembered. -/
structure HandedOnce (step : ExpandHop) (binding : Binding) (state : HopState) :
    Prop where
  distinct : state.found.all.Nodup
  remembered : ∀ b' ∈ state.found.all, ∃ v ∈ state.seen,
    b' = binding.bindNode step.toAlias v

/-- Nothing has been handed out at the start. -/
theorem HandedOnce.start : HandedOnce step binding ⟨∅, ∅, ⟨[], []⟩⟩ where
  distinct := List.nodup_nil
  remembered := by simp [Frontier.all]

theorem HandedOnce.restart (once : HandedOnce step binding state) :
    HandedOnce step binding { state with next := ∅ } where
  distinct := once.distinct
  remembered := once.remembered

/-- A binding for a node that is not remembered yet is a new one. -/
theorem HandedOnce.insert (once : HandedOnce step binding state) {v : NodeId}
    (unseen : v ∉ state.seen) {found : Frontier}
    (handed : found.all.Perm (binding.bindNode step.toAlias v :: state.found.all)) :
    HandedOnce step binding
      { state with seen := state.seen.insert v, found := found } where
  distinct := by
    rw [handed.nodup_iff, List.nodup_cons]
    refine ⟨fun member => ?_, once.distinct⟩
    obtain ⟨w, seen, same⟩ := once.remembered _ member
    rw [bindNode_inj.mp same] at unseen
    exact unseen seen
  remembered b' member := by
    cases List.mem_cons.mp (handed.mem_iff.mp member) with
    | inl same => exact ⟨v, ExtTreeSet.mem_insert_self, same⟩
    | inr old =>
        obtain ⟨w, seen, same⟩ := once.remembered b' old
        exact ⟨w, ExtTreeSet.mem_insert.mpr (.inr seen), same⟩

/-- An entry followed hands out no node twice. -/
theorem HandedOnce.visit (unaliased : step.edgeAlias = none)
    (once : HandedOnce step binding state) (entry : AdjacencyEntry) :
    HandedOnce step binding (visitEntry step binding state entry) := by
  rw [visitEntry, unaliased]
  split
  case isFalse => exact once
  case isTrue =>
      split
      case h_1 => exact ⟨once.distinct, once.remembered⟩
      case h_2 =>
          split
          case h_2 => exact once
          case h_1 remoteRef _ =>
              split
              case isFalse => exact once
              case isTrue fresh =>
                  apply once.insert (fresh.resolve_left Bool.false_ne_true)
                  rw [Frontier.all, List.map_append, ← List.append_assoc]
                  exact List.perm_append_singleton _ _

/-- Entries followed hand out no node twice. -/
theorem HandedOnce.visits (unaliased : step.edgeAlias = none)
    (once : HandedOnce step binding state) (entries : List AdjacencyEntry) :
    HandedOnce step binding (entries.foldl (visitEntry step binding) state) := by
  induction entries generalizing state with
  | nil => exact once
  | cons entry rest inductionHypothesis =>
      exact inductionHypothesis (once.visit unaliased entry)

/-- A node accepted is handed out once. -/
theorem HandedOnce.accept (once : HandedOnce step binding state) (node : NodeId) :
    HandedOnce step binding (acceptNode step binding state node) := by
  rw [acceptNode]
  split
  case isTrue => exact once
  case isFalse unseen =>
      apply once.insert unseen
      rw [Frontier.all, List.append_assoc]
      exact List.perm_middle

theorem HandedOnce.accepts (once : HandedOnce step binding state) (nodes : List NodeId) :
    HandedOnce step binding (nodes.foldl (acceptNode step binding) state) := by
  induction nodes generalizing state with
  | nil => exact once
  | cons node rest inductionHypothesis => exact inductionHypothesis (once.accept node)

/-- A depth hands out no node twice. -/
theorem exploreDepth_once (unaliased : step.edgeAlias = none) (depth : Nat)
    (current : ExtTreeSet NodeId compare) (once : HandedOnce step binding state) :
    (exploreDepth generation step binding depth current state).Always
      (HandedOnce step binding) := by
  apply Client.Always.bind (Client.Always.unordered _)
  intro nodes _
  have visited :
      HandedOnce step binding (visitNodes generation step binding state nodes) := by
    rw [visitNodes_eq]
    exact once.restart.visits unaliased _
  split
  case isFalse => exact Client.Always.pure visited
  case isTrue =>
      apply Client.Always.bind (Client.Always.unordered _)
      intro targets _
      exact Client.Always.pure (visited.accepts targets)

/-- All depths together hand out no node twice. -/
theorem expandDepths_once (unaliased : step.edgeAlias = none)
    (remaining depth : Nat) (current : ExtTreeSet NodeId compare)
    (once : HandedOnce step binding state) :
    (expandDepths generation step binding remaining depth current state).Always
      (HandedOnce step binding) := by
  induction remaining generalizing depth current state with
  | zero => exact Client.Always.pure once
  | succ remaining inductionHypothesis =>
      rw [expandDepths]
      apply Client.Always.bind (exploreDepth_once unaliased depth current once)
      intro explored found
      split
      · exact Client.Always.pure found
      · exact inductionHypothesis (depth + 1) explored.next found

/-- Without an edge alias, the expansion of a binding hands out every extension
once. -/
theorem expandBinding_once (unaliased : step.edgeAlias = none) :
    (expandBinding generation step binding).Always fun found => found.all.Nodup := by
  rw [expandBinding]
  split
  · exact Client.Always.fail _
  · apply Client.Always.bind (expandDepths_once unaliased step.hops.max 1 _ .start)
    intro state once
    exact Client.Always.pure once.distinct

/-! ### The call -/

/-- Everything after the snapshot of the index. -/
theorem expandOn_always
    (names : ∀ u, ∀ entry ∈ generation.neighbors step.direction u,
      NamesWithin P entry) (frontier : List Binding) :
    (expandFrontier generation step frontier >>= fun found =>
      Client.ofExcept
        (applyFilters generation.properties step.toLabel step.toAlias step.filters
        found.localBindings) >>= fun filtered =>
      (pure { localBindings := filtered, remote := found.remote } : Exec
        Frontier)).Always fun found =>
        ∀ b' ∈ found.all, ∃ b ∈ frontier, Extends step P b b' := by
  apply Client.Always.bind (expandFrontier_always names frontier)
  intro found earlier
  apply Client.Always.bind (Client.Always.ofExcept fun filtered kept => kept)
  intro filtered kept
  apply Client.Always.pure
  intro b' member
  apply earlier b'
  cases List.mem_append.mp member with
  | inl isLocal => exact List.mem_append_left _ (mem_of_mem_applyFilters kept isLocal)
  | inr remote => exact List.mem_append_right _ remote

/-- Whatever the index holds, a binding handed out extends one of the frontier. -/
theorem expandHop_always (index : GenerationHandle) (step : ExpandHop)
    (frontier : List Binding) :
    (expandHop index (.expandHop step) frontier).Always fun found =>
      ∀ b' ∈ found.all, ∃ b ∈ frontier, Extends step (fun _ => True) b b' :=
  fun _ => expandOn_always (fun _ _ _ _ _ => trivial) frontier

/-- On a frozen index, a binding handed out leads to a node that some entry
names. -/
theorem expandHop_within {serve : GenerationHandle → IndexGeneration}
    {index : GenerationHandle}
    (names : ∀ u, ∀ entry ∈ (serve index).neighbors step.direction u,
      NamesWithin P entry) (frontier : List Binding) :
    (expandHop index (.expandHop step) frontier).Meets serve
      (fun found => ∀ b' ∈ found.all, ∃ b ∈ frontier, Extends step P b b')
      (fun _ => True) :=
  (expandOn_always names frontier).meets serve

end SimpleLocalExecutor

end GraphEngine
