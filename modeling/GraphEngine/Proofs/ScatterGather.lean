/-
Module: GraphEngine.Proofs.ScatterGather
Layer: Proofs
Purpose: A hop of the scatter-gather loop means one expansion step over the
  cluster's view.  A round is one edge further for every binding; the rounds
  together are the accepted walks; the filters are those of the hydrated
  records.
Trusted boundary: none
Main exports: oneRound_meets, RoundsDone, scatterGatherHop_meets,
  filterFrontier_meets, expandStep_meets
-/
import GraphEngine.Proofs.Routing
import GraphEngine.Spec.Walks

namespace GraphEngine

open Std (ExtTreeMap ExtTreeSet)
open ScatterGatherExecutor (roundStep passesFilters)
open SimpleLocalExecutor (LocalHop expandHop_single)

/-- The coordinator whose calls run in process. -/
abbrev inProcess [Chrono] (hasher : Partitioning) : ScatterGatherExecutor :=
  ⟨inProcessRpc, hasher⟩

section Hops

variable [Chrono] (hasher : Partitioning) (partitions : PartitionMap)
variable (serve : GenerationHandle → IndexGeneration) {Allowed : Fault → Prop}

/-! ### One round -/

omit [Chrono] in
theorem hopOnce_clusterView_iff {serving : PartitionId → Option IndexGeneration}
    {step : ExpandHop} {b b' : Binding} :
    HopOnce (clusterView hasher serving) step b b' ↔
      ∃ u, b.nodes[step.fromAlias]? = some u ∧ ∃ generation,
        serving (hasher.partition u) = some generation ∧
          LocalHop generation step b b' := by
  constructor
  · rintro ⟨u, t, e, v, bound,
      ⟨generation, serves, entry, member, rfl, rfl, leads⟩, typed, same⟩
    exact ⟨u, bound, generation, serves, u, v, bound, entry, member, typed, leads, same⟩
  · rintro ⟨u, bound, generation, serves, w, v, boundW, entry, member, typed, leads, same⟩
    rw [bound] at boundW
    cases boundW
    exact ⟨u, entry.edgeType, entry.edgeId, v, bound,
      ⟨generation, serves, entry, member, rfl, rfl, leads⟩, typed, same⟩

/-- A round fails on a binding without its source. -/
theorem oneRound_unbound {step : ExpandHop} {frontier : List Binding}
    (lacking : ∃ b ∈ frontier, step.fromAlias ∉ b.nodes) :
    (inProcess hasher).oneRound partitions step frontier =
      raise (.unknownAlias step.fromAlias) := by
  obtain ⟨b, member, unbound⟩ := lacking
  rw [ScatterGatherExecutor.oneRound,
    groupByOwningNodePartition_error hasher member unbound]
  rfl

theorem oneRound_fails {step : ExpandHop} {frontier : List Binding}
    (unbound : ¬ ∀ b ∈ frontier, step.fromAlias ∈ b.nodes) {Post : List Binding → Prop} :
    ((inProcess hasher).oneRound partitions step frontier).Meets serve Post
      (fun _ => ∃ b ∈ frontier, step.fromAlias ∉ b.nodes) := by
  have lacking : ∃ b ∈ frontier, step.fromAlias ∉ b.nodes := by
    by_contra none
    exact unbound fun b member => by_contra fun without => none ⟨b, member, without⟩
  rw [oneRound_unbound hasher partitions lacking]
  exact Client.Meets.fail lacking

/-- A round is one edge further; it fails only on a binding without its source. -/
theorem oneRound_meets {step : ExpandHop} (single : step.hops = ⟨1, 1⟩)
    (unfiltered : step.filters = []) (frontier : List Binding) :
    ((inProcess hasher).oneRound partitions step frontier).Meets serve
      (fun out => ∀ b', b' ∈ out ↔ ∃ b ∈ frontier,
        HopOnce (clusterView hasher (servingOf partitions serve)) step b b')
      (fun _ => ∃ b ∈ frontier, step.fromAlias ∉ b.nodes) := by
  by_cases bound : ∀ b ∈ frontier, step.fromAlias ∈ b.nodes
  · rw [ScatterGatherExecutor.oneRound, groupByOwningNodePartition_ok hasher bound,
      raiseError_ok, Client.pure_bind]
    refine Client.Meets.bind (Client.Meets.unordered _) fun groups perm => ?_
    refine (Client.Meets.collect_mem (Y := fun (group : PartitionId × List Binding) b' =>
      ∃ b ∈ group.2, ∃ generation, servingOf partitions serve group.1 = some generation ∧
        LocalHop generation step b b') groups ?_).imp ?_
    · intro group member
      cases picked : pickReplica partitions group.1 with
      | none =>
          refine Client.Meets.pure fun b' => ?_
          simp [servingOf_of_pick_none serve picked]
      | some replica =>
          refine Client.Meets.bind
            ((expandHop_single single unfiltered replica.handle group.2).mono
            (fun _ post => post) ?_) fun result post => ?_
          · rintro fault ⟨b, inGroup, unbound⟩
            obtain ⟨content, -⟩ := mem_toList_groupByKey.mp (perm.mem_iff.mp member)
            rw [content, List.mem_filter] at inGroup
            obtain ⟨v, found⟩ := (b.mem_nodes_iff _).mp (bound b inGroup.1)
            rw [unbound] at found
            cases found
          · refine Client.Meets.pure fun b' => ?_
            have all := post b'
            rw [Frontier.all] at all
            rw [all, servingOf_of_pick serve picked]
            simp
    · intro out post b'
      rw [post]
      simp only [hopOnce_clusterView_iff]
      exact exists_group_iff hasher bound perm fun p b => ∃ generation,
        servingOf partitions serve p = some generation ∧ LocalHop generation step b b'
  · exact oneRound_fails hasher partitions serve bound

/-! ### All rounds -/

/-- After the rounds up to `depth`, the current bindings are the ends of the
walks of that length, and the accepted ones the ends of the walks of an accepted
length so far. -/
structure RoundsDone (V : GraphView) (step : ExpandHop) (frontier : List Binding)
    (depth : Nat) (current accepted : List Binding) : Prop where
  current : ∀ b', b' ∈ current ↔ ∃ b ∈ frontier, HopWalk V step depth b b'
  accepted : ∀ b', b' ∈ accepted ↔ ∃ b ∈ frontier, ∃ l, 1 ≤ l ∧
    step.hops.min ≤ l ∧ l ≤ depth ∧
    HopWalk V step l b b'

namespace RoundsDone

variable {V : GraphView} {step : ExpandHop}
variable {frontier current accepted next : List Binding} {depth : Nat}

omit [Chrono]

theorem start : RoundsDone V step frontier 0 frontier [] where
  current b' := by
    constructor
    · exact fun member => ⟨b', member, rfl⟩
    · rintro ⟨b, member, same⟩
      have equal : b' = b := same
      rwa [equal]
  accepted b' := by
    constructor
    · exact fun impossible => by cases impossible
    · rintro ⟨b, -, l, positive, -, upper, -⟩
      omega

/-- One round more. -/
theorem round (done : RoundsDone V step frontier depth current accepted)
    (advanced : ∀ b', b' ∈ next ↔ ∃ mid ∈ current,
      HopOnce V (roundStep step (cursorAt step depth) (depth + 1)) mid b') :
    RoundsDone V step frontier (depth + 1) next
      (if step.hops.min ≤ depth + 1 then appendUnseen bindingKey accepted next
        else accepted) := by
  have ends : ∀ b', b' ∈ next ↔ ∃ b ∈ frontier, HopWalk V step (depth + 1) b b' := by
    intro b'
    rw [advanced]
    constructor
    · rintro ⟨mid, inCurrent, once⟩
      obtain ⟨b, member, walk⟩ := (done.current mid).mp inCurrent
      exact ⟨b, member, mid, walk, once⟩
    · rintro ⟨b, member, mid, walk, once⟩
      exact ⟨mid, (done.current mid).mpr ⟨b, member, walk⟩, once⟩
  refine ⟨ends, fun b' => ?_⟩
  split
  case isTrue lower =>
    rw [mem_merge, done.accepted, ends]
    constructor
    · rintro (⟨b, member, l, positive, low, upper, walk⟩ | ⟨b, member, walk⟩)
      · exact ⟨b, member, l, positive, low, by omega, walk⟩
      · exact ⟨b, member, depth + 1, by omega, lower, le_rfl, walk⟩
    · rintro ⟨b, member, l, positive, low, upper, walk⟩
      rcases Nat.lt_or_eq_of_le upper with earlier | last
      · exact .inl ⟨b, member, l, positive, low, by omega, walk⟩
      · subst last
        exact .inr ⟨b, member, walk⟩
  case isFalse higher =>
    rw [done.accepted]
    constructor
    · rintro ⟨b, member, l, positive, low, upper, walk⟩
      exact ⟨b, member, l, positive, low, by omega, walk⟩
    · rintro ⟨b, member, l, positive, low, upper, walk⟩
      exact ⟨b, member, l, positive, low, by omega, walk⟩

/-- When no longer walk counts, everything is accepted. -/
theorem finished (done : RoundsDone V step frontier depth current accepted)
    (within : depth ≤ step.hops.max)
    (nothing : ∀ b ∈ frontier, ∀ l b', depth < l → l ≤ step.hops.max →
      ¬ HopWalk V step l b b') (b' : Binding) :
    b' ∈ accepted ↔ ∃ b ∈ frontier, HopReaches V step b b' := by
  rw [done.accepted]
  constructor
  · rintro ⟨b, member, l, positive, lower, upper, walk⟩
    exact ⟨b, member, l, positive, lower, by omega, walk⟩
  · rintro ⟨b, member, l, positive, lower, upper, walk⟩
    refine ⟨b, member, l, positive, lower, ?_, walk⟩
    by_contra beyond
    exact nothing b member l b' (by omega) upper walk

/-- Once a depth is empty, so is every later one. -/
theorem no_longer_walk (done : RoundsDone V step frontier depth current accepted)
    (empty : current = []) {b b' : Binding} (member : b ∈ frontier) {l : Nat}
    (beyond : depth < l) : ¬ HopWalk V step l b b' := by
  intro walk
  obtain ⟨more, rfl⟩ := Nat.exists_eq_add_of_le (Nat.le_of_lt beyond)
  obtain ⟨mid, reached⟩ := walk.through more
  have inCurrent := (done.current mid).mpr ⟨b, member, reached⟩
  rw [empty] at inCurrent
  cases inCurrent

/-- A current binding without the alias that the next round starts from is one
of the frontier. -/
theorem unbound (done : RoundsDone V step frontier depth current accepted)
    (lacking : ∃ b' ∈ current, cursorAt step depth ∉ b'.nodes) :
    ∃ b ∈ frontier, step.fromAlias ∉ b.nodes := by
  obtain ⟨b', inCurrent, unbound⟩ := lacking
  obtain ⟨b, member, walk⟩ := (done.current b').mp inCurrent
  cases depth with
  | zero =>
      have same : b' = b := walk
      rw [← same] at member
      exact ⟨b', member, unbound⟩
  | succ depth => exact absurd ((walk.aliases step.toAlias).1.mpr (.inl rfl)) unbound

end RoundsDone

/-- The rounds from depth `depth + 1` on. -/
theorem hopRounds_meets (step : ExpandHop) (frontier : List Binding)
    (remaining depth : Nat) (total : depth + remaining = step.hops.max)
    {current accepted : List Binding}
    (done : RoundsDone (clusterView hasher (servingOf partitions serve)) step
      frontier depth current accepted) :
    ((inProcess hasher).hopRounds partitions step remaining (depth + 1)
      (cursorAt step depth) current
      accepted).Meets serve
      (fun out => ∀ b', b' ∈ out ↔ ∃ b ∈ frontier,
        HopReaches (clusterView hasher (servingOf partitions serve)) step b b')
      (fun _ => ∃ b ∈ frontier, step.fromAlias ∉ b.nodes) := by
  induction remaining generalizing depth current accepted with
  | zero =>
      refine Client.Meets.pure (done.finished (by omega) fun b _ l b' beyond within => ?_)
      omega
  | succ remaining inductionHypothesis =>
      rw [ScatterGatherExecutor.hopRounds]
      split
      case isTrue empty =>
        exact Client.Meets.pure (done.finished (by omega) fun b member l b' beyond _ =>
          done.no_longer_walk empty member beyond)
      case isFalse =>
        have single :
            (roundStep step (cursorAt step depth) (depth + 1)).hops = ⟨1, 1⟩ :=
          rfl
        have round := oneRound_meets hasher partitions serve single rfl current
        refine Client.Meets.bind
          (round.mono (fun _ post => post) fun _ => done.unbound) fun next post => ?_
        exact inductionHypothesis (depth + 1) (by omega) (done.round post)

/-- All rounds of a hop reach exactly what walks of an accepted length reach. -/
theorem scatterGatherHop_meets (step : ExpandHop) (frontier : List Binding) :
    ((inProcess hasher).scatterGatherHop partitions step frontier).Meets serve
      (fun out => ∀ b', b' ∈ out ↔ ∃ b ∈ frontier,
        HopReaches (clusterView hasher (servingOf partitions serve)) step b b')
      (fun _ => ∃ b ∈ frontier, step.fromAlias ∉ b.nodes) :=
  hopRounds_meets hasher partitions serve step frontier step.hops.max 0 (by omega) .start

/-! ### Filters -/

/-- Filtering keeps, in their order, the bindings whose target's record
satisfies the filters. -/
theorem filterFrontier_keeps (step : ExpandHop) (frontier : List Binding) :
    ((inProcess hasher).filterFrontier partitions step frontier).Meets serve
      (fun out => ∃ keeps : Binding → Bool, out = frontier.filter keeps ∧ ∀ b ∈ frontier,
        keeps b = true ↔ PassesFilters
          (clusterView hasher (servingOf partitions serve)) step b) Allowed := by
  rw [ScatterGatherExecutor.filterFrontier]
  split
  case isTrue trivialCase =>
    refine Client.Meets.pure
      ⟨fun _ => true, by rw [List.filter_true], fun b member => iff_of_true rfl ?_⟩
    rcases trivialCase with unfiltered | empty
    · exact .inl unfiltered
    · rw [empty] at member
      cases member
  case isFalse nontrivial =>
    refine Client.Meets.bind (Client.Meets.unordered _) fun ids perm => ?_
    refine Client.Meets.bind (getNodeProperties_meets hasher partitions serve ids)
      fun properties post => ?_
    refine Client.Meets.pure ⟨_, rfl, fun b member => ?_⟩
    have filtered : step.filters ≠ [] := fun unfiltered => nontrivial (.inl unfiltered)
    rw [passesFilters]
    cases bound : b.nodes[step.toAlias]? with
    | none => simp [PassesFilters, filtered, bound]
    | some v =>
        have asked : v ∈ ids := by
          rw [mem_setEnumeration perm, mem_setOfList, List.mem_filterMap]
          exact ⟨b, member, bound⟩
        cases hydrated : properties[v]? with
        | none =>
            have unrecorded : ∀ record,
                ¬ (clusterView hasher (servingOf partitions serve)).nodeRecord v
                record := by
              intro record recorded
              rw [(post v record).mpr ⟨asked, recorded⟩] at hydrated
              cases hydrated
            simp [PassesFilters, filtered, bound, unrecorded, hydrated]
        | some record =>
            have recorded := ((post v record).mp hydrated).2
            dsimp only
            rw [hydrated]
            constructor
            · exact fun holds => .inr ⟨v, record, bound, recorded, holds⟩
            · rintro (unfiltered | ⟨w, other, boundW, recordedW, holds⟩)
              · exact absurd unfiltered filtered
              · rw [bound] at boundW
                cases boundW
                rw [clusterView_nodeRecord_unique recorded recordedW]
                exact holds

theorem filterFrontier_meets (step : ExpandHop) (frontier : List Binding) :
    ((inProcess hasher).filterFrontier partitions step frontier).Meets serve
      (fun out => ∀ b, b ∈ out ↔ b ∈ frontier ∧
        PassesFilters
          (clusterView hasher (servingOf partitions serve)) step b) Allowed := by
  refine (filterFrontier_keeps hasher partitions serve step frontier).imp ?_
  rintro out ⟨keeps, rfl, passes⟩ b
  rw [List.mem_filter]
  exact and_congr_right (passes b)

/-- A whole expansion step. -/
theorem expandStep_meets (step : ExpandHop) (frontier : List Binding) :
    ((inProcess hasher).runStep partitions frontier (.expandHop step)).Meets serve
      (fun out => ∀ b', b' ∈ out ↔ ∃ b ∈ frontier,
        HopRel (clusterView hasher (servingOf partitions serve)) step b b')
      (fun _ => ∃ b ∈ frontier, step.fromAlias ∉ b.nodes) := by
  refine Client.Meets.bind (scatterGatherHop_meets hasher partitions serve step frontier)
    fun expanded reached => ?_
  refine (filterFrontier_meets hasher partitions serve step expanded).imp
    fun out kept b' => ?_
  rw [kept, reached]
  simp only [HopRel, ← exists_and_right, and_assoc]

end Hops

end GraphEngine
