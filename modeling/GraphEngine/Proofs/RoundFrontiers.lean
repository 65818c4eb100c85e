/-
Module: GraphEngine.Proofs.RoundFrontiers
Layer: Proofs
Purpose: The frontiers that the rounds of a hop hand on.  A round asks for every
  binding apart and merges the answers as they come, so that bindings which meet
  at a node are handed on once for each way in.
Trusted boundary: none
Main exports: Apart, oneRound_nodup, hopRoundsNoted, hopRoundsNoted_erased,
  HandsOnDistinct, handsOnDistinct_iff
-/
import GraphEngine.Proofs.HopExtensions
import GraphEngine.Proofs.ScatterGather
import GraphEngine.Spec.Dataset
import Mathlib.Data.List.ProdSigma

namespace GraphEngine

open ScatterGatherExecutor (roundStep)
open SimpleLocalExecutor

/-! ### One binding -/

section OneBinding

variable {serve : GenerationHandle → IndexGeneration} {generation : IndexGeneration}
variable {step : ExpandHop}
variable {binding : Binding}

/-- With an edge alias, no two entries of the source's row give the same edge
and the same end. -/
def TakenOnce (generation : IndexGeneration) (step : ExpandHop) (b : Binding) : Prop :=
  step.edgeAlias.isSome → ∀ u, b.nodes[step.fromAlias]? = some u →
    ((generation.neighbors step.direction u).filterMap (taken step)).Nodup

/-- With an edge alias, a binding tells along which edge it went and where to. -/
theorem along_injective (aliased : step.edgeAlias.isSome) :
    Function.Injective (along step binding) := by
  intro edge edge' same
  obtain ⟨aliasName, named⟩ := Option.isSome_iff_exists.mp aliased
  have node : (along step binding edge).nodes[step.toAlias]? = some edge'.1 := by
    rw [same, along, Binding.extend_nodes, Binding.bindNode_nodes, if_pos rfl]
  have edgeId : (along step binding edge).edges[aliasName]? = some edge'.2 := by
    rw [same, along, Binding.extend_edges, if_pos named]
  rw [along, Binding.extend_nodes, Binding.bindNode_nodes, if_pos rfl] at node
  rw [along, Binding.extend_edges, if_pos named] at edgeId
  exact Prod.ext (Option.some.inj node) (Option.some.inj edgeId)

/-- The expansion of one binding by a single-hop step, and when it hands out
everything once. -/
theorem expandBinding_pieces (single : step.hops = ⟨1, 1⟩) :
    (expandBinding generation step binding).Meets serve
      (fun found => (∀ b', b' ∈ found.all ↔ LocalHop generation step binding b') ∧
        (found.all.Nodup ↔ TakenOnce generation step binding))
      (fun _ => binding.nodes[step.fromAlias]? = none) := by
  have once : (expandBinding generation step binding).Meets serve
      (fun found => found.all.Nodup ↔ TakenOnce generation step binding)
        fun _ => True := by
    cases unaliased : step.edgeAlias with
    | none =>
        apply ((expandBinding_once unaliased).meets serve).imp
        intro found distinct
        apply iff_of_true distinct
        intro aliased
        rw [unaliased] at aliased
        cases aliased
    | some aliasName =>
        have aliased : step.edgeAlias.isSome := by rw [unaliased]; rfl
        cases bound : binding.nodes[step.fromAlias]? with
        | none =>
            rw [expandBinding, bound]
            exact Client.Meets.fail trivial
        | some start =>
            apply expandBinding_first single bound
            apply (exploreDepth_aliased aliased start).imp
            intro after handed
            rw [handed.nodup_iff, List.nodup_map_iff (along_injective aliased),
              TakenOnce, bound]
            constructor
            · rintro distinct - u ⟨⟩
              exact distinct
            · exact fun distinct => distinct aliased start rfl
  exact (expandBinding_single single).and once

/-- A single-hop call without filters, binding after binding. -/
theorem expandHop_pieces (single : step.hops = ⟨1, 1⟩)
    (unfiltered : step.filters = []) (index : GenerationHandle)
    (frontier : List Binding) :
    (expandHop index (.expandHop step) frontier).Meets serve
      (fun found => ∃ parts, List.Forall₂
        (fun b part => (∀ b', b' ∈ part ↔ LocalHop (serve index) step b b') ∧
        (part.Nodup ↔ TakenOnce (serve index) step b)) frontier parts ∧
          found.all.Perm parts.flatten)
      (fun _ => ∃ b ∈ frontier, b.nodes[step.fromAlias]? = none) := by
  apply Client.Meets.bind (Client.Meets.acquire index)
  rintro generation rfl
  apply Client.Meets.bind (expandFrontier_parts frontier fun b member =>
    (expandBinding_pieces single).mono (fun _ post => post) fun _ missing =>
      ⟨b, member, missing⟩)
  rintro found ⟨parts, related, locals, remotes⟩
  rw [unfiltered, applyFilters_nil]
  apply Client.Meets.pure
  refine ⟨parts.map Frontier.all, List.forall₂_map_right_iff.mpr related, ?_⟩
  rw [Frontier.all, locals, remotes, List.map_flatMap]
  exact List.flatMap_append_perm parts _ _

end OneBinding

/-! ### One round -/

section OneRound

variable {hasher : Partitioning} {serving : PartitionId → Option IndexGeneration}
variable {step : ExpandHop}

/-- With an edge alias, the partition that answers for a binding lists no edge
to the same end twice. -/
def EdgesListedOnce (hasher : Partitioning)
    (serving : PartitionId → Option IndexGeneration) (step : ExpandHop)
    (b : Binding) : Prop :=
  ∀ u generation, b.nodes[step.fromAlias]? = some u →
    serving (hasher.partition u) = some generation →
    TakenOnce generation step b

/-- Among some bindings, no two go on to the same binding, and none goes on to
one twice. -/
structure Apart (hasher : Partitioning)
    (serving : PartitionId → Option IndexGeneration) (step : ExpandHop)
    (Among : Binding → Prop) : Prop where
  edges : ∀ b, Among b → EdgesListedOnce hasher serving step b
  ends : ∀ a, Among a → ∀ b, Among b → a ≠ b →
    ∀ next, HopOnce (clusterView hasher serving) step a next →
    ¬ HopOnce (clusterView hasher serving) step b next

/-- What the round hands on for one binding. -/
def RoundPiece (hasher : Partitioning)
    (serving : PartitionId → Option IndexGeneration) (step : ExpandHop)
    (b : Binding) (piece : List Binding) : Prop :=
  (∀ b', b' ∈ piece ↔ HopOnce (clusterView hasher serving) step b b') ∧
    (piece.Nodup ↔ EdgesListedOnce hasher serving step b)

/-- A partition without a healthy replica hands on nothing. -/
theorem roundPiece_unserved {b : Binding} {u : NodeId}
    (bound : b.nodes[step.fromAlias]? = some u)
    (unserved : serving (hasher.partition u) = none) :
    RoundPiece hasher serving step b [] := by
  constructor
  · intro b'
    rw [hopOnce_clusterView_iff]
    simp [bound, unserved]
  · apply iff_of_true List.nodup_nil
    intro w generation boundW serves
    rw [bound] at boundW
    cases boundW
    rw [unserved] at serves
    cases serves

/-- The partition that owns the source hands on what its entries lead to. -/
theorem roundPiece_served {b : Binding} {u : NodeId}
    (bound : b.nodes[step.fromAlias]? = some u) {generation : IndexGeneration}
    (serves : serving (hasher.partition u) = some generation) {piece : List Binding} :
    RoundPiece hasher serving step b piece ↔
      (∀ b', b' ∈ piece ↔ LocalHop generation step b b') ∧
      (piece.Nodup ↔ TakenOnce generation step b) := by
  have hops : ∀ b', HopOnce (clusterView hasher serving) step b b' ↔
      LocalHop generation step b b' := by
    intro b'
    rw [hopOnce_clusterView_iff]
    simp [bound, serves]
  have listed : EdgesListedOnce hasher serving step b ↔ TakenOnce generation step b := by
    constructor
    · exact fun each => each u generation bound serves
    · intro once w other boundW serves'
      rw [bound] at boundW
      cases boundW
      rw [serves] at serves'
      cases serves'
      exact once
  simp only [RoundPiece, hops, listed]

variable [Chrono] (partitions : PartitionMap) (serve : GenerationHandle → IndexGeneration)

/-- From distinct bindings a round hands on distinct bindings if and only if
they stay apart. -/
theorem oneRound_nodup (single : step.hops = ⟨1, 1⟩)
    (unfiltered : step.filters = []) (frontier : List Binding) :
    ((inProcess hasher).oneRound partitions step frontier).Meets serve
      (fun out => frontier.Nodup →
        (out.Nodup ↔ Apart hasher (servingOf partitions serve) step fun b =>
          b ∈ frontier))
      (fun _ => ∃ b ∈ frontier, step.fromAlias ∉ b.nodes) := by
  by_cases bound : ∀ b ∈ frontier, step.fromAlias ∈ b.nodes
  · rw [ScatterGatherExecutor.oneRound, groupByOwningNodePartition_ok hasher bound,
      raiseError_ok, Client.pure_bind]
    refine Client.Meets.bind (Client.Meets.unordered _) fun groups perm => ?_
    refine (Client.Meets.collect
      (P := fun (group : PartitionId × List Binding) out => ∃ parts,
      List.Forall₂ (RoundPiece hasher (servingOf partitions serve) step) group.2 parts ∧
        out.Perm parts.flatten) groups ?_).imp ?_
    · intro group member
      have owned : ∀ b ∈ group.2, ∃ u, b.nodes[step.fromAlias]? = some u ∧
          hasher.partition u = group.1 := by
        intro b inGroup
        obtain ⟨content, -⟩ := mem_toList_groupByKey.mp (perm.mem_iff.mp member)
        rw [content, List.mem_filter, decide_eq_true_eq] at inGroup
        obtain ⟨u, found⟩ := (b.mem_nodes_iff _).mp (bound b inGroup.1)
        exact ⟨u, found, (ownerOf_eq found).symm.trans inGroup.2⟩
      cases picked : pickReplica partitions group.1 with
      | none =>
          apply Client.Meets.pure
          refine ⟨group.2.map fun _ => [], ?_, by simp⟩
          rw [List.forall₂_map_right_iff, List.forall₂_same]
          intro b inGroup
          obtain ⟨u, source, home⟩ := owned b inGroup
          apply roundPiece_unserved source
          rw [home, servingOf_of_pick_none serve picked]
      | some replica =>
          refine Client.Meets.bind
            ((expandHop_pieces single unfiltered replica.handle group.2).mono
            (fun _ post => post) ?_) fun result post => ?_
          · rintro fault ⟨b, inGroup, unbound⟩
            obtain ⟨u, source, -⟩ := owned b inGroup
            rw [unbound] at source
            cases source
          · obtain ⟨parts, related, handed⟩ := post
            refine Client.Meets.pure
              ⟨parts, (forall₂_congr fun b inGroup piece => ?_).mp related, handed⟩
            obtain ⟨u, source, home⟩ := owned b inGroup
            apply (roundPiece_served source ?_).symm
            rw [home, servingOf_of_pick serve picked]
    · rintro out ⟨pieces, related, rfl⟩ distinct
      obtain ⟨parts, listed, handed⟩ := forall₂_flatMap related
      have whole : (groups.flatMap Prod.snd).Perm frontier :=
        (perm.flatMap_right Prod.snd).trans (flatMap_groupByKey_perm _ frontier)
      rw [handed.nodup_iff, nodup_flatten_partners listed (whole.nodup_iff.mpr distinct)]
      simp only [whole.mem_iff]
      exact ⟨fun both => ⟨both.1, both.2⟩, fun apart => ⟨apart.edges, apart.ends⟩⟩
  · exact oneRound_fails hasher partitions serve bound

end OneRound

/-! ### All rounds -/

/-- `hopRounds`, noting every frontier that one round hands to the next.  The
notes are added to what the loop returns and nothing reads them, so that without
them it is the loop of the source. -/
def ScatterGatherExecutor.hopRoundsNoted (executor : ScatterGatherExecutor)
    (partitions : PartitionMap) (step : ExpandHop) :
    (remaining depth : Nat) → (cursorAlias : String) →
      (current accepted : List Binding) →
      Exec (List (List Binding) × List Binding)
  | 0, _, _, _, accepted => pure ([], accepted)
  | remaining + 1, depth, cursorAlias, current, accepted =>
      if current = [] then pure ([], accepted)
      else do
        let next ← executor.oneRound partitions (roundStep step cursorAlias depth) current
        let later ← hopRoundsNoted executor partitions step remaining
            (depth + 1) step.toAlias next
          (if step.hops.min ≤ depth then appendUnseen bindingKey accepted next
            else accepted)
        pure ((if remaining = 0 then [] else [next]) ++ later.1, later.2)

/-- Without the notes it is the loop of the source. -/
theorem hopRoundsNoted_erased (executor : ScatterGatherExecutor)
    (partitions : PartitionMap) (step : ExpandHop) (remaining depth : Nat)
    (cursorAlias : String) (current accepted : List Binding) :
    Prod.snd <$> executor.hopRoundsNoted partitions step remaining depth cursorAlias
      current accepted =
      executor.hopRounds partitions step remaining depth cursorAlias current
        accepted := by
  induction remaining generalizing depth cursorAlias current accepted with
  | zero => rfl
  | succ remaining inductionHypothesis =>
      rw [ScatterGatherExecutor.hopRoundsNoted, ScatterGatherExecutor.hopRounds]
      split
      · rfl
      · simp only [map_bind, ← inductionHypothesis, bind_pure_comp, Functor.map_map]

section AllRounds

variable (hasher : Partitioning) (serving : PartitionId → Option IndexGeneration)
variable (step : ExpandHop)
variable (frontier : List Binding)

/-- The bindings before the round after `depth`, and how they go on. -/
def ApartAt (depth : Nat) : Prop :=
  Apart hasher serving (roundStep step (cursorAt step depth) (depth + 1)) fun b' =>
    ∃ b ∈ frontier, HopWalk (clusterView hasher serving) step depth b b'

/-- Before the last round, no two bindings of a round go on to the same binding,
and none goes on to one twice. -/
def StaysApart : Prop :=
  ∀ depth, depth + 1 < step.hops.max → ApartAt hasher serving step frontier depth

/-- What the notes of the rounds after `depth` say. -/
structure NotedFrom (depth : Nat) (current : List Binding)
    (handed : List (List Binding)) : Prop where
  last : step.hops.max ≤ depth → handed = []
  distinct : current.Nodup → ((∀ next ∈ handed, next.Nodup) ↔
    ∀ later, depth ≤ later → later + 1 < step.hops.max →
      ApartAt hasher serving step frontier later)
  walked : ∀ next ∈ handed, ∀ b' ∈ next, ∃ b ∈ frontier, ∃ length,
    HopWalk (clusterView hasher serving) step (length + 1) b b'

variable {hasher serving step frontier} {depth : Nat}
variable {current accepted next : List Binding}

/-- After the last round nothing is handed on. -/
theorem NotedFrom.finished (past : step.hops.max ≤ depth) :
    NotedFrom hasher serving step frontier depth current [] where
  last _ := rfl
  distinct _ := iff_of_true (by simp) fun later _ _ => by omega
  walked := by simp

/-- A round without bindings ends the walks. -/
theorem NotedFrom.exhausted
    (done : RoundsDone
      (clusterView hasher serving) step frontier depth current accepted)
    (empty : current = []) :
    NotedFrom hasher serving step frontier depth current [] where
  last _ := rfl
  distinct _ := by
    refine iff_of_true (by simp) fun later atLeast _ => ?_
    have nobody : ∀ b', ¬ ∃ b ∈ frontier,
        HopWalk (clusterView hasher serving) step later b b' := by
      rintro b' ⟨b, member, walk⟩
      rcases Nat.lt_or_eq_of_le atLeast with beyond | same
      · exact done.no_longer_walk empty member beyond walk
      · subst same
        have inCurrent := (done.current b').mpr ⟨b, member, walk⟩
        rw [empty] at inCurrent
        cases inCurrent
    constructor
    · exact fun b among => absurd among (nobody b)
    · exact fun a among => absurd among (nobody a)
  walked := by simp

/-- One round more. -/
theorem NotedFrom.round {remaining : Nat} {handed : List (List Binding)}
    (total : depth + (remaining + 1) = step.hops.max)
    (done : RoundsDone
      (clusterView hasher serving) step frontier depth current accepted)
    (advanced : ∀ b', b' ∈ next ↔ ∃ mid ∈ current, HopOnce (clusterView hasher
        serving) (roundStep step (cursorAt step depth) (depth + 1)) mid b')
    (apart : current.Nodup → (next.Nodup ↔ Apart hasher serving
        (roundStep step (cursorAt step depth) (depth + 1)) fun b => b ∈ current))
    (noted : NotedFrom hasher serving step frontier (depth + 1) next handed) :
    NotedFrom hasher serving step frontier depth current
      ((if remaining = 0 then [] else [next]) ++ handed) where
  last past := by omega
  distinct currentDistinct := by
    have among : (fun b => b ∈ current) = fun b' =>
        ∃ b ∈ frontier, HopWalk (clusterView hasher serving) step depth b b' :=
      funext fun b' => propext (done.current b')
    have here : next.Nodup ↔ ApartAt hasher serving step frontier depth := by
      rw [apart currentDistinct, among]
      rfl
    split
    case isTrue lastRound =>
        rw [noted.last (by omega)]
        exact iff_of_true (by simp) fun later _ _ => by omega
    case isFalse =>
        rw [List.singleton_append, List.forall_mem_cons, here]
        constructor
        · rintro ⟨now, rest⟩ later atLeast within
          rcases Nat.lt_or_eq_of_le atLeast with beyond | same
          · exact (noted.distinct (here.mpr now)).mp rest later beyond within
          · rw [← same]
            exact now
        · intro each
          have now := each depth le_rfl (by omega)
          exact ⟨now, (noted.distinct (here.mpr now)).mpr fun later atLeast =>
            each later (by omega)⟩
  walked later member := by
    rcases List.mem_append.mp member with isNext | isLater
    · split at isNext
      case isTrue => cases isNext
      case isFalse =>
          rw [List.mem_singleton.mp isNext]
          intro b' inNext
          obtain ⟨mid, inCurrent, once⟩ := (advanced b').mp inNext
          obtain ⟨b, inFrontier, walk⟩ := (done.current mid).mp inCurrent
          exact ⟨b, inFrontier, depth, mid, walk, once⟩
    · exact noted.walked later isLater

variable [Chrono] {partitions : PartitionMap} {serve : GenerationHandle → IndexGeneration}

theorem hopRoundsNoted_meets (remaining depth : Nat)
    (total : depth + remaining = step.hops.max) {current accepted : List Binding}
    (done : RoundsDone (clusterView hasher (servingOf partitions serve)) step
      frontier depth current accepted) :
    ((inProcess hasher).hopRoundsNoted partitions step remaining (depth + 1)
      (cursorAt step depth) current
      accepted).Meets serve
      (fun out => NotedFrom hasher
        (servingOf partitions serve) step frontier depth current out.1)
      (fun _ => ∃ b ∈ frontier, step.fromAlias ∉ b.nodes) := by
  induction remaining generalizing depth current accepted with
  | zero => exact Client.Meets.pure (.finished (by omega))
  | succ remaining inductionHypothesis =>
      rw [ScatterGatherExecutor.hopRoundsNoted]
      split
      case isTrue empty => exact Client.Meets.pure (.exhausted done empty)
      case isFalse =>
          have single :
              (roundStep step (cursorAt step depth) (depth + 1)).hops = ⟨1, 1⟩ :=
            rfl
          have round := (oneRound_meets hasher partitions serve single rfl current).and
            (oneRound_nodup partitions serve single rfl current)
          apply Client.Meets.bind (round.mono (fun _ post => post) fun _ => done.unbound)
          rintro next ⟨advanced, apart⟩
          apply Client.Meets.bind
            (inductionHypothesis (depth + 1) (by omega) (done.round advanced))
          intro later noted
          exact Client.Meets.pure (.round total done advanced apart noted)

/-! ### Distinct frontiers -/

/-- Whatever orders are met, every frontier handed on holds every binding once
and, without an edge alias, at most one for each binding of the input and each
node that an edge leads to.  The second part is what keeps a round from growing
with the number of walks. -/
def HandsOnDistinct (hasher : Partitioning) (partitions : PartitionMap)
    (serve : GenerationHandle → IndexGeneration) (step : ExpandHop)
    (frontier : List Binding) : Prop :=
  ∀ handed accepted, ((inProcess hasher).hopRoundsNoted partitions step step.hops.max
    1 step.fromAlias frontier
    []).Returns serve (.ok (handed, accepted)) → ∀ current ∈ handed, current.Nodup ∧
      (step.edgeAlias = none → ∀ nodes : List NodeId,
        (∀ u t e v, (clusterView hasher (servingOf partitions serve)).adjacent
          step.direction u t e v → v ∈ nodes) →
          current.length ≤ frontier.length * nodes.length)

omit [Chrono] in
/-- Distinct ends of walks are at most as many as starts and nodes allow. -/
theorem length_le_of_walked {V : GraphView} (unaliased : step.edgeAlias = none)
    {nodes : List NodeId}
    (complete : ∀ u t e v, V.adjacent step.direction u t e v → v ∈ nodes)
    (distinct : current.Nodup)
    (walked : ∀ b' ∈ current, ∃ b ∈ frontier, ∃ length,
      HopWalk V step (length + 1) b b') :
    current.length ≤ frontier.length * nodes.length := by
  have covered : current ⊆ (frontier ×ˢ nodes).map fun pair =>
      pair.1.bindNode step.toAlias pair.2 := by
    intro b' member
    obtain ⟨b, inFrontier, length, walk⟩ := walked b' member
    obtain ⟨u, v, -, ⟨w, -, t, e, adjacent, -⟩, rfl⟩ :=
      (hopWalk_unaliased_iff unaliased).mp walk
    exact List.mem_map.mpr
      ⟨(b, v), List.mem_product.mpr ⟨inFrontier, complete w t e v adjacent⟩, rfl⟩
  have fits := (List.subperm_of_subset distinct covered).length_le
  rwa [List.length_map, List.length_product] at fits

/-- A binding without its source fails the first round, so that nothing is
handed on. -/
theorem hopRoundsNoted_unbound (lacking : ∃ b ∈ frontier, step.fromAlias ∉ b.nodes)
    (remaining : Nat) :
    ((inProcess hasher).hopRoundsNoted partitions step remaining 1 step.fromAlias
      frontier []).Meets serve
      (fun out => out.1 = []) (fun _ => True) := by
  cases remaining with
  | zero => exact Client.Meets.pure rfl
  | succ remaining =>
      have fails : (inProcess hasher).oneRound partitions
          (roundStep step step.fromAlias 1) frontier =
          raise (.unknownAlias step.fromAlias) :=
            oneRound_unbound hasher partitions lacking
      obtain ⟨b, member, -⟩ := lacking
      rw [ScatterGatherExecutor.hopRoundsNoted, if_neg (List.ne_nil_of_mem member), fails]
      exact Client.Meets.fail trivial

/-- The loop with the notes is the loop of the source, and from distinct
bindings the frontiers that it hands on are free of duplicates if and only if
the walks stay apart, or the first round fails on a binding without its source.
Bindings that are the same on entry are not the loop's doing, so they are
excluded (`distinct`); what the partitions serve is arbitrary, and any of them
may be unreachable. -/
theorem handsOnDistinct_iff (distinct : frontier.Nodup) :
    (∀ remaining depth cursorAlias current accepted,
      Prod.snd <$> (inProcess hasher).hopRoundsNoted partitions step remaining depth
        cursorAlias current accepted =
        (inProcess hasher).hopRounds partitions step remaining depth cursorAlias
          current accepted) ∧
    (HandsOnDistinct hasher partitions serve step frontier ↔
      (∃ b ∈ frontier, step.fromAlias ∉ b.nodes) ∨
        StaysApart hasher (servingOf partitions serve) step frontier) := by
  refine ⟨hopRoundsNoted_erased (inProcess hasher) partitions step, ?_⟩
  have noted := hopRoundsNoted_meets step.hops.max 0 (by omega)
    (.start : RoundsDone
      (clusterView hasher (servingOf partitions serve)) step frontier 0 frontier [])
  constructor
  · intro handsOn
    by_cases lacking : ∃ b ∈ frontier, step.fromAlias ∉ b.nodes
    · exact .inl lacking
    · right
      obtain ⟨outcome, returns⟩ := Client.exists_returns serve
        ((inProcess hasher).hopRoundsNoted partitions step step.hops.max 1
          step.fromAlias frontier [])
      cases outcome with
      | error e => exact absurd (noted.error returns) lacking
      | ok out =>
          intro depth within
          apply ((noted.ok returns).distinct distinct).mp _ depth
            (Nat.zero_le depth) within
          exact fun current member => (handsOn out.1 out.2 returns current member).1
  · rintro (lacking | apart) handed accepted returns current member
    · have nothing : handed = [] :=
        (hopRoundsNoted_unbound lacking step.hops.max).ok returns
      rw [nothing] at member
      cases member
    · have found := noted.ok returns
      have once :=
        (found.distinct distinct).mpr (fun depth _ => apart depth) current member
      exact ⟨once, fun unaliased nodes complete =>
        length_le_of_walked unaliased complete once (found.walked current member)⟩

end AllRounds

/-! ### A diamond -/

section

open scoped Social

/-- Person 1 knows persons 2 and 3, and both know person 4: two walks of two
edges from the first to the last. -/
def diamond : Dataset :=
  { Social.dataset with
    nodeRows := fun label =>
      if label = Social.person then
        [{ id := ⟨1⟩, properties := Social.textual "name" "Ann" },
         { id := ⟨2⟩, properties := Social.textual "name" "Bob" },
         { id := ⟨3⟩, properties := Social.textual "name" "Cid" },
         { id := ⟨4⟩, properties := Social.textual "name" "Dan" }]
      else []
    edgeRows := fun edgeType =>
      if edgeType = Social.knows then
        [{ id := ⟨10⟩, src := ⟨1⟩, dst := ⟨2⟩, properties := ∅ },
         { id := ⟨11⟩, src := ⟨1⟩, dst := ⟨3⟩, properties := ∅ },
         { id := ⟨12⟩, src := ⟨2⟩, dst := ⟨4⟩, properties := ∅ },
         { id := ⟨13⟩, src := ⟨3⟩, dst := ⟨4⟩, properties := ∅ }]
      else [] }

/-- `(a)-[:KNOWS*1..max]->(b)`. -/
def knowsWithin (max : Nat) : ExpandHop :=
  { fromAlias := "a", toAlias := "b", toLabel := none, edgeType := some "KNOWS",
    direction := .outgoing
    hops := { min := 1, max := max }, filters := [], edgeAlias := none }

/-- Two rounds from one binding hand on distinct bindings. -/
theorem twoRounds_handsOnDistinct :
    HandsOnDistinct Social.byParity (deployment Social.byParity)
      (diamond.deployed Social.byParity) (knowsWithin 2)
      [Binding.fromNode "a" ⟨1⟩] := by
  apply (handsOnDistinct_iff (List.nodup_singleton _)).2.mpr
  right
  intro depth within
  obtain rfl : depth = 0 := by
    have upper : depth + 1 < 2 := within
    omega
  constructor
  · rintro b - u generation - - aliased
    cases aliased
  · rintro a ⟨b, listed, rfl⟩ a' ⟨b', listed', rfl⟩ different
    rw [List.mem_singleton.mp listed, List.mem_singleton.mp listed'] at different
    exact absurd rfl different

/-- The second round hands person 4 on twice, once from person 2 and once from
person 3. -/
theorem diamond_handsOnTwice :
    ((inProcess Social.single).hopRoundsNoted (deployment Social.single)
      (knowsWithin 3) 3 1 "a"
      [Binding.fromNode "a" ⟨1⟩] []).run
        (fun _ => diamond.deployed Social.single) Social.inOrder 0 =
        .ok ([[Social.pair 1 2, Social.pair 1 3], [Social.pair 1 4, Social.pair 1 4]],
          [Social.pair 1 2, Social.pair 1 3, Social.pair 1 4]) ∧
    ¬ HandsOnDistinct Social.single (deployment Social.single)
      (diamond.deployed Social.single) (knowsWithin 3)
      [Binding.fromNode "a" ⟨1⟩] := by
  have noted : ((inProcess Social.single).hopRoundsNoted (deployment Social.single)
      (knowsWithin 3) 3 1 "a"
      [Binding.fromNode "a" ⟨1⟩] []).run
        (fun _ => diamond.deployed Social.single) Social.inOrder 0 =
        .ok ([[Social.pair 1 2, Social.pair 1 3], [Social.pair 1 4, Social.pair 1 4]],
          [Social.pair 1 2, Social.pair 1 3, Social.pair 1 4]) := by decide +kernel
  refine ⟨noted, fun handsOn => ?_⟩
  have returns := Client.returns_run (diamond.deployed Social.single) Social.inOrder 0
    ((inProcess Social.single).hopRoundsNoted (deployment Social.single)
      (knowsWithin 3) 3 1 "a"
      [Binding.fromNode "a" ⟨1⟩] [])
  rw [noted] at returns
  have twice := (handsOn _ _ returns [Social.pair 1 4, Social.pair 1 4] (by decide)).1
  exact (List.nodup_cons.mp twice).1 List.mem_cons_self

end

end GraphEngine
