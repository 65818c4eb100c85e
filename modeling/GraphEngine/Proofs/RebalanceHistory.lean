/-
Module: GraphEngine.Proofs.RebalanceHistory
Layer: Proofs
Purpose: A cluster whose machines come and go while plans are still being
  carried out.  Every plan is made for what is left of the one before; whatever
  is cut off, no partition loses a replica, and the first plan carried out to
  its end puts the partitions where they belong.
Trusted boundary: whoever carries out the moves of a plan carries them out in
  their order
Main exports: Episode, rebalanced, KeepsReplicas, rebalance_history
-/
import GraphEngine.Proofs.Rebalance
import Mathlib.Algebra.Group.Action.Defs
import Mathlib.Algebra.Order.BigOperators.Group.List

namespace GraphEngine

/-! ### Exchanging replicas -/

section Exchange

variable {partition : PartitionId} {hosted : Finset String} {adds removes : List String}

/-- A move with a source exchanges one replica for another. -/
theorem card_rehost_of_source {move : PartitionMove} {source : String}
    (given : move.fromMachine = some source) (present : source ∈ hosted)
    (fresh : move.toMachine ∉ hosted) : (move.rehost hosted).card = hosted.card := by
  have erased : (hosted.filter fun m => move.fromMachine ≠ some m) =
      hosted.erase source := by
    ext m
    simp [given, Finset.mem_erase, and_comm, eq_comm]
  have outside : move.toMachine ∉ hosted.erase source :=
    fun member => fresh (Finset.mem_of_mem_erase member)
  rw [PartitionMove.rehost, erased, Finset.card_insert_of_notMem outside,
    Finset.card_erase_add_one present]

/-- As long as there is a removal for every addition, the number of machines
stays. -/
theorem Pairable.card_run (pairable : Pairable hosted adds removes)
    (balanced : adds.length ≤ removes.length) {done later : List PartitionMove}
    (split : pairMoves partition adds removes = done ++ later) :
    (done.foldl PartitionMove.rehost hosted).card = hosted.card := by
  induction adds generalizing hosted removes done with
  | nil =>
      have nothing : done = [] := (List.append_eq_nil_iff.mp split.symm).1
      rw [nothing]
      rfl
  | cons add adds inductionHypothesis =>
      cases done with
      | nil => rfl
      | cons move done =>
          cases removes with
          | nil => cases balanced
          | cons source removes =>
              rw [pairMoves, List.cons_append, List.cons.injEq] at split
              obtain ⟨rfl, split⟩ := split
              have rest := inductionHypothesis (@Pairable.step partition _ _ _ _ pairable)
                (Nat.le_of_succ_le_succ balanced) split
              rw [List.foldl_cons, rest]
              exact card_rehost_of_source rfl (pairable.present source List.mem_cons_self)
                (pairable.fresh add List.mem_cons_self)

/-- Moves bring in no machine but their destinations. -/
theorem mem_run_rehost {moves : List PartitionMove} {machine : String}
    (member : machine ∈ moves.foldl PartitionMove.rehost hosted) :
    machine ∈ hosted ∨ ∃ move ∈ moves, move.toMachine = machine := by
  induction moves generalizing hosted with
  | nil => exact .inl member
  | cons move moves inductionHypothesis =>
      rw [List.foldl_cons] at member
      rcases inductionHypothesis member with before | ⟨other, later, here⟩
      · rcases mem_rehost.mp before with here | ⟨kept, -⟩
        · exact .inr ⟨move, List.mem_cons_self, here.symm⟩
        · exact .inl kept
      · exact .inr ⟨other, List.mem_cons_of_mem _ later, here⟩

end Exchange

/-- On as many machines as there are targets, there are as many removals as
additions. -/
theorem length_additions_eq {target : List String} {current : PartitionMap}
    {partition : PartitionId} (distinct : target.Nodup)
    (size : (current.hosts partition).card = target.length) :
    (additions target current partition).length =
      (removals target current partition).length := by
  have pairable := @pairable_moves partition target current distinct
  have added : (additions target current partition).toFinset =
      target.toFinset \ current.hosts partition := by
    ext machine
    rw [List.mem_toFinset, mem_additions, Finset.mem_sdiff, List.mem_toFinset]
  have removed : (removals target current partition).toFinset =
      current.hosts partition \ target.toFinset := by
    ext machine
    rw [List.mem_toFinset, mem_removals, Finset.mem_sdiff, List.mem_toFinset]
  rw [← List.toFinset_card_of_nodup pairable.addsNodup,
    ← List.toFinset_card_of_nodup pairable.removesNodup, added, removed]
  apply Finset.card_sdiff_comm
  rw [List.toFinset_card_of_nodup distinct, size]

/-! ### Histories -/

/-- The machines that a plan is made for, and how many of its moves are carried
out before the next one is made. -/
structure Episode where
  machines : List String
  carriedOut : Nat
deriving DecidableEq, Repr

section Histories

variable (planner : RendezvousRebalancePlanner) (score : Score)
variable (address : String → String) (healthy : String → Bool)

/-- Make a plan and carry out as much of it as the episode allows. -/
def Episode.run (current : PartitionMap) (episode : Episode) : PartitionMap :=
  current.applyMoves address healthy
    ((planner.plan score current episode.machines).moves.take episode.carriedOut)

/-- The episode lasts until its plan is carried out. -/
def Episode.Complete (current : PartitionMap) (episode : Episode) : Prop :=
  (planner.plan score current episode.machines).moves.length ≤ episode.carriedOut

/-- The cluster after a history of episodes. -/
def rebalanced (current : PartitionMap) (episodes : List Episode) : PartitionMap :=
  episodes.foldl (Episode.run planner score address healthy) current

variable {planner score} {current : PartitionMap} {episode : Episode}

/-- The moves carried out for one partition are the first of those planned for
it. -/
theorem hosts_run (partition : PartitionId) : ∃ done later,
    (planner.plan score current episode.machines).moves.filter
      (fun move => move.partition = partition) =
        done ++ later ∧
      (episode.run planner score address healthy current).hosts partition =
        done.foldl PartitionMove.rehost (current.hosts partition) := by
  refine ⟨_, ((planner.plan score current episode.machines).moves.drop
      episode.carriedOut).filter
    (fun move => move.partition = partition), ?_,
      hosts_applyMoves address healthy current _ partition⟩
  rw [← List.filter_append, List.take_append_drop]

theorem card_hosts_le_run (distinct : episode.machines.Nodup)
    (partition : PartitionId) :
    (current.hosts partition).card ≤
      ((episode.run planner score address healthy current).hosts partition).card :=
  card_hosts_le_prefix distinct (List.take_append_drop _ _).symm address healthy partition

theorem known_of_run {partition : PartitionId} {machine : String}
    (member : machine ∈
      (episode.run planner score address healthy current).hosts partition) :
    machine ∈ current.hosts partition ∨ machine ∈ episode.machines := by
  obtain ⟨done, later, split, hosts⟩ :=
    @hosts_run planner score address healthy current episode partition
  rw [hosts] at member
  rcases mem_run_rehost member with before | ⟨move, inDone, rfl⟩
  · exact .inl before
  · have planned : move ∈ (planner.plan score current episode.machines).moves := by
      apply List.mem_of_mem_filter
      rw [split]
      exact List.mem_append_left _ inDone
    have target := mem_additions.mp (mem_pairMoves (mem_plan_moves planned).2).2.1
    exact .inr (targetMachines_subset target.1)

/-- Every partition of the planner has exactly the wanted number of replicas. -/
def FullyReplicated (planner : RendezvousRebalancePlanner) (current : PartitionMap) :
    Prop :=
  ∀ partition : PartitionId, partition.val < planner.nPartitions →
    (current.hosts partition).card = planner.replicationFactor

theorem length_targets
    (enough : planner.replicationFactor ≤ episode.machines.length)
    (partition : PartitionId) :
    (planner.targets score episode.machines partition).length =
      planner.replicationFactor := by
  rw [RendezvousRebalancePlanner.targets, length_targetMachines, min_eq_left enough]
  exact min_eq_left enough

/-- With enough machines an episode exchanges replicas one for one. -/
theorem fullyReplicated_run (distinct : episode.machines.Nodup)
    (enough : planner.replicationFactor ≤ episode.machines.length)
    (full : FullyReplicated planner current) :
    FullyReplicated planner (episode.run planner score address healthy current) := by
  intro partition planned
  obtain ⟨done, later, split, hosts⟩ :=
    @hosts_run planner score address healthy current episode partition
  have targetsDistinct := @targets_nodup planner score episode.machines distinct partition
  have balanced := length_additions_eq targetsDistinct
    ((full partition planned).trans (length_targets enough partition).symm)
  rw [plan_moves_of, if_pos planned, partitionMoves_eq] at split
  rw [hosts, (pairable_moves targetsDistinct).card_run balanced.le split]
  exact full partition planned

/-- A plan carried out to its end leaves the partitions exactly on their
targets. -/
theorem placed_of_complete (distinct : episode.machines.Nodup)
    (enough : planner.replicationFactor ≤ episode.machines.length)
    (full : FullyReplicated planner current)
    (complete : episode.Complete planner score current) :
    PlacedOnTargets planner score
      (episode.run planner score address healthy current) episode.machines := by
  intro partition planned machine
  have targetsDistinct := @targets_nodup planner score episode.machines distinct partition
  have counted :
      ((episode.run planner score address healthy current).hosts partition).card =
      planner.replicationFactor :=
    fullyReplicated_run address healthy distinct enough full partition planned
  have covered : (planner.targets score episode.machines partition).toFinset ⊆
      (episode.run planner score address healthy current).hosts partition := by
    intro wanted member
    rw [Episode.run, List.take_of_length_le complete]
    exact ((plan_converges planner score current distinct address healthy).placed
      partition planned).2.2 wanted
      (List.mem_toFinset.mp member)
  have same : (planner.targets score episode.machines partition).toFinset =
      (episode.run planner score address healthy current).hosts partition := by
    apply Finset.eq_of_subset_of_card_le covered
    rw [counted, List.toFinset_card_of_nodup targetsDistinct, length_targets enough]
  rw [← same, List.mem_toFinset]

/-- A plan has no more moves than there are replicas wanted. -/
theorem complete_of_le
    (long : planner.nPartitions * planner.replicationFactor ≤ episode.carriedOut) :
    episode.Complete planner score current := by
  have each (moves : Nat) (listed : moves ∈ (List.range planner.nPartitions).map fun i =>
      (partitionMoves ⟨i⟩ (planner.targets score episode.machines ⟨i⟩)
        (currentMachines current ⟨i⟩)).length) :
      moves ≤ planner.replicationFactor := by
    obtain ⟨i, -, rfl⟩ := List.mem_map.mp listed
    rw [partitionMoves_eq, length_pairMoves, additions, List.length_mergeSort]
    apply (List.length_filter_le _ _).trans
    rw [RendezvousRebalancePlanner.targets, length_targetMachines]
    exact (min_le_left _ _).trans (min_le_left _ _)
  have total := List.sum_le_card_nsmul _ _ each
  rw [List.length_map, List.length_range, smul_eq_mul] at total
  rw [Episode.Complete, plan_moves, List.length_flatMap]
  exact total.trans long

variable (planner score current) in
/-- What holds after every history: no replica was lost on the way, none lives
where no machine ever was, and with enough machines every partition keeps
exactly the wanted number, to end on its targets as soon as a plan is carried
out. -/
structure KeepsReplicas (episodes : List Episode) : Prop where
  neverFewer : ∀ earlier later, episodes = earlier ++ later → ∀ partition,
    ((rebalanced planner score address healthy current earlier).hosts partition).card ≤
      ((rebalanced planner score address healthy current episodes).hosts partition).card
  known : ∀ partition, ∀ machine ∈
    (rebalanced planner score address healthy current episodes).hosts partition,
    machine ∈ current.hosts partition ∨ ∃ episode ∈ episodes, machine ∈ episode.machines
  full : (∀ episode ∈ episodes, planner.replicationFactor ≤ episode.machines.length) →
    FullyReplicated planner current →
      FullyReplicated planner (rebalanced planner score address healthy current episodes)
  settles : (∀ episode ∈ episodes, planner.replicationFactor ≤ episode.machines.length) →
    FullyReplicated planner current → ∀ earlier last, episodes = earlier ++ [last] →
      last.Complete planner score
        (rebalanced planner score address healthy current earlier) →
        PlacedOnTargets planner score
          (rebalanced planner score address healthy current episodes) last.machines

theorem rebalanced_append (earlier later : List Episode) :
    rebalanced planner score address healthy current (earlier ++ later) =
      rebalanced planner score address healthy
        (rebalanced planner score address healthy current earlier) later :=
  List.foldl_append

theorem card_hosts_le_rebalanced {episodes : List Episode}
    (distinct : ∀ episode ∈ episodes, episode.machines.Nodup)
    (current : PartitionMap) (partition : PartitionId) :
    (current.hosts partition).card ≤
      ((rebalanced planner score address healthy current episodes).hosts
        partition).card := by
  induction episodes generalizing current with
  | nil => exact le_rfl
  | cons episode rest inductionHypothesis =>
      calc (current.hosts partition).card
          ≤ ((episode.run planner score address healthy current).hosts partition).card :=
            card_hosts_le_run address healthy
              (distinct episode List.mem_cons_self) partition
        _ ≤ _ := inductionHypothesis
          (fun other member => distinct other (List.mem_cons_of_mem _ member)) _

theorem known_of_rebalanced {episodes : List Episode} {partition : PartitionId}
    {machine : String}
    (member : machine ∈
      (rebalanced planner score address healthy current episodes).hosts partition) :
    machine ∈ current.hosts partition ∨ ∃ episode ∈ episodes,
      machine ∈ episode.machines := by
  induction episodes generalizing current with
  | nil => exact .inl member
  | cons episode rest inductionHypothesis =>
      rcases inductionHypothesis member with before | ⟨other, later, here⟩
      · rcases known_of_run address healthy before with start | here
        · exact .inl start
        · exact .inr ⟨episode, List.mem_cons_self, here⟩
      · exact .inr ⟨other, List.mem_cons_of_mem _ later, here⟩

theorem fullyReplicated_rebalanced {episodes : List Episode}
    (distinct : ∀ episode ∈ episodes, episode.machines.Nodup)
    (enough : ∀ episode ∈ episodes,
      planner.replicationFactor ≤ episode.machines.length)
    (full : FullyReplicated planner current) :
    FullyReplicated planner
      (rebalanced planner score address healthy current episodes) := by
  induction episodes generalizing current with
  | nil => exact full
  | cons episode rest inductionHypothesis =>
      apply inductionHypothesis
      · exact fun other member => distinct other (List.mem_cons_of_mem _ member)
      · exact fun other member => enough other (List.mem_cons_of_mem _ member)
      · exact fullyReplicated_run address healthy (distinct episode List.mem_cons_self)
          (enough episode List.mem_cons_self) full

/-- Machines may come and go at any moment, whatever is left of a plan.  A
partition never loses a replica; and if there are always enough machines it has
the wanted number of replicas at every moment, and the first plan that is
carried out to its end puts it on its targets, whatever happened before. -/
theorem rebalance_history (planner : RendezvousRebalancePlanner) (score : Score)
    (address : String → String) (healthy : String → Bool) (current : PartitionMap)
    {episodes : List Episode}
    (distinct : ∀ episode ∈ episodes, episode.machines.Nodup) :
    KeepsReplicas planner score address healthy current episodes where
  neverFewer := by
    intro earlier later split partition
    subst split
    rw [rebalanced_append]
    exact card_hosts_le_rebalanced address healthy
      (fun episode member =>
        distinct episode (List.mem_append_right _ member)) _ partition
  known := fun _ _ member => known_of_rebalanced address healthy member
  full :=
    fun enough full => fullyReplicated_rebalanced address healthy distinct enough full
  settles := by
    intro enough full earlier last split complete
    subst split
    have before : FullyReplicated planner
        (rebalanced planner score address healthy current earlier) :=
      fullyReplicated_rebalanced address healthy
        (fun episode member => distinct episode (List.mem_append_left _ member))
        (fun episode member => enough episode (List.mem_append_left _ member)) full
    rw [rebalanced_append]
    have isLast : last ∈ earlier ++ [last] := List.mem_append_right _ List.mem_cons_self
    exact placed_of_complete address healthy (distinct last isLast)
      (enough last isLast) before complete

end Histories

/-! ### A machine that comes and one that goes -/

section Example

/-- A third machine joins, and after one move the first one leaves. -/
def comingAndGoing : List Episode := [⟨["m0", "m1", "m2"], 1⟩, ⟨["m1", "m2"], 2⟩]

/-- Partitions that live on their targets are fully replicated. -/
theorem fullyReplicated_of_placed {planner : RendezvousRebalancePlanner}
    {score : Score} {current : PartitionMap} {machines : List String}
    (distinct : machines.Nodup)
    (enough : planner.replicationFactor ≤ machines.length)
    (placed : PlacedOnTargets planner score current machines) :
    FullyReplicated planner current := by
  intro partition planned
  have same : current.hosts partition =
      (planner.targets score machines partition).toFinset := by
    ext machine
    rw [placed partition planned, List.mem_toFinset]
  rw [same, List.toFinset_card_of_nodup (targets_nodup distinct partition),
    RendezvousRebalancePlanner.targets, length_targetMachines, min_eq_left enough]
  exact min_eq_left enough

theorem rebalance_comingAndGoing :
    KeepsReplicas ⟨2, 1⟩ (rendezvousScore byteHash) (fun _ => "127.0.0.1:7001")
      (fun _ => true) placedOnTwo
        comingAndGoing ∧
      PlacedOnTargets ⟨2, 1⟩ (rendezvousScore byteHash)
        (rebalanced ⟨2, 1⟩ (rendezvousScore byteHash) (fun _ => "127.0.0.1:7001")
          (fun _ => true) placedOnTwo
          comingAndGoing) ["m1", "m2"] := by
  have keeps : KeepsReplicas ⟨2, 1⟩ (rendezvousScore byteHash)
      (fun _ => "127.0.0.1:7001") (fun _ => true) placedOnTwo
      comingAndGoing := rebalance_history ⟨2, 1⟩
        (rendezvousScore byteHash) _ _ placedOnTwo (by decide)
  have placed : PlacedOnTargets ⟨2, 1⟩ (rendezvousScore byteHash) placedOnTwo
      ["m0", "m1"] :=
    placed_of_initial (by decide) _ _
  have full : FullyReplicated ⟨2, 1⟩ placedOnTwo :=
    fullyReplicated_of_placed (by decide) (by decide) placed
  refine ⟨keeps,
    keeps.settles (by decide) full [⟨["m0", "m1", "m2"], 1⟩] ⟨["m1", "m2"], 2⟩ rfl ?_⟩
  exact complete_of_le le_rfl

end Example

end GraphEngine
