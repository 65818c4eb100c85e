/-
Module: GraphEngine.Proofs.Rebalance
Layer: Proofs
Purpose: Carrying out a rebalance plan never leaves a partition with fewer
  replicas than it had, ends on the targets and leaves nothing to plan; a
  machine that joins or leaves moves only its own replicas.
Trusted boundary: none
Main exports: plan_converges, targetMachines_congr, plan_minimal
-/
import GraphEngine.Model.Rebalance
import Mathlib.Data.Finset.Card
import Mathlib.Data.Finset.Dedup
import Mathlib.Data.String.Basic

namespace GraphEngine

open Std (ExtTreeMap ExtTreeSet)

/-! ### Where a partition lives -/

/-- The machines that host a partition. -/
def PartitionMap.hosts (current : PartitionMap) (partition : PartitionId) :
    Finset String :=
  (((current.replicasByPartition[partition]?).getD []).map fun r =>
    r.replica.name).toFinset

theorem mem_currentMachines {current : PartitionMap} {partition : PartitionId}
    {machine : String} :
    machine ∈ currentMachines current partition ↔ machine ∈ current.hosts partition := by
  unfold currentMachines PartitionMap.hosts
  cases current.replicasByPartition[partition]? with
  | none => simp
  | some replicas => simp

/-- What one move does to the machines that host its partition. -/
def PartitionMove.rehost (hosted : Finset String) (move : PartitionMove) :
    Finset String :=
  insert move.toMachine (hosted.filter fun m => move.fromMachine ≠ some m)

theorem hosts_applyMove (address : String → String) (healthy : String → Bool)
    (current : PartitionMap) (move : PartitionMove) (partition : PartitionId) :
    (current.applyMove address healthy move).hosts partition =
      if move.partition = partition then move.rehost (current.hosts partition)
      else current.hosts partition := by
  unfold PartitionMap.hosts PartitionMap.applyMove
  by_cases same : move.partition = partition
  · subst same
    ext machine
    simp only [ExtTreeMap.getElem?_insert_self, Option.getD_some, if_true,
      PartitionMove.rehost]
    simp [bootstrapped]
    grind
  · simp [ExtTreeMap.getElem?_insert, same]

/-- The moves of other partitions leave a partition's machines alone. -/
theorem hosts_applyMoves (address : String → String) (healthy : String → Bool)
    (current : PartitionMap) (moves : List PartitionMove) (partition : PartitionId) :
    (current.applyMoves address healthy moves).hosts partition =
      (moves.filter fun move => move.partition = partition).foldl PartitionMove.rehost
        (current.hosts partition) := by
  induction moves generalizing current with
  | nil => rfl
  | cons move moves ih =>
      rw [PartitionMap.applyMoves, List.foldl_cons, ← PartitionMap.applyMoves, ih,
        hosts_applyMove]
      by_cases same : move.partition = partition
      · simp [same]
      · simp [same]

/-! ### Pairing additions with removals -/

section Pairing

variable {partition : PartitionId} {hosted : Finset String} {adds removes : List String}

/-- Additions that are not hosted yet and removals that are, each listed once. -/
structure Pairable (hosted : Finset String) (adds removes : List String) : Prop where
  addsNodup : adds.Nodup
  removesNodup : removes.Nodup
  fresh : ∀ m ∈ adds, m ∉ hosted
  present : ∀ m ∈ removes, m ∈ hosted

theorem mem_rehost {move : PartitionMove} {machine : String} :
    machine ∈ move.rehost hosted ↔
      machine = move.toMachine ∨
        (machine ∈ hosted ∧ move.fromMachine ≠ some machine) := by
  simp [PartitionMove.rehost]

/-- One paired move replaces a replica or adds one. -/
theorem card_le_rehost {move : PartitionMove} (fresh : move.toMachine ∉ hosted) :
    hosted.card ≤ (move.rehost hosted).card := by
  have outside : move.toMachine ∉ hosted.filter fun m => move.fromMachine ≠ some m := by
    simp [fresh]
  rw [PartitionMove.rehost, Finset.card_insert_of_notMem outside]
  cases source : move.fromMachine with
  | none => simp
  | some machine =>
      have erased : (hosted.filter fun m => some machine ≠ some m) =
          hosted.erase machine := by
        ext m
        simp [Finset.mem_erase, and_comm, eq_comm]
      rw [erased]
      exact Nat.le_add_of_sub_le Finset.pred_card_le_card_erase

/-- After the first paired move the rest is still paired. -/
theorem Pairable.step {add : String}
    (pairable : Pairable hosted (add :: adds) removes) :
    Pairable (PartitionMove.rehost hosted ⟨partition, removes.head?, add⟩) adds
      removes.tail where
  addsNodup := pairable.addsNodup.of_cons
  removesNodup := pairable.removesNodup.tail
  fresh m member hostedAfter := by
    rcases mem_rehost.mp hostedAfter with rfl | ⟨before, _⟩
    · exact (List.nodup_cons.mp pairable.addsNodup).1 member
    · exact pairable.fresh m (List.mem_cons_of_mem _ member) before
  present m member := by
    refine mem_rehost.mpr (.inr ⟨pairable.present m (List.mem_of_mem_tail member), ?_⟩)
    intro isHead
    cases removes with
    | nil => simp at isHead
    | cons first rest =>
        simp only [List.head?_cons, Option.some.injEq] at isHead
        subst isHead
        exact (List.nodup_cons.mp pairable.removesNodup).1 member

/-- No prefix of the paired moves leaves fewer machines than there were. -/
theorem Pairable.card_le_run (pairable : Pairable hosted adds removes)
    {done later : List PartitionMove}
    (split : pairMoves partition adds removes = done ++ later) :
    hosted.card ≤ (done.foldl PartitionMove.rehost hosted).card := by
  induction adds generalizing hosted removes done with
  | nil =>
      have nothing : done = [] := (List.append_eq_nil_iff.mp split.symm).1
      simp [nothing]
  | cons add adds ih =>
      cases done with
      | nil => exact le_rfl
      | cons move done =>
          simp only [pairMoves, List.cons_append, List.cons.injEq] at split
          obtain ⟨rfl, split⟩ := split
          calc hosted.card
              ≤ (PartitionMove.rehost hosted ⟨partition, removes.head?, add⟩).card :=
                card_le_rehost (pairable.fresh add List.mem_cons_self)
            _ ≤ _ := ih pairable.step split

/-- The machines after all paired moves: the additions, and whatever was not
torn down. -/
theorem Pairable.mem_run (pairable : Pairable hosted adds removes) {machine : String} :
    machine ∈ (pairMoves partition adds removes).foldl PartitionMove.rehost hosted ↔
      machine ∈ adds ∨ (machine ∈ hosted ∧ machine ∉ removes.take adds.length) := by
  induction adds generalizing hosted removes with
  | nil => simp [pairMoves]
  | cons add adds ih =>
      have afterwards := ih (@Pairable.step partition _ _ _ _ pairable)
      rw [pairMoves, List.foldl_cons, afterwards, mem_rehost]
      have keptAdd : add ∉ removes.tail.take adds.length := fun torn =>
        pairable.fresh add List.mem_cons_self
          (pairable.present add (List.mem_of_mem_tail (List.mem_of_mem_take torn)))
      cases removes with
      | nil => simp [or_assoc, or_left_comm]
      | cons first rest =>
          simp only [List.tail_cons] at keptAdd
          simp only [List.head?_cons, List.tail_cons, List.length_cons,
            List.take_succ_cons, List.mem_cons, ne_eq, Option.some.injEq]
          grind

theorem mem_pairMoves {move : PartitionMove}
    (member : move ∈ pairMoves partition adds removes) :
    move.partition = partition ∧ move.toMachine ∈ adds ∧
      ∀ machine, move.fromMachine = some machine → machine ∈ removes := by
  induction adds generalizing removes with
  | nil => simp [pairMoves] at member
  | cons add adds ih =>
      rcases List.mem_cons.mp member with rfl | later
      · exact ⟨rfl, List.mem_cons_self, fun machine isHead =>
          List.mem_of_mem_head? isHead⟩
      · obtain ⟨here, listed, source⟩ := ih later
        exact ⟨here, List.mem_cons_of_mem _ listed,
          fun machine given => List.mem_of_mem_tail (source machine given)⟩

@[simp] theorem length_pairMoves :
    (pairMoves partition adds removes).length = adds.length := by
  induction adds generalizing removes with
  | nil => rfl
  | cons add adds ih => simp [pairMoves, ih]

/-- Removals are used in order, each at most once. -/
theorem filterMap_pairMoves :
    (pairMoves partition adds removes).filterMap PartitionMove.fromMachine =
      removes.take adds.length := by
  induction adds generalizing removes with
  | nil => simp [pairMoves]
  | cons add adds ih =>
      cases removes with
      | nil => simp [pairMoves, ih]
      | cons first rest => simp [pairMoves, ih]

end Pairing

/-! ### The moves of one partition -/

section OnePartition

variable {partition : PartitionId} {target : List String} {current : PartitionMap}

/-- The planner's additions, in the order it takes them. -/
def additions (target : List String) (current : PartitionMap)
    (partition : PartitionId) : List String :=
  (target.filter fun m =>
    !(currentMachines current partition).contains m).mergeSort (· ≤ ·)

/-- The planner's removals, in the order it takes them. -/
def removals (target : List String) (current : PartitionMap)
    (partition : PartitionId) : List String :=
  ((currentMachines current partition).toList.filter fun m =>
    !target.contains m).mergeSort (· ≤ ·)

theorem partitionMoves_eq :
    partitionMoves partition target (currentMachines current partition) =
      pairMoves partition (additions target current partition)
        (removals target current partition) :=
  rfl

theorem mem_additions {machine : String} :
    machine ∈ additions target current partition ↔
      machine ∈ target ∧ machine ∉ current.hosts partition := by
  simp only [additions, List.mem_mergeSort, List.mem_filter, Bool.not_eq_true',
    ← mem_currentMachines, ExtTreeSet.mem_iff_contains, Bool.not_eq_true]

theorem mem_removals {machine : String} :
    machine ∈ removals target current partition ↔
      machine ∈ current.hosts partition ∧ machine ∉ target := by
  simp [removals, mem_currentMachines]

theorem pairable_moves (distinct : target.Nodup) :
    Pairable (current.hosts partition) (additions target current partition)
      (removals target current partition) where
  addsNodup := (List.mergeSort_perm _ _).nodup_iff.mpr (distinct.filter _)
  removesNodup := by
    refine (List.mergeSort_perm _ _).nodup_iff.mpr (List.Nodup.filter _ ?_)
    have apart := (currentMachines current partition).distinct_toList
    exact apart.imp fun different same => different (by simp [same])
  fresh _ member := (mem_additions.mp member).2
  present _ member := (mem_removals.mp member).1

/-- Afterwards the partition is hosted on all its targets. -/
theorem target_hosted (distinct : target.Nodup) {machine : String}
    (wanted : machine ∈ target) :
    machine ∈ (partitionMoves partition target (currentMachines current partition)).foldl
      PartitionMove.rehost (current.hosts partition) := by
  rw [partitionMoves_eq, (pairable_moves distinct).mem_run]
  by_cases before : machine ∈ current.hosts partition
  · refine .inr ⟨before, fun torn => ?_⟩
    exact (mem_removals.mp (List.mem_of_mem_take torn)).2 wanted
  · exact .inl (mem_additions.mpr ⟨wanted, before⟩)

/-- A partition hosted on all its targets needs no move. -/
theorem partitionMoves_of_hosted (placed : ∀ m ∈ target, m ∈ current.hosts partition) :
    partitionMoves partition target (currentMachines current partition) = [] := by
  have nothing : additions target current partition = [] := by
    refine List.eq_nil_iff_forall_not_mem.mpr fun machine member => ?_
    obtain ⟨wanted, missing⟩ := mem_additions.mp member
    exact missing (placed machine wanted)
  rw [partitionMoves_eq, nothing]
  rfl

end OnePartition

/-! ### Targets -/

section Targets

variable {score : Score} {partition : PartitionId} {machines machines' : List String}
variable {k : Nat}

/-- Ties on the score are broken by name, so no two machines share a place. -/
theorem outranks_ranking : Ranking outranks where
  trans a b c := by
    simp only [outranks, Bool.or_eq_true, Bool.and_eq_true, decide_eq_true_eq]
    rintro (above | ⟨tied, named⟩) (above' | ⟨tied', named'⟩)
    · exact .inl (UInt64.lt_trans above' above)
    · exact .inl (tied' ▸ above)
    · exact .inl (tied ▸ above')
    · exact .inr ⟨tied.trans tied', named.trans named'⟩
  total a b := by
    simp only [outranks, Bool.or_eq_true, Bool.and_eq_true, decide_eq_true_eq]
    by_cases tied : a.1 = b.1
    · rcases le_total a.2 b.2 with named | named
      · exact .inl (.inr ⟨tied, named⟩)
      · exact .inr (.inr ⟨tied.symm, named⟩)
    · rcases UInt64.lt_or_lt_of_ne tied with below | above
      · exact .inr (.inl below)
      · exact .inl (.inl above)
  antisymm a b := by
    simp only [outranks, Bool.or_eq_true, Bool.and_eq_true, decide_eq_true_eq]
    rintro (above | ⟨tied, named⟩) (above' | ⟨tied', named'⟩)
    · exact absurd above' (UInt64.lt_asymm above)
    · exact absurd tied' (UInt64.ne_of_lt above)
    · exact absurd tied (UInt64.ne_of_lt above')
    · exact Prod.ext tied (named.antisymm named')

theorem targetMachines_subset {machine : String}
    (member : machine ∈ targetMachines score partition machines k) :
    machine ∈ machines := by
  obtain ⟨scored, chosen, rfl⟩ := List.mem_map.mp member
  obtain ⟨m, listed, rfl⟩ := List.mem_map.mp (mem_of_mem_topRanked chosen)
  exact listed

@[simp] theorem length_targetMachines :
    (targetMachines score partition machines k).length = min k machines.length := by
  rw [targetMachines, List.length_map, length_topRanked, List.length_map]

theorem targetMachines_nodup (distinct : machines.Nodup) :
    (targetMachines score partition machines k).Nodup := by
  refine List.Nodup.map_on ?_
    (topRanked_nodup (distinct.map fun a b same => (Prod.mk.inj same).2))
  intro a chosen b chosen' same
  obtain ⟨m, _, rfl⟩ := List.mem_map.mp (mem_of_mem_topRanked chosen)
  obtain ⟨m', _, rfl⟩ := List.mem_map.mp (mem_of_mem_topRanked chosen')
  cases same
  rfl

/-- Clamping the replication factor to the number of machines changes no
target. -/
theorem targetMachines_clamped :
    targetMachines score partition machines (min k machines.length) =
      targetMachines score partition machines k := by
  have clamped :=
    @topRanked_min_length _ outranks k (machines.map fun m => (score partition m, m))
  rw [List.length_map] at clamped
  rw [targetMachines, targetMachines, clamped]

/-- The targets do not depend on the order in which the machines are listed. -/
theorem targetMachines_congr (perm : machines.Perm machines') :
    targetMachines score partition machines k =
      targetMachines score partition machines' k := by
  rw [targetMachines, targetMachines, topRanked_congr outranks_ranking (perm.map _)]

/-- One more machine changes a partition's targets by entering them, and then
displaces one at most. -/
theorem targetMachines_insert {newcomer : String}
    (perm : machines'.Perm (newcomer :: machines)) :
    targetMachines score partition machines' k =
      targetMachines score partition machines k ∨
      ∃ front back displaced,
        targetMachines score partition machines' k = front ++ newcomer :: back ∧
        targetMachines score partition machines k = front ++ back ++ displaced ∧
          displaced.length ≤ 1 := by
  have scored := perm.map fun m => (score partition m, m)
  rw [List.map_cons] at scored
  rcases @topRanked_insert _ _ k _ _ outranks_ranking _ scored with
    same | ⟨front, back, displaced, entered, before, one⟩
  · exact .inl (by rw [targetMachines, targetMachines, same])
  · refine .inr
      ⟨front.map Prod.snd, back.map Prod.snd, displaced.map Prod.snd, ?_, ?_, ?_⟩
    · simp [targetMachines, entered]
    · simp [targetMachines, before]
    · simpa using one

end Targets

/-! ### Whole plans -/

section Plans

variable {planner : RendezvousRebalancePlanner} {score : Score} {current : PartitionMap}
  {machines : List String}

/-- The machines that the planner wants a partition on. -/
def RendezvousRebalancePlanner.targets (planner : RendezvousRebalancePlanner)
    (score : Score) (machines : List String) (partition : PartitionId) :
    List String :=
  targetMachines score partition machines (min planner.replicationFactor machines.length)

theorem targets_nodup (distinct : machines.Nodup) (partition : PartitionId) :
    (planner.targets score machines partition).Nodup :=
  targetMachines_nodup distinct

theorem plan_moves :
    (planner.plan score current machines).moves =
      (List.range planner.nPartitions).flatMap fun i =>
        partitionMoves ⟨i⟩ (planner.targets score machines ⟨i⟩)
          (currentMachines current ⟨i⟩) := by
  unfold RendezvousRebalancePlanner.plan
  split
  · rename_i empty
    rw [List.isEmpty_iff] at empty
    subst empty
    simp [RendezvousRebalancePlanner.targets, targetMachines, topRanked,
      partitionMoves, pairMoves]
  · rfl

/-- Only the entry of one index survives a filter for it. -/
theorem flatMap_range_single {α : Type*} (f : Nat → List α) (keep : α → Bool)
    (n index : Nat) (here : ∀ a ∈ f index, keep a)
    (elsewhere : ∀ i, i ≠ index → ∀ a ∈ f i, ¬ keep a) :
    ((List.range n).flatMap f).filter keep = if index < n then f index else [] := by
  induction n with
  | zero => simp
  | succ n ih =>
      rw [List.range_succ, List.flatMap_append, List.filter_append, ih]
      rcases eq_or_ne n index with rfl | other
      · simp [List.filter_eq_self.mpr here]
      · have gone : (f n).filter keep = [] :=
          List.filter_eq_nil_iff.mpr (elsewhere n other)
        simp only [List.flatMap_cons, List.flatMap_nil, List.append_nil, gone]
        have ahead : index < n ↔ index < n + 1 := by omega
        simp only [ahead]

/-- The plan's moves for one partition. -/
theorem plan_moves_of (partition : PartitionId) :
    ((planner.plan score current machines).moves.filter fun move =>
      move.partition = partition) =
      if partition.val < planner.nPartitions then
        partitionMoves partition (planner.targets score machines partition)
          (currentMachines current partition)
      else [] := by
  rw [plan_moves]
  refine flatMap_range_single _ _ _ _ (fun move member => ?_)
    fun i other move member => ?_
  · exact decide_eq_true (mem_pairMoves member).1
  · rw [decide_eq_true_eq, (mem_pairMoves member).1]
    exact fun same => other (congrArg PartitionId.val same)

theorem mem_plan_moves {move : PartitionMove}
    (member : move ∈ (planner.plan score current machines).moves) :
    move.partition.val < planner.nPartitions ∧
      move ∈ partitionMoves move.partition (planner.targets score machines move.partition)
        (currentMachines current move.partition) := by
  have kept : move ∈ (planner.plan score current machines).moves.filter fun other =>
      other.partition = move.partition := List.mem_filter.mpr ⟨member, by simp⟩
  rw [plan_moves_of] at kept
  split at kept
  · exact ⟨‹_›, kept⟩
  · cases kept

variable (planner score current machines) in
/-- What carrying out a plan guarantees at every moment and at its end.  No
partition ever has fewer replicas than before; only replicas off the targets are
given up, each once; replicas go to targets that have none; at the end all
targets are placed, as many as are asked for or there are; and planning again
moves nothing. -/
structure ConvergesSafely (address : String → String) (healthy : String → Bool) :
    Prop where
  neverFewer : ∀ done later, (planner.plan score current machines).moves = done ++ later →
    ∀ partition, (current.hosts partition).card ≤
      ((current.applyMoves address healthy done).hosts partition).card
  sources : ∀ move ∈ (planner.plan score current machines).moves,
    ∀ machine, move.fromMachine = some machine →
      machine ∈ current.hosts move.partition ∧
        machine ∉ planner.targets score machines move.partition
  sourcesOnce : ∀ partition,
    (((planner.plan score current machines).moves.filter fun move =>
      move.partition = partition).filterMap PartitionMove.fromMachine).Nodup
  destinations : ∀ move ∈ (planner.plan score current machines).moves,
    move.toMachine ∈ planner.targets score machines move.partition ∧
      move.toMachine ∉ current.hosts move.partition
  placed : ∀ partition, partition.val < planner.nPartitions →
    (planner.targets score machines partition).Nodup ∧
      (planner.targets score machines partition).length =
        min planner.replicationFactor machines.length ∧
      ∀ machine ∈ planner.targets score machines partition,
        machine ∈ (current.applyMoves address healthy
          (planner.plan score current machines).moves).hosts partition
  settled : (planner.plan score (current.applyMoves address healthy
    (planner.plan score current machines).moves) machines).moves = []

theorem card_hosts_le_prefix (distinct : machines.Nodup)
    {done later : List PartitionMove}
    (split : (planner.plan score current machines).moves = done ++ later)
    (address : String → String) (healthy : String → Bool) (partition : PartitionId) :
    (current.hosts partition).card ≤
      ((current.applyMoves address healthy done).hosts partition).card := by
  have own := @plan_moves_of planner score current machines partition
  rw [split, List.filter_append] at own
  rw [hosts_applyMoves]
  split at own
  · rw [partitionMoves_eq] at own
    exact (pairable_moves (targets_nodup distinct partition)).card_le_run own.symm
  · rw [(List.append_eq_nil_iff.mp own).1]
    exact le_rfl

/-- The machines of a partition after the whole plan. -/
theorem hosts_after_plan (address : String → String) (healthy : String → Bool)
    {partition : PartitionId} (planned : partition.val < planner.nPartitions) :
    (current.applyMoves address healthy
      (planner.plan score current machines).moves).hosts partition =
      (partitionMoves partition (planner.targets score machines partition)
        (currentMachines current partition)).foldl PartitionMove.rehost
          (current.hosts partition) := by
  rw [hosts_applyMoves, plan_moves_of, if_pos planned]

/-- Targets that are all hosted leave nothing to plan. -/
theorem plan_moves_eq_nil
    (placed : ∀ partition : PartitionId, partition.val < planner.nPartitions →
      ∀ machine ∈ planner.targets score machines partition,
      machine ∈ current.hosts partition) :
    (planner.plan score current machines).moves = [] := by
  rw [plan_moves, List.flatMap_eq_nil_iff]
  intro i within
  exact partitionMoves_of_hosted (placed ⟨i⟩ (List.mem_range.mp within))

/-- Every plan is safe to carry out move by move, and one is enough.  The
machines are listed once each (`distinct`); the current placement is arbitrary,
also one with too few or too many replicas or with machines that are gone. -/
theorem plan_converges (planner : RendezvousRebalancePlanner) (score : Score)
    (current : PartitionMap) {machines : List String} (distinct : machines.Nodup)
    (address : String → String) (healthy : String → Bool) :
    ConvergesSafely planner score current machines address healthy := by
  have distinctTargets := @targets_nodup planner score machines distinct
  have hosted : ∀ partition : PartitionId, partition.val < planner.nPartitions →
      ∀ machine ∈ planner.targets score machines partition,
        machine ∈ (current.applyMoves address healthy
          (planner.plan score current machines).moves).hosts partition := by
    intro partition planned machine wanted
    rw [hosts_after_plan address healthy planned]
    exact target_hosted (distinctTargets partition) wanted
  refine
    { neverFewer := fun done later split partition =>
        card_hosts_le_prefix distinct split address healthy partition
      sources := ?_
      sourcesOnce := ?_
      destinations := ?_
      placed := fun partition planned =>
        ⟨distinctTargets partition, ?_, hosted partition planned⟩
      settled := plan_moves_eq_nil hosted }
  · intro move member machine source
    exact mem_removals.mp ((mem_pairMoves (mem_plan_moves member).2).2.2 machine source)
  · intro partition
    rw [plan_moves_of]
    split
    · rw [partitionMoves_eq, filterMap_pairMoves]
      exact (pairable_moves (distinctTargets partition)).removesNodup.sublist
        (List.take_sublist _ _)
    · exact List.nodup_nil
  · intro move member
    exact mem_additions.mp (mem_pairMoves (mem_plan_moves member).2).2.1
  · simp [RendezvousRebalancePlanner.targets]

/-! ### Machines joining and leaving -/

variable (planner score current machines) in
/-- Every partition lives exactly on its targets. -/
def PlacedOnTargets : Prop :=
  ∀ partition : PartitionId, partition.val < planner.nPartitions →
    ∀ machine, machine ∈ current.hosts partition ↔
      machine ∈ planner.targets score machines partition

theorem targets_eq (partition : PartitionId) :
    planner.targets score machines partition =
      targetMachines score partition machines planner.replicationFactor :=
  targetMachines_clamped

variable {smaller larger : List String} {machine : String}

/-- The first plan of an empty cluster places every partition exactly on its
targets. -/
theorem placed_of_initial (distinct : machines.Nodup) (address : String → String)
    (healthy : String → Bool) :
    PlacedOnTargets planner score
      ((⟨∅⟩ : PartitionMap).applyMoves address healthy
        (planner.plan score ⟨∅⟩ machines).moves) machines := by
  intro partition planned machine
  have nobody : machine ∉ (⟨∅⟩ : PartitionMap).hosts partition := by
    simp [PartitionMap.hosts]
  rw [hosts_after_plan address healthy planned, partitionMoves_eq,
    (pairable_moves (targets_nodup distinct partition)).mem_run, mem_additions]
  simp [nobody]

/-- A machine joining gives a partition at most one new target, itself. -/
theorem additions_of_joined (perm : larger.Perm (machine :: machines))
    {partition : PartitionId}
    (placed : PlacedOnTargets planner score current machines)
    (planned : partition.val < planner.nPartitions) {added : String}
    (member : added ∈
      additions (planner.targets score larger partition) current partition) :
    added = machine := by
  obtain ⟨wanted, missing⟩ := mem_additions.mp member
  rw [placed partition planned, targets_eq] at missing
  rw [targets_eq] at wanted
  rcases @targetMachines_insert score partition _ _ planner.replicationFactor _ perm with
    same | ⟨front, back, displaced, entered, before, -⟩
  · exact absurd (same ▸ wanted) missing
  · rw [entered] at wanted
    rw [before] at missing
    simp only [List.mem_append, List.mem_cons] at wanted missing
    tauto

/-- A machine leaving either changes no target of a partition, or is the one
replica to tear down there and one machine takes its place. -/
theorem replacement_of_left (distinct : machines.Nodup)
    (perm : machines.Perm (machine :: smaller)) {partition : PartitionId}
    (placed : PlacedOnTargets planner score current machines)
    (planned : partition.val < planner.nPartitions) :
    additions (planner.targets score smaller partition) current partition = [] ∨
      (additions (planner.targets score smaller partition) current partition).length ≤ 1 ∧
        removals (planner.targets score smaller partition) current partition =
          [machine] := by
  have hosted : ∀ other, other ∈ current.hosts partition ↔
      other ∈ targetMachines score partition machines planner.replicationFactor := by
    intro other
    rw [← targets_eq]
    exact placed partition planned other
  have distinctSmaller : (machine :: smaller).Nodup := perm.nodup_iff.mp distinct
  rw [targets_eq]
  rcases @targetMachines_insert score partition _ _ planner.replicationFactor _ perm with
    same | ⟨front, back, displaced, before, after, one⟩
  · left
    refine List.eq_nil_iff_forall_not_mem.mpr fun other member => ?_
    obtain ⟨wanted, missing⟩ := mem_additions.mp member
    exact missing ((hosted other).mpr (same ▸ wanted))
  · right
    have gone :
        machine ∉ targetMachines score partition smaller planner.replicationFactor :=
      fun member => (List.nodup_cons.mp distinctSmaller).1 (targetMachines_subset member)
    rw [after] at gone ⊢
    constructor
    · -- whoever shared the targets with the leaving machine is hosted already
      have fresh :
          additions (front ++ back ++ displaced) current partition ⊆ displaced := by
        intro other member
        obtain ⟨wanted, missing⟩ := mem_additions.mp member
        rw [hosted, before] at missing
        simp only [List.mem_append, List.mem_cons] at wanted missing
        tauto
      have distinctAfter :=
        @targetMachines_nodup score partition _ planner.replicationFactor
        (List.nodup_cons.mp distinctSmaller).2
      rw [after] at distinctAfter
      have nodup := (@pairable_moves partition _ current distinctAfter).addsNodup
      exact (nodup.subperm fresh).length_le.trans one
    · have nodup := (@pairable_moves partition _ current (after ▸ targetMachines_nodup
        (List.nodup_cons.mp distinctSmaller).2)).removesNodup
      refine List.perm_singleton.mp
        ((List.perm_ext_iff_of_nodup nodup (List.nodup_singleton _)).mpr ?_)
      intro other
      rw [mem_removals, hosted, before, List.mem_singleton]
      simp only [List.mem_append, List.mem_cons] at gone ⊢
      constructor
      · tauto
      · rintro rfl
        exact ⟨.inr (.inl rfl), gone⟩

/-- A machine joining receives every move, and at most one from each partition. -/
theorem moves_of_joined (perm : larger.Perm (machine :: machines))
    (distinct : larger.Nodup)
    (placed : PlacedOnTargets planner score current machines) :
    (∀ move ∈ (planner.plan score current larger).moves, move.toMachine = machine) ∧
      ∀ partition, ((planner.plan score current larger).moves.filter fun move =>
        move.partition = partition).length ≤ 1 := by
  constructor
  · intro move member
    obtain ⟨planned, own⟩ := mem_plan_moves member
    exact additions_of_joined perm placed planned (mem_pairMoves own).2.1
  · intro partition
    rw [plan_moves_of]
    split
    · rename_i planned
      rw [partitionMoves_eq, length_pairMoves]
      have single : additions
          (planner.targets score larger partition) current partition ⊆ [machine] :=
        fun added member =>
          List.mem_singleton.mpr (additions_of_joined perm placed planned member)
      have nodup := (@pairable_moves partition _ current
        (@targets_nodup planner score larger distinct partition)).addsNodup
      exact (nodup.subperm single).length_le
    · exact Nat.zero_le 1

/-- A machine leaving is the source of every move, and only of partitions it
hosted. -/
theorem moves_of_left (distinct : machines.Nodup)
    (perm : machines.Perm (machine :: smaller))
    (placed : PlacedOnTargets planner score current machines) :
    ∀ move ∈ (planner.plan score current smaller).moves,
      move.fromMachine = some machine ∧ machine ∈ current.hosts move.partition := by
  intro move member
  obtain ⟨planned, own⟩ := mem_plan_moves member
  rw [partitionMoves_eq] at own
  rcases replacement_of_left distinct perm placed planned with none | ⟨one, removed⟩
  · rw [none] at own
    cases own
  · have hosted : machine ∈ current.hosts move.partition :=
      (mem_removals.mp (removed ▸ List.mem_singleton_self machine)).1
    rw [removed] at own
    refine ⟨?_, hosted⟩
    cases added : additions
      (planner.targets score smaller move.partition) current move.partition with
    | nil =>
        rw [added] at own
        cases own
    | cons first rest =>
        rw [added, List.length_cons] at one
        obtain rfl : rest = [] := List.eq_nil_of_length_eq_zero (by omega)
        rw [added, pairMoves, pairMoves, List.mem_singleton] at own
        rw [own]
        rfl

/-- Minimal disruption: the targets do not depend on how the machines are
listed, a joining machine is the destination of every move, a leaving one the
source.

The last two parts are about a placement on the targets of the machines so far
(`PlacedOnTargets`), to which one machine is added, or from which one is taken
away; the scores are arbitrary. -/
theorem plan_minimal (planner : RendezvousRebalancePlanner) (score : Score)
    {machines : List String} (distinct : machines.Nodup) :
    (∀ machines', machines'.Perm machines → ∀ partition replicationFactor,
      targetMachines score partition machines' replicationFactor =
        targetMachines score partition machines replicationFactor) ∧
    (∀ current machine larger, machine ∉ machines → larger.Perm (machine :: machines) →
      PlacedOnTargets planner score current machines →
      (∀ move ∈ (planner.plan score current larger).moves, move.toMachine = machine) ∧
        ∀ partition, ((planner.plan score current larger).moves.filter fun move =>
          move.partition = partition).length ≤ 1) ∧
    (∀ current machine smaller, machines.Perm (machine :: smaller) →
      PlacedOnTargets planner score current machines →
      (∀ move ∈ (planner.plan score current smaller).moves,
        move.fromMachine = some machine) ∧
        ∀ partition, machine ∉ current.hosts partition →
          ∀ move ∈ (planner.plan score current smaller).moves,
            move.partition ≠ partition) := by
  refine ⟨fun machines' perm _ _ => targetMachines_congr perm, ?_, ?_⟩
  · intro current machine larger new perm placed
    exact moves_of_joined perm (perm.nodup_iff.mpr (distinct.cons new)) placed
  · intro current machine smaller perm placed
    have left := moves_of_left distinct perm placed
    refine ⟨fun move member => (left move member).1,
      fun partition stranger move member here => ?_⟩
    exact stranger (here ▸ (left move member).2)

end Plans

/-! ### Three machines -/

section Example

/-- A polynomial hash of a byte string. -/
def byteHash (bytes : List UInt8) : UInt64 :=
  bytes.foldl (fun hash byte => 31 * hash + byte.toUInt64) 7

theorem plan_converges_initial :
    ConvergesSafely ⟨12, 2⟩ (rendezvousScore byteHash) ⟨∅⟩ ["m0", "m1", "m2"]
      (fun _ => "127.0.0.1:7001")
      (fun _ => true) :=
  plan_converges ⟨12, 2⟩ (rendezvousScore byteHash) ⟨∅⟩ (by decide) _ _

/-- Two partitions placed on one machine each. -/
def placedOnTwo : PartitionMap :=
  (⟨∅⟩ : PartitionMap).applyMoves (fun _ => "127.0.0.1:7001") (fun _ => true)
    ((⟨2, 1⟩ : RendezvousRebalancePlanner).plan (rendezvousScore byteHash) ⟨∅⟩
      ["m0", "m1"]).moves

theorem plan_minimal_third : ["m0", "m1"].Nodup ∧
    ∀ move ∈ ((⟨2, 1⟩ : RendezvousRebalancePlanner).plan
      (rendezvousScore byteHash) placedOnTwo
      ["m0", "m2", "m1"]).moves, move.toMachine = "m2" := by
  have distinct : ["m0", "m1"].Nodup := by decide
  refine ⟨distinct, ?_⟩
  exact ((plan_minimal ⟨2, 1⟩ (rendezvousScore byteHash) distinct).2.1 placedOnTwo
    "m2" _ (by decide)
    (List.Perm.swap "m2" "m0" ["m1"]) (placed_of_initial (by decide) _ _)).1

end Example

end GraphEngine
