/-
Module: GraphEngine.Model.Rebalance
Layer: Model
Purpose: The rendezvous-hashing rebalance planner: which machines a partition
  should live on, and the moves that bring a placement there.
Trusted boundary: the 64-bit hash behind the rendezvous score is a third-party
  function and stays a parameter
Main exports: PartitionMove, targetMachines, RendezvousRebalancePlanner.plan,
  PartitionMap.applyMoves
-/
import GraphEngine.Model.Cluster
import GraphEngine.Lib.Ranking
import Mathlib.Data.String.Basic

namespace GraphEngine

open Std (ExtTreeMap ExtTreeSet)

/-- A replica of `partition` to bootstrap on one machine, in place of one to
tear down if any. -/
structure PartitionMove where
  partition : PartitionId
  fromMachine : Option String
  toMachine : String
deriving DecidableEq, Repr

/-- The moves that lead to the targets. -/
structure RebalancePlan where
  moves : List PartitionMove
deriving DecidableEq, Repr

/-- How much a partition prefers a machine. -/
abbrev Score := PartitionId → String → UInt64

/-- The four bytes of a partition id, least significant first. -/
def PartitionId.toLeBytes (partition : PartitionId) : List UInt8 :=
  [partition.val, partition.val / 2 ^ 8, partition.val / 2 ^ 16,
    partition.val / 2 ^ 24].map UInt8.ofNat

/-- The score the engine uses, over the hash of a byte string. -/
def rendezvousScore (xxh3 : List UInt8 → UInt64) : Score := fun partition machine =>
  xxh3 (partition.toLeBytes ++ machine.toUTF8.toList)

/-- Descending score, then the machine's name. -/
def outranks (a b : UInt64 × String) : Bool :=
  decide (b.1 < a.1) || (decide (a.1 = b.1) && decide (a.2 ≤ b.2))

/-- The `replicationFactor` machines that `partition` prefers. -/
def targetMachines (score : Score) (partition : PartitionId)
    (availableMachines : List String) (replicationFactor : Nat) : List String :=
  let scored := availableMachines.map fun m => (score partition m, m)
  (topRanked outranks replicationFactor scored).map Prod.snd

/-- The names of the machines that host `partition`. -/
def currentMachines (current : PartitionMap) (partition : PartitionId) :
    ExtTreeSet String compare :=
  match current.replicasByPartition[partition]? with
  | some replicas => ExtTreeSet.ofList (replicas.map fun r => r.replica.name) compare
  | none => ∅

/-- Each addition takes the next removal as its source while there are any; what
is left of the removals is dropped. -/
def pairMoves (partition : PartitionId) : List String → List String → List PartitionMove
  | [], _ => []
  | add :: adds, removes =>
      ⟨partition, removes.head?, add⟩ :: pairMoves partition adds removes.tail

/-- The moves of one partition. -/
def partitionMoves (partition : PartitionId) (target : List String)
    (currentMachines : ExtTreeSet String compare) : List PartitionMove :=
  let toAdd := target.filter fun m => !currentMachines.contains m
  let toRemove := currentMachines.toList.filter fun m => !target.contains m
  pairMoves partition (toAdd.mergeSort (· ≤ ·)) (toRemove.mergeSort (· ≤ ·))

/-- The planner: how many partitions there are and how many replicas each should
have. -/
structure RendezvousRebalancePlanner where
  nPartitions : Nat
  replicationFactor : Nat

/-- The moves from a placement to the targets, partition by partition. -/
def RendezvousRebalancePlanner.plan (planner : RendezvousRebalancePlanner) (score : Score)
    (current : PartitionMap) (availableMachines : List String) : RebalancePlan :=
  if availableMachines.isEmpty then ⟨[]⟩ else
    let replicationFactor := min planner.replicationFactor availableMachines.length
    ⟨(List.range planner.nPartitions).flatMap fun i =>
      partitionMoves ⟨i⟩ (targetMachines score ⟨i⟩ availableMachines replicationFactor)
        (currentMachines current ⟨i⟩)⟩

/-! ### Carrying out a plan -/

/-- The endpoint of a freshly bootstrapped replica; where it listens and whether
it is up already is the operator's business. -/
def bootstrapped (address : String → String) (healthy : String → Bool)
    (machine : String) : ReplicaEndpoint :=
  ⟨⟨machine⟩, address machine, healthy machine⟩

/-- Carry out one move: drop `fromMachine` if given, add `toMachine`. -/
def PartitionMap.applyMove (address : String → String) (healthy : String → Bool)
    (current : PartitionMap) (move : PartitionMove) : PartitionMap :=
  let replicas := (current.replicasByPartition[move.partition]?).getD []
  let kept := replicas.filter fun r => move.fromMachine != some r.replica.name
  ⟨current.replicasByPartition.insert move.partition
    (kept ++ [bootstrapped address healthy move.toMachine])⟩

/-- The placement once the moves are made. -/
def PartitionMap.applyMoves (address : String → String) (healthy : String → Bool)
    (current : PartitionMap) (moves : List PartitionMove) : PartitionMap :=
  moves.foldl (PartitionMap.applyMove address healthy) current

end GraphEngine
