/-
Module: GraphEngine.Model.Cluster
Layer: Model
Purpose: Placement of logical partitions on physical replicas.
Trusted boundary: none
Main exports: ReplicaEndpoint, PartitionMap, PartitionMap.healthyReplicas,
  pickReplica
-/
import GraphEngine.Model.Index

namespace GraphEngine

open Std (ExtTreeMap)

/-- A replica by the name of its Pod. -/
structure ReplicaId where
  name : String
deriving DecidableEq, Repr

/-- One physical replica of a partition. -/
structure ReplicaEndpoint where
  replica : ReplicaId
  address : String
  healthy : Bool
deriving DecidableEq, Repr

/-- The generation handle of the process that listens at the replica's address. -/
def ReplicaEndpoint.handle (replica : ReplicaEndpoint) : GenerationHandle :=
  ⟨replica.address⟩

/-- Current assignment of partitions to replicas. -/
structure PartitionMap where
  replicasByPartition : ExtTreeMap PartitionId (List ReplicaEndpoint) compare

namespace PartitionMap

/-- The replicas of a partition that may be called. -/
def healthyReplicas (partitions : PartitionMap) (partition : PartitionId) :
    List ReplicaEndpoint :=
  match partitions.replicasByPartition[partition]? with
  | some replicas => replicas.filter fun r => r.healthy
  | none => []

end PartitionMap

/-- The first healthy replica. -/
def pickReplica (partitions : PartitionMap) (partition : PartitionId) :
    Option ReplicaEndpoint :=
  (partitions.healthyReplicas partition).head?

/-- A partition with a healthy replica is listed. -/
theorem mem_keys_of_pickReplica {partitions : PartitionMap}
    {partition : PartitionId} {replica : ReplicaEndpoint}
    (picked : pickReplica partitions partition = some replica) :
    partition ∈ partitions.replicasByPartition.keys := by
  rw [Std.ExtTreeMap.mem_keys, Std.ExtTreeMap.mem_iff_isSome_getElem?]
  rw [pickReplica, PartitionMap.healthyReplicas] at picked
  split at picked
  · simp_all
  · simp at picked

end GraphEngine
