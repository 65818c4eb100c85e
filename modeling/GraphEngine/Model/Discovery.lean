/-
Module: GraphEngine.Model.Discovery
Layer: Model
Purpose: The partition map as it is read off the Pods of a cluster: every Pod
  with a name and an address that can be read is a replica of the partitions
  that its annotation lists.
Trusted boundary: the Kubernetes API, whose answer is a parameter
Main exports: Pod, podToReplicaEndpoint, podIsReady, podPartitions,
  KubernetesDiscovery.currentMap
-/
import GraphEngine.Lib.NetAddr
import GraphEngine.Model.Cluster
import GraphEngine.Model.Numerals

namespace GraphEngine

open Std (ExtTreeMap)

/-! ### Pods -/

/-- A condition of a Pod's status, of which only the type and the status are
read. -/
structure PodCondition where
  type : String
  status : String
deriving DecidableEq, Repr

/-- What the status of a Pod says of its conditions and its address. -/
structure PodStatus where
  podIp : Option String
  conditions : Option (List PodCondition)
deriving DecidableEq, Repr

/-- What is read of a Pod.  Any of it may be missing. -/
structure Pod where
  name : Option String
  annotations : Option (ExtTreeMap String String compare)
  status : Option PodStatus

/-- `str::trim`'s notion of white space, the Unicode property `White_Space`. -/
def isWhiteSpace (c : Char) : Bool :=
  (0x9 ≤ c.toNat && c.toNat ≤ 0xD) || (0x2000 ≤ c.toNat && c.toNat ≤ 0x200A) ||
    c.toNat ∈ [0x20, 0x85, 0xA0, 0x1680, 0x2028, 0x2029, 0x202F, 0x205F, 0x3000]

/-- `str::trim`. -/
def trim (text : List Char) : List Char :=
  ((text.dropWhile isWhiteSpace).reverse.dropWhile isWhiteSpace).reverse

/-! ### Discovery -/

/-- Why the Pods could not be listed. -/
inductive DiscoveryError where
  | kubernetesApi (reason : String)
deriving DecidableEq, Repr

/-- The annotation with the partitions of a Pod. -/
def partitionsAnnotationKey : String := "graph.io/partitions"

namespace KubernetesDiscovery

/-- A replica with its address as a value; `GraphEngine.ReplicaEndpoint` has the
text of the address. -/
structure ReplicaEndpoint where
  replica : ReplicaId
  address : SocketAddr
  healthy : Bool
deriving DecidableEq, Repr

/-- The replicas of every partition, as discovery finds them. -/
structure PartitionMap where
  replicasByPartition : ExtTreeMap PartitionId (List ReplicaEndpoint) compare

/-- The replicas listed under a partition. -/
def PartitionMap.replicas (partitions : PartitionMap) (partition : PartitionId) :
    List ReplicaEndpoint :=
  (partitions.replicasByPartition[partition]?).getD []

/-- A Pod is healthy once its `Ready` condition is true. -/
def podIsReady (pod : Pod) : Bool :=
  ((pod.status.bind PodStatus.conditions).getD []).any fun c => c.type = "Ready" ∧
    c.status = "True"

/-- A Pod as a replica: it needs a name, and an address that reads as that of a
socket once the port is put behind it. -/
def podToReplicaEndpoint (pod : Pod) (port : UInt16) : Option ReplicaEndpoint := do
  let name ← pod.name
  let status ← pod.status
  let ip ← status.podIp
  let address ← SocketAddr.parse s!"{ip}:{port}"
  some { replica := { name := name }, address := address, healthy := podIsReady pod }

/-- The entries of the annotation that are numbers, in order. -/
def podPartitions (pod : Pod) : List PartitionId :=
  match pod.annotations.bind fun annotations => annotations[partitionsAnnotationKey]? with
  | none => []
  | some raw =>
      (raw.toList.splitOn ',').filterMap fun entry =>
        (parseUnsigned 32 (trim entry)).map PartitionId.mk

/-- List one Pod under each of its partitions. -/
def addPod (port : UInt16) (partitions : PartitionMap) (pod : Pod) : PartitionMap :=
  match podToReplicaEndpoint pod port with
  | none => partitions
  | some endpoint =>
      { replicasByPartition :=
          (podPartitions pod).foldl
            (fun byPartition partition => pushGroup byPartition partition endpoint)
            partitions.replicasByPartition }

/-- The map of a list of Pods. -/
def mapOf (port : UInt16) (pods : List Pod) : PartitionMap :=
  pods.foldl (addPod port) { replicasByPartition := ∅ }

/-- `current_map`; `listed` is the answer of the API. -/
def currentMap (port : UInt16) (listed : Except String (List Pod)) :
    Except DiscoveryError PartitionMap :=
  match listed with
  | .error reason => .error (.kubernetesApi reason)
  | .ok pods => .ok (mapOf port pods)

end KubernetesDiscovery

end GraphEngine
