/-
Module: GraphEngine.Proofs.Discovery
Layer: Proofs
Purpose: What discovery makes of the Pods.  Each Pod is read by itself, and
  listed as it says, unless its address is an IPv6 address: joined with the port
  by a colon it is no address of a socket.
Trusted boundary: Kubernetes reports addresses of Pods without brackets
Main exports: FaithfulToPods, PlainAddresses, podToReplicaEndpoint_eq_some_iff,
  replicas_mapOf, faithfulToPods_iff
-/
import GraphEngine.Model.Discovery

namespace GraphEngine

/-- The address that Kubernetes reports. -/
def Pod.podIp (pod : Pod) : Option String := pod.status.bind PodStatus.podIp

/-- The address of a Pod, if it has one that reads as such. -/
def Pod.ip (pod : Pod) : Option IpAddr := pod.podIp.bind IpAddr.parse

/-- The Pod has a `Ready` condition that is true. -/
def Pod.Ready (pod : Pod) : Prop :=
  ∃ status conditions, pod.status = some status ∧ status.conditions = some conditions ∧
    { type := "Ready", status := "True" } ∈ conditions

namespace KubernetesDiscovery

/-- Addresses of Pods are not written in brackets. -/
def PlainAddresses (pods : List Pod) : Prop :=
  ∀ pod ∈ pods, ∀ text, pod.podIp = some text → text.toList.head? ≠ some '['

/-- The map lists exactly what the Pods say, and each Pod's entries depend on
that Pod only. -/
structure FaithfulToPods (port : UInt16) (pods : List Pod) : Prop where
  current : currentMap port (.ok pods) = .ok (mapOf port pods)
  listed : ∀ partition endpoint, endpoint ∈ (mapOf port pods).replicas partition ↔
    ∃ pod ∈ pods, ∃ ip, pod.name = some endpoint.replica.name ∧ pod.ip = some ip ∧
      endpoint.address = .new ip port.toNat ∧ partition ∈ podPartitions pod ∧
        (endpoint.healthy = true ↔ pod.Ready)
  apart : ∀ before pod after, pods = before ++ pod :: after →
    ∀ partition, (mapOf port pods).replicas partition =
    (mapOf port before).replicas partition ++
      ((mapOf port [pod]).replicas partition ++ (mapOf port after).replicas partition)

/-! ### One Pod -/

/-- A Pod counts as ready exactly where it is. -/
theorem podIsReady_iff {pod : Pod} : podIsReady pod = true ↔ pod.Ready := by
  rw [podIsReady, List.any_eq_true]
  constructor
  · rintro ⟨⟨type, text⟩, listed, ready⟩
    obtain ⟨rfl, rfl⟩ := of_decide_eq_true ready
    cases found : pod.status.bind PodStatus.conditions with
    | none => simp [found] at listed
    | some conditions =>
        rw [found, Option.getD_some] at listed
        obtain ⟨status, reported, given⟩ := Option.bind_eq_some_iff.mp found
        exact ⟨status, conditions, reported, given, listed⟩
  · rintro ⟨status, conditions, reported, given, listed⟩
    refine ⟨{ type := "Ready", status := "True" }, ?_, decide_eq_true ⟨rfl, rfl⟩⟩
    rw [reported, Option.bind_some, given]
    exact listed

/-- The text of an address and a port is the address of a socket exactly where
it is that of an IPv4 address. -/
theorem parse_withPort {text : String} {port : UInt16}
    (plain : text.toList.head? ≠ some '[') {address : SocketAddr} :
    SocketAddr.parse s!"{text}:{port}" = some address ↔
      ∃ ip, IpAddr.parse text = some (.v4 ip) ∧ address = .v4 ip port.toNat := by
  have characters : (s!"{text}:{port}").toList = text.toList ++ ':' ::
      Nat.toDigits 10 port.toNat := by
    have parts : s!"{text}:{port}" = text ++ ":" ++ port.toNat.repr := rfl
    rw [parts, String.toList_append, String.toList_append, Nat.toList_repr,
      List.append_assoc]
    rfl
  rw [SocketAddr.parse, characters]
  exact parse_ip_port plain port.toNat_lt

/-- A Pod is a replica exactly where it has a name and an IPv4 address. -/
theorem podToReplicaEndpoint_eq_some_iff {pod : Pod} {port : UInt16}
    (plain : ∀ text, pod.podIp = some text → text.toList.head? ≠ some '[')
    {endpoint : ReplicaEndpoint} :
    podToReplicaEndpoint pod port = some endpoint ↔
      ∃ ip, pod.name = some endpoint.replica.name ∧ pod.ip = some (.v4 ip) ∧
        endpoint.address = .v4 ip port.toNat ∧ endpoint.healthy = podIsReady pod := by
  simp only [podToReplicaEndpoint, Option.bind_eq_bind, Option.bind_eq_some_iff]
  constructor
  · rintro ⟨name, named, status, reported, text, given, address, parsed, same⟩
    cases same
    have podIp : pod.podIp = some text :=
      Option.bind_eq_some_iff.mpr ⟨status, reported, given⟩
    obtain ⟨ip, isV4, rfl⟩ := (parse_withPort (plain text podIp)).mp parsed
    exact ⟨ip, named, Option.bind_eq_some_iff.mpr ⟨text, podIp, isV4⟩, rfl, rfl⟩
  · rintro ⟨ip, named, hasIp, address, healthy⟩
    obtain ⟨text, podIp, isV4⟩ := Option.bind_eq_some_iff.mp hasIp
    obtain ⟨status, reported, given⟩ := Option.bind_eq_some_iff.mp podIp
    refine ⟨_, named, status, reported, text, given, _,
      (parse_withPort (plain text podIp)).mpr ⟨ip, isV4, rfl⟩, ?_⟩
    cases endpoint
    cases address
    cases healthy
    rfl

/-! ### All Pods -/

/-- What one Pod adds under a partition. -/
def listedUnder (port : UInt16) (pod : Pod) (partition : PartitionId) :
    List ReplicaEndpoint :=
  match podToReplicaEndpoint pod port with
  | none => []
  | some endpoint =>
      ((podPartitions pod).filter fun entry => entry = partition).map fun _ => endpoint

theorem getD_pushGroup
    (byPartition : Std.ExtTreeMap PartitionId (List ReplicaEndpoint) compare)
    (entry partition : PartitionId) (endpoint : ReplicaEndpoint) :
    ((pushGroup byPartition entry endpoint)[partition]?).getD [] =
      (byPartition[partition]?).getD [] ++ if entry = partition
        then [endpoint] else [] := by
  have pushed :=
    getElem?_foldl_pushGroup (fun _ => entry) [endpoint] byPartition partition
  rw [List.foldl_cons, List.foldl_nil] at pushed
  rw [pushed]
  by_cases same : entry = partition <;> simp [same]

/-- A Pod is listed behind the others under each of its partitions. -/
theorem replicas_addPod (port : UInt16) (partitions : PartitionMap) (pod : Pod)
    (partition : PartitionId) :
    (addPod port partitions pod).replicas partition =
      partitions.replicas partition ++ listedUnder port pod partition := by
  rw [addPod, listedUnder]
  cases podToReplicaEndpoint pod port with
  | none => rw [List.append_nil]
  | some endpoint =>
      simp only [PartitionMap.replicas]
      generalize partitions.replicasByPartition = byPartition
      induction podPartitions pod generalizing byPartition with
      | nil => simp
      | cons entry rest inductionHypothesis =>
          rw [List.foldl_cons, inductionHypothesis, getD_pushGroup, List.append_assoc]
          by_cases same : entry = partition <;> simp [same]

/-- The map lists what each Pod adds, one Pod after the other. -/
theorem replicas_mapOf (port : UInt16) (pods : List Pod) (partition : PartitionId) :
    (mapOf port pods).replicas partition = pods.flatMap fun pod =>
      listedUnder port pod partition := by
  have from_ (start : PartitionMap) :
      (pods.foldl (addPod port) start).replicas partition =
      start.replicas partition ++ pods.flatMap fun pod =>
        listedUnder port pod partition := by
    induction pods generalizing start with
    | nil => simp
    | cons pod rest inductionHypothesis =>
        rw [List.foldl_cons, inductionHypothesis, replicas_addPod, List.flatMap_cons,
          List.append_assoc]
  rw [mapOf, from_]
  simp [PartitionMap.replicas]

/-- A Pod is listed under the partitions that its annotation names, if it is a
replica. -/
theorem mem_listedUnder {port : UInt16} {pod : Pod} {partition : PartitionId}
    {endpoint : ReplicaEndpoint} :
    endpoint ∈ listedUnder port pod partition ↔
      podToReplicaEndpoint pod port = some endpoint ∧ partition ∈ podPartitions pod := by
  rw [listedUnder]
  cases podToReplicaEndpoint pod port with
  | none => simp
  | some found =>
      simp only [List.mem_map, List.mem_filter, decide_eq_true_eq, Option.some.injEq]
      constructor
      · rintro ⟨entry, ⟨listed, rfl⟩, same⟩
        exact ⟨same, listed⟩
      · rintro ⟨same, listed⟩
        exact ⟨partition, ⟨listed, rfl⟩, same⟩

/-- The map is faithful exactly where no Pod that it should list has an IPv6
address, for a port is put behind an address without brackets around it.
`plain` says that the API does not report addresses in brackets. -/
theorem faithfulToPods_iff {port : UInt16} {pods : List Pod}
    (plain : PlainAddresses pods) :
    FaithfulToPods port pods ↔ ∀ pod ∈ pods, pod.name.isSome → podPartitions pod ≠ [] →
      ∀ ip, pod.ip = some ip → ip.isV4 := by
  constructor
  · intro faithful pod listed named annotated ip hasIp
    obtain ⟨name, named⟩ := Option.isSome_iff_exists.mp named
    obtain ⟨partition, entry⟩ := List.exists_mem_of_ne_nil _ annotated
    have endpointListed := (faithful.listed partition
      { replica := { name := name }, address := .new ip port.toNat,
        healthy := podIsReady pod }).mpr
      ⟨pod, listed, ip, named, hasIp, rfl, entry, podIsReady_iff⟩
    rw [replicas_mapOf] at endpointListed
    obtain ⟨other, otherListed, added⟩ := List.mem_flatMap.mp endpointListed
    obtain ⟨ip', -, -, address, -⟩ :=
      (podToReplicaEndpoint_eq_some_iff (plain other otherListed)).mp
        (mem_listedUnder.mp added).1
    cases ip with
    | v4 ip => rfl
    | v6 ip => cases address
  · intro onlyV4
    refine ⟨rfl, ?_, ?_⟩
    · intro partition endpoint
      rw [replicas_mapOf, List.mem_flatMap]
      apply exists_congr
      intro pod
      apply and_congr_right
      intro listed
      rw [mem_listedUnder, podToReplicaEndpoint_eq_some_iff (plain pod listed)]
      constructor
      · rintro ⟨⟨ip, named, hasIp, address, healthy⟩, entry⟩
        exact ⟨.v4 ip, named, hasIp, address,
          entry, by rw [healthy]; exact podIsReady_iff⟩
      · rintro ⟨ip, named, hasIp, address, entry, healthy⟩
        have isV4 :=
          onlyV4 pod listed (by rw [named]; rfl) (List.ne_nil_of_mem entry) ip hasIp
        cases ip with
        | v6 ip => cases isV4
        | v4 ip =>
            refine ⟨⟨ip, named, hasIp, address, ?_⟩, entry⟩
            rw [Bool.eq_iff_iff, healthy, podIsReady_iff]
    · rintro before pod after rfl partition
      simp only [replicas_mapOf, List.flatMap_append, List.flatMap_cons,
        List.flatMap_nil, List.append_nil]

/-- A replica of partitions 0 and 3. -/
def podAt (ip : String) : Pod where
  name := some "node-0"
  annotations := some {(partitionsAnnotationKey, "0, 3")}
  status := some
    { podIp := some ip, conditions := some [{ type := "Ready", status := "True" }] }

theorem podAt_v4_faithful : FaithfulToPods 7001 [podAt "10.0.3.7"] := by
  apply (faithfulToPods_iff ?_).mpr
  · intro pod listed _ _ ip hasIp
    cases List.mem_singleton.mp listed
    have isV4 : (podAt "10.0.3.7").ip =
        some (.v4 { a := 10, b := 0, c := 3, d := 7 }) := by
      decide +kernel
    rw [isV4] at hasIp
    cases hasIp
    rfl
  · intro pod listed text given
    cases List.mem_singleton.mp listed
    cases given
    decide

/-- A replica with an IPv6 address is listed nowhere. -/
theorem podAt_v6_missing :
    ¬ ∀ (port : UInt16) (pods : List Pod), PlainAddresses pods →
      FaithfulToPods port pods := by
  intro all
  have plain : PlainAddresses [podAt "fd00::7"] := by
    intro pod listed text given
    cases List.mem_singleton.mp listed
    cases given
    decide
  have address : (podAt "fd00::7").ip =
      some (.v6 { segments := #v[0xfd00, 0, 0, 0, 0, 0, 0, 7] }) := by
    decide +kernel
  have entry : (⟨0⟩ : PartitionId) ∈ podPartitions (podAt "fd00::7") := by decide +kernel
  have listed := ((all 7001 _ plain).listed ⟨0⟩
    { replica := { name := "node-0" }, address := _, healthy := true }).mpr
    ⟨_, List.mem_singleton_self _, _, rfl, address, rfl,
      entry, by simp [podAt, Pod.Ready]⟩
  have unread : podToReplicaEndpoint (podAt "fd00::7") 7001 = none := by decide +kernel
  rw [replicas_mapOf, List.flatMap_singleton, listedUnder, unread] at listed
  cases listed

end KubernetesDiscovery

end GraphEngine
