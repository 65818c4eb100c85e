/-
Module: GraphEngine.Proofs.Merging
Layer: Proofs
Purpose: What the coordinator merges.  The key of a binding does not depend on
  the order in which its maps are iterated and tells bindings apart, so that
  every use of a set of seen keys keeps one copy of each binding it is given.  A
  run that notes all its uses erases to the run of the source.
Trusted boundary: none
Main exports: sortedKey_eq_iff, OneCopyEach, Merge,
  ScatterGatherExecutor.executeNoted, executeNoted_erased, execute_nodup
-/
import GraphEngine.Lib.ClientRules
import GraphEngine.Lib.StableSort
import GraphEngine.Proofs.ScatterGather
import GraphEngine.Spec.Dataset

namespace GraphEngine

open ScatterGatherExecutor (roundStep)

/-! ### The key in any iteration order -/

/-- `nodes` and `edges` are the entries of the two maps of a binding, in the
orders in which the maps are iterated. -/
structure Binding.Iterated (b : Binding) (nodes : List (String × NodeId))
    (edges : List (String × EdgeId)) : Prop where
  nodes : nodes.Perm b.nodes.toList
  edges : edges.Perm b.edges.toList

/-- The key computed from the entries as they are met. -/
def sortedKey (nodes : List (String × NodeId)) (edges : List (String × EdgeId)) :
    List KeyTriple :=
  (bindingTriples nodes edges).insertionSort fun a b => KeyTriple.le a b = true

/-- The order of the key's triples, field by field. -/
def KeyTriple.cmp : KeyTriple → KeyTriple → Ordering :=
  compareLex (compareOn Prod.fst)
    (compareLex (compareOn fun t : KeyTriple => t.2.1) (compareOn fun t => t.2.2))

instance : Std.TransCmp KeyTriple.cmp :=
  inferInstanceAs (Std.TransCmp (compareLex _ (compareLex _ _)))

instance : Std.LawfulEqCmp KeyTriple.cmp where
  eq_of_compare {a b} same := by
    obtain ⟨kind, rest⟩ := compareLex_eq_eq.mp same
    obtain ⟨aliasName, id⟩ := compareLex_eq_eq.mp rest
    apply Prod.ext (Std.LawfulEqOrd.eq_of_compare kind)
    exact Prod.ext (Std.LawfulEqOrd.eq_of_compare aliasName)
      (Std.LawfulEqOrd.eq_of_compare id)

/-- Sorting undoes the iteration order. -/
theorem Binding.Iterated.sortedKey_eq {b : Binding} {nodes : List (String × NodeId)}
    {edges : List (String × EdgeId)} (iterated : b.Iterated nodes edges) :
    sortedKey nodes edges = bindingKey b := by
  have triples : (bindingTriples nodes edges).Perm
      (bindingTriples b.nodes.toList b.edges.toList) :=
    (iterated.nodes.map _).append (iterated.edges.map _)
  have sorted : stableSort KeyTriple.cmp (bindingTriples nodes edges) =
      stableSort KeyTriple.cmp (bindingTriples b.nodes.toList b.edges.toList) :=
        stableSort_congr triples
  exact sorted

/-- Keys are equal exactly when the bindings are, whatever orders the maps of
the two are iterated in. -/
theorem sortedKey_eq_iff {a b : Binding} {nodes nodes' : List (String × NodeId)}
    {edges edges' : List (String × EdgeId)} (iterated : a.Iterated nodes edges)
    (iterated' : b.Iterated nodes' edges') :
    sortedKey nodes edges = sortedKey nodes' edges' ↔ a = b := by
  rw [iterated.sortedKey_eq, iterated'.sortedKey_eq]
  constructor
  · exact bindingKey_injective a b
  · intro same
    rw [same]

/-! ### One use of a set of seen keys -/

/-- `kept` holds exactly one copy of every binding of `given`, and nothing
else. -/
def OneCopyEach (given kept : List Binding) : Prop :=
  ∀ b, kept.count b = if b ∈ given then 1 else 0

/-- Bindings that agree on the nodes but not on the edges are both kept. -/
def KeepsParallel (given kept : List Binding) : Prop :=
  ∀ a ∈ given, ∀ b ∈ given, a.nodes = b.nodes → a.edges ≠ b.edges → [a, b].Subperm kept

/-- Merging keeps one copy of every binding. -/
theorem dedup_oneCopyEach (given : List Binding) : OneCopyEach given (dedup given) :=
  count_appendUnseen bindingKey bindingKey_injective given

namespace OneCopyEach

variable {given kept : List Binding}

/-- Merging loses no binding and adds none. -/
theorem mem_iff (once : OneCopyEach given kept) {b : Binding} : b ∈ kept ↔ b ∈ given := by
  rw [← List.count_pos_iff, once b]
  split
  case isTrue member => exact iff_of_true Nat.one_pos member
  case isFalse absent => exact iff_of_false (Nat.lt_irrefl 0) absent

/-- Merging leaves no binding twice. -/
theorem nodup (once : OneCopyEach given kept) : kept.Nodup := by
  rw [List.nodup_iff_count_le_one]
  intro b
  rw [once b]
  split
  · exact le_rfl
  · exact Nat.zero_le 1

/-- Bindings that differ in an edge alone are both kept. -/
theorem keepsParallel (once : OneCopyEach given kept) : KeepsParallel given kept := by
  intro a memberA b memberB _ different
  have distinct : [a, b].Nodup := by
    rw [List.nodup_cons, List.mem_singleton]
    exact ⟨fun same => different (congrArg Binding.edges same), List.nodup_singleton b⟩
  apply List.subperm_of_subset distinct
  intro c member
  rcases List.mem_cons.mp member with rfl | isB
  · exact once.mem_iff.mpr memberA
  · rw [List.mem_singleton.mp isB]
    exact once.mem_iff.mpr memberB

end OneCopyEach

/-- A use of a set of seen keys: the bindings it was given so far, in order, and
those it kept.  The field `merged` ties the two together, so that a merge is the
result of the source's loop and nothing else can be built. -/
structure Merge where
  given : List Binding
  kept : List Binding
  merged : kept = dedup given

namespace Merge

/-- Nothing was given yet. -/
def start : Merge where
  given := []
  kept := []
  merged := rfl

/-- Give it more bindings: those with unseen keys are appended. -/
def offer (merge : Merge) (more : List Binding) : Merge where
  given := merge.given ++ more
  kept := appendUnseen bindingKey merge.kept more
  merged := by rw [merge.merged, dedup, dedup, appendUnseen_append]

/-- Exactly one copy of every binding given is kept, and none is given up for
one that differs only in its edges. -/
def KeepsApart (merge : Merge) : Prop :=
  OneCopyEach merge.given merge.kept ∧ KeepsParallel merge.given merge.kept

theorem keepsApart (merge : Merge) : merge.KeepsApart := by
  have once : OneCopyEach merge.given merge.kept := by
    rw [merge.merged]
    exact dedup_oneCopyEach merge.given
  exact ⟨once, once.keepsParallel⟩

end Merge

/-! ### Runs that note their merges -/

namespace ScatterGatherExecutor

variable (executor : ScatterGatherExecutor) (partitions : PartitionMap)

/-- `broadcastResolve`, noting what the partitions returned. -/
def broadcastNoted (step : PlanStep) : Exec Merge := do
  let keys ← Client.unordered partitions.replicasByPartition.keys
  keys.foldlM
    (fun merge partition =>
      match pickReplica partitions partition with
      | none => pure merge
      | some replica => do
          let bindings ← executor.resolveOn replica step
          pure (merge.offer bindings))
    Merge.start

/-- `hopRounds`, noting what the rounds from the smallest depth on yielded. -/
def roundsNoted (step : ExpandHop) : (remaining depth : Nat) → (cursorAlias : String) →
    (current : List Binding) → (accepted : Merge) → Exec Merge
  | 0, _, _, _, accepted => pure accepted
  | remaining + 1, depth, cursorAlias, current, accepted =>
      if current = [] then pure accepted
      else do
        let next ← executor.oneRound partitions (roundStep step cursorAlias depth) current
        roundsNoted step remaining (depth + 1) step.toAlias next
          (if step.hops.min ≤ depth then accepted.offer next else accepted)

/-- A hop over all depths, with a note of every merge. -/
def scatterGatherHopNoted (step : ExpandHop) (frontier : List Binding) : Exec Merge :=
  executor.roundsNoted partitions step step.hops.max 1 step.fromAlias frontier Merge.start

variable [Chrono]

/-- `runStep`, noting the merge of a hop after the earlier ones. -/
def runStepNoted (before : List Merge × List Binding) (step : PlanStep) :
    Exec (List Merge × List Binding) :=
  match step with
  | .expandHop hop => do
      let merge ← executor.scatterGatherHopNoted partitions hop before.2
      let filtered ← executor.filterFrontier partitions hop merge.kept
      pure (before.1 ++ [merge], filtered)
  | other => do
      let after ← executor.runStep partitions before.2 other
      pure (before.1, after)

/-- The steps of a plan from the first on: the broadcast, the other steps, the
final merge. -/
def stepsNoted (first : PlanStep) (rest : List PlanStep) :
    Exec (List Merge × List Binding) := do
  let start ← executor.broadcastNoted partitions first
  let before ← rest.foldlM (executor.runStepNoted partitions) ([start], start.kept)
  let last := Merge.start.offer before.2
  pure (before.1 ++ [last], last.kept)

/-- `execute`, noting every merge: the broadcast, one for each hop, and the
final one. -/
def executeNoted (plan : QueryPlan) : Exec (List Merge × List Binding) :=
  match plan.steps with
  | [] =>
      raise (.unknownAlias "a plan always has at least a ResolveStart/ResolveAll step")
  | .expandHop _ :: _ | .antiJoin _ :: _ =>
      raise (.unknownAlias "a plan's first step must be ResolveStart or ResolveAll")
  | first :: rest => executor.stepsNoted partitions first rest

end ScatterGatherExecutor

/-! ### The notes erase to the source -/

section Erased

variable (executor : ScatterGatherExecutor) (partitions : PartitionMap)

/-- Without the notes the start is the code's. -/
theorem broadcastNoted_erased (step : PlanStep) :
    Merge.kept <$> executor.broadcastNoted partitions step =
      executor.broadcastResolve partitions step := by
  rw [ScatterGatherExecutor.broadcastNoted, ScatterGatherExecutor.broadcastResolve,
    map_bind]
  apply bind_congr
  intro keys
  apply Client.map_foldlM
  intro merge partition
  cases pickReplica partitions partition with
  | none => rfl
  | some replica => simp only [map_bind, map_pure, Merge.offer]

/-- Without the notes the rounds are the code's. -/
theorem roundsNoted_erased (step : ExpandHop) (remaining depth : Nat)
    (cursorAlias : String) (current : List Binding) (accepted : Merge) :
    Merge.kept <$> executor.roundsNoted partitions step remaining depth cursorAlias
      current accepted =
      executor.hopRounds partitions step remaining depth cursorAlias current
        accepted.kept := by
  induction remaining generalizing depth cursorAlias current accepted with
  | zero => rfl
  | succ remaining inductionHypothesis =>
      rw [ScatterGatherExecutor.roundsNoted, ScatterGatherExecutor.hopRounds]
      split
      case isTrue => rfl
      case isFalse =>
        rw [map_bind]
        apply bind_congr
        intro next
        rw [inductionHypothesis]
        split
        · rfl
        · rfl

/-- Without the notes the hop is the code's. -/
theorem scatterGatherHopNoted_erased (step : ExpandHop) (frontier : List Binding) :
    Merge.kept <$> executor.scatterGatherHopNoted partitions step frontier =
      executor.scatterGatherHop partitions step frontier :=
  roundsNoted_erased executor partitions step step.hops.max 1 step.fromAlias
    frontier Merge.start

/-- A hop accepts every binding once. -/
theorem scatterGatherHop_nodup (step : ExpandHop) (frontier : List Binding) :
    (executor.scatterGatherHop partitions step frontier).Always List.Nodup := by
  rw [← scatterGatherHopNoted_erased]
  exact ((Client.Always.trivial _).imp fun merge _ => merge.keepsApart.1.nodup).map

variable [Chrono]

/-- Without the notes a step is the code's. -/
theorem runStepNoted_erased (before : List Merge × List Binding) (step : PlanStep) :
    Prod.snd <$> executor.runStepNoted partitions before step =
      executor.runStep partitions before.2 step := by
  cases step with
  | expandHop hop =>
      rw [ScatterGatherExecutor.runStepNoted, ScatterGatherExecutor.runStep,
        ← scatterGatherHopNoted_erased]
      simp only [map_bind, map_pure, bind_map_left, bind_pure]
  | antiJoin step =>
      simp only [ScatterGatherExecutor.runStepNoted, map_bind, map_pure, bind_pure]
  | resolveStart start => rfl
  | resolveAll start => rfl

/-- Without the notes the steps are the code's. -/
theorem stepsNoted_erased (first : PlanStep) (rest : List PlanStep) :
    Prod.snd <$> executor.stepsNoted partitions first rest = (do
      let start ← executor.broadcastResolve partitions first
      let frontier ← rest.foldlM (executor.runStep partitions) start
      pure (dedup frontier)) := by
  rw [ScatterGatherExecutor.stepsNoted, map_bind, ← broadcastNoted_erased, bind_map_left]
  apply bind_congr
  intro start
  rw [map_bind,
    ← Client.map_foldlM (runStepNoted_erased executor partitions) rest
      ([start], start.kept), bind_map_left]
  rfl

/-- Without the notes the execution is the code's. -/
theorem executeNoted_erased (plan : QueryPlan) :
    Prod.snd <$> executor.executeNoted partitions plan =
      executor.execute partitions plan := by
  rw [ScatterGatherExecutor.executeNoted, ScatterGatherExecutor.execute]
  cases plan.steps with
  | nil => rfl
  | cons first rest =>
      cases first with
      | resolveStart start => exact stepsNoted_erased executor partitions _ rest
      | resolveAll start => exact stepsNoted_erased executor partitions _ rest
      | expandHop hop => rfl
      | antiJoin step => rfl

end Erased

/-! ### No two equal rows -/

section Rows

/-- At every merge of a run every binding given is kept once, and the rows are
what the last merge kept. -/
structure RowsKeptApart (out : List Merge × List Binding) : Prop where
  merges : ∀ merge ∈ out.1, merge.KeepsApart
  rows : ∃ last ∈ out.1.getLast?, out.2 = last.kept

theorem RowsKeptApart.nodup {out : List Merge × List Binding}
    (apart : RowsKeptApart out) : out.2.Nodup := by
  obtain ⟨last, _, same⟩ := apart.rows
  rw [same]
  exact last.keepsApart.1.nodup

variable [Chrono] (executor : ScatterGatherExecutor) (partitions : PartitionMap)

/-- Every merge of a run keeps apart what differs. -/
theorem stepsNoted_keepsApart (first : PlanStep) (rest : List PlanStep) :
    (executor.stepsNoted partitions first rest).Always RowsKeptApart := by
  apply Client.Always.bind (Client.Always.trivial _)
  intro start _
  apply Client.Always.bind (Client.Always.trivial _)
  intro before _
  apply Client.Always.pure
  constructor
  · exact fun merge _ => merge.keepsApart
  · exact ⟨Merge.start.offer before.2, by simp, rfl⟩

/-- Whatever the replicas answer, whatever generations they hold by then and
whatever orders are met. -/
theorem executeNoted_keepsApart (plan : QueryPlan) :
    (executor.executeNoted partitions plan).Always RowsKeptApart := by
  rw [ScatterGatherExecutor.executeNoted]
  cases plan.steps with
  | nil => exact Client.Always.fail _
  | cons first rest =>
      cases first with
      | resolveStart start => exact stepsNoted_keepsApart executor partitions _ rest
      | resolveAll start => exact stepsNoted_keepsApart executor partitions _ rest
      | expandHop hop => exact Client.Always.fail _
      | antiJoin step => exact Client.Always.fail _

/-- The rows of a run are distinct. -/
theorem execute_nodup (plan : QueryPlan) :
    (executor.execute partitions plan).Always List.Nodup := by
  rw [← executeNoted_erased]
  exact ((executeNoted_keepsApart executor partitions plan).imp fun _ apart =>
    apart.nodup).map

/-- The key of a binding is faithful in any iteration order; the broadcast, a
hop and the final step each keep exactly one copy of every binding they are
given; and no run returns equal rows or merges bindings that differ.

The merges inside a run are observed by programs that note them, each of which
gives the source's program once the notes are erased.  Nothing is assumed of the
plan, of what is served or of how calls are made. -/
theorem bindings_keptApart (plan : QueryPlan) :
    (∀ (a b : Binding) nodes edges nodes' edges', a.Iterated nodes edges →
      b.Iterated nodes' edges' →
      (sortedKey nodes edges = sortedKey nodes' edges' ↔ a = b)) ∧
    (∀ step, Merge.kept <$> executor.broadcastNoted partitions step =
      executor.broadcastResolve partitions step ∧
      (executor.broadcastNoted partitions step).Always Merge.KeepsApart) ∧
    (∀ step frontier,
      Merge.kept <$> executor.scatterGatherHopNoted partitions step frontier =
        executor.scatterGatherHop partitions step frontier ∧
      (executor.scatterGatherHopNoted partitions step frontier).Always Merge.KeepsApart) ∧
    (∀ given, OneCopyEach given (dedup given) ∧ KeepsParallel given (dedup given)) ∧
    Prod.snd <$> executor.executeNoted partitions plan =
      executor.execute partitions plan ∧
    (executor.executeNoted partitions plan).Always RowsKeptApart ∧
    ∀ serve order time rows, (executor.execute partitions plan).run serve order time =
      .ok rows → rows.Nodup := by
  have each : ∀ noted : Exec Merge, noted.Always Merge.KeepsApart := fun noted =>
    (Client.Always.trivial noted).imp fun merge _ => merge.keepsApart
  refine ⟨?_, ?_, ?_, ?_, ?_, ?_, ?_⟩
  · intro a b nodes edges nodes' edges' iterated iterated'
    exact sortedKey_eq_iff iterated iterated'
  · exact fun step => ⟨broadcastNoted_erased executor partitions step, each _⟩
  · exact fun step frontier =>
      ⟨scatterGatherHopNoted_erased executor partitions step frontier, each _⟩
  · exact fun given => ⟨dedup_oneCopyEach given, (dedup_oneCopyEach given).keepsParallel⟩
  · exact executeNoted_erased executor partitions plan
  · exact executeNoted_keepsApart executor partitions plan
  · exact fun serve order time rows ends =>
      (execute_nodup executor partitions plan).run ends

end Rows

/-! ### Two edges between the same persons -/

section

open scoped Social

/-- Person 1 knows person 2 along two edges. -/
def knowsTwice : Dataset :=
  { Social.dataset with
    edgeRows := fun edgeType =>
      if edgeType = Social.knows then
        [{ id := ⟨10⟩, src := ⟨1⟩, dst := ⟨2⟩, properties := ∅ },
         { id := ⟨11⟩, src := ⟨1⟩, dst := ⟨2⟩, properties := ∅ }]
      else [] }

/-- `MATCH (a:Person)-[k:KNOWS]->(b:Person)`, with or without the alias. -/
def knowsPlan (edgeAlias : Option String) : QueryPlan where
  steps :=
    [.resolveAll { aliasName := "a", label := "Person" },
     .expandHop
      { fromAlias := "a", toAlias := "b", toLabel := some "Person",
        edgeType := some "KNOWS"
        direction := .outgoing, hops := { min := 1, max := 1 }, filters :=
          [], edgeAlias := edgeAlias }]
  project := [{ aliasName := "b", property := none }]

-- named edges give a row each, unnamed ones the same binding twice
example :
    ((inProcess Social.byParity).execute (deployment Social.byParity)
      (knowsPlan (some "k"))).run
      (fun _ => knowsTwice.deployed Social.byParity) Social.inOrder 0 =
        .ok [(Social.pair 1 2).bindEdge "k" ⟨10⟩, (Social.pair 1 2).bindEdge "k" ⟨11⟩] ∧
    ((inProcess Social.byParity).execute (deployment Social.byParity)
      (knowsPlan none)).run
      (fun _ => knowsTwice.deployed Social.byParity) Social.inOrder 0 =
        .ok [Social.pair 1 2] := by
  decide +kernel

end

end GraphEngine
