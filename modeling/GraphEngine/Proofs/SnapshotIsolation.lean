/-
Module: GraphEngine.Proofs.SnapshotIsolation
Layer: Proofs
Purpose: Queries that run while partitions are rebuilt.  Every call of a query
  acquires the generation served at that moment.  When no partition is swapped
  between two calls to it, the query returns what it would return over one
  generation per partition; a swap in between can mix two generations into an
  answer that neither has.
Trusted boundary: none
Main exports: Torn, execute_frozen_of_undisturbed, execute_tears
-/
import GraphEngine.Lib.Interleaving
import GraphEngine.Proofs.FilterRouting

namespace GraphEngine

open Client (Event Run ServedDuring Undisturbed)

section Isolation

variable [Chrono]

/-- No choice of one generation per handle, among those served during a run,
makes the query return the same set of bindings. -/
def Torn (prog : Exec (List Binding)) (served : GenerationHandle → IndexGeneration → Prop)
    (out : List Binding) : Prop :=
  ¬ ∃ frozen out', (∀ handle, served handle (frozen handle)) ∧
    prog.Returns frozen (.ok out') ∧
    ∀ b, b ∈ out ↔ b ∈ out'

variable {hasher : Partitioning} {partitions : PartitionMap} {queryPlan : QueryPlan}
variable {cells last : GenerationHandle → IndexGeneration}
variable {trace : List (Event GenerationHandle IndexGeneration)}

/-- Every call of a query acquires the generation of its replica anew, so two
calls may see two builds.  If no handle is swapped between two reads of it
(`undisturbed`), the query ends as it does over one generation per handle, each
served at some moment of the run.

What the bindings returned then are is said of the plans that the planner makes,
whose steps look up aliases bound before, and of generations that have one
record of an edge: they are those that the plan denotes over the frozen
generations.  Nothing else is assumed: the run may enumerate in any order, and
partitions may be out of reach. -/
theorem execute_frozen_of_undisturbed {outcome : Except Fault (List Binding)}
    (run : Run ⟨cells, (inProcess hasher).execute partitions queryPlan⟩ trace
      ⟨last, .done outcome⟩) (undisturbed : Undisturbed trace) :
    ∃ frozen, (∀ handle, ServedDuring cells trace handle (frozen handle)) ∧
      ((inProcess hasher).execute partitions queryPlan).Returns frozen outcome ∧
      ∀ start steps, queryPlan.steps = start :: steps → WellScoped start steps →
        (clusterView hasher (servingOf partitions frozen)).EdgesAgree →
        ∀ out, outcome = .ok out → ∀ b, b ∈ out ↔
          Reached (clusterView hasher (servingOf partitions frozen))
            (Keep (clusterView hasher (servingOf partitions frozen))) start steps b := by
  rcases run.frozen undisturbed with ⟨frozen, served, returns⟩
  refine ⟨frozen, served, returns, ?_⟩
  intro start steps planEq wellScoped agree out ended b
  rcases queryPlan with ⟨planSteps, project⟩
  subst planEq ended
  exact ((execute_meets hasher partitions frozen wellScoped agree project).ok returns).1 b

end Isolation

/-! ### A swap between two calls -/

section

open scoped Social

/-- The social graph before anybody met. -/
def beforeMeeting : Dataset := { Social.dataset with edgeRows := fun _ => [] }

/-- The social graph after Ann changed her name. -/
def afterRenaming : Dataset :=
  { Social.dataset with
    nodeRows := fun label =>
      if label = Social.person then
        [{ id := ⟨1⟩, properties := Social.textual "name" "Eve" },
         { id := ⟨2⟩, properties := Social.textual "name" "Bob" },
         { id := ⟨4⟩, properties := Social.textual "name" "Cid" }]
      else Social.dataset.nodeRows label }

/-- The handle of the only partition. -/
def onlyHandle : GenerationHandle := { address := deploymentAddress 0 }

/-- The rebuild of the only partition. -/
def rebuilt : IndexGeneration := afterRenaming.generation Social.single { val := 0 } 0

/-- The rebuild is published before the query makes its first call. -/
theorem acquaintances_isolated :
    ∃ trace last, Run ⟨beforeMeeting.deployed Social.single,
        (inProcess Social.single).execute
          (deployment Social.single) Social.acquaintancesPlan⟩
      (.swap onlyHandle rebuilt :: trace)
      ⟨last, .done (.ok [Social.pair 1 2, Social.pair 2 4])⟩ ∧
    ∃ frozen, (∀ handle, ServedDuring (beforeMeeting.deployed Social.single)
        (.swap onlyHandle rebuilt :: trace) handle (frozen handle)) ∧
      ((inProcess Social.single).execute (deployment Social.single)
        Social.acquaintancesPlan).Returns frozen
          (.ok [Social.pair 1 2, Social.pair 2 4]) := by
  have outcome : ((inProcess Social.single).execute (deployment Social.single)
      Social.acquaintancesPlan).run
        (fun _ =>
          Function.update (beforeMeeting.deployed Social.single) onlyHandle rebuilt)
        Social.inOrder 0 = .ok [Social.pair 1 2, Social.pair 2 4] := by
    decide +kernel
  rcases Client.run_calm
    (Function.update (beforeMeeting.deployed Social.single) onlyHandle rebuilt)
    Social.inOrder ((inProcess Social.single).execute
      (deployment Social.single) Social.acquaintancesPlan)
    0 with ⟨trace, last, run, calm⟩
  rw [outcome] at run
  have early : ∀ handle generation, Event.read handle generation ∉
      [Event.swap onlyHandle rebuilt] := by
    simp
  have whole : Run ⟨beforeMeeting.deployed Social.single,
        (inProcess Social.single).execute
          (deployment Social.single) Social.acquaintancesPlan⟩
      ([.swap onlyHandle rebuilt] ++ trace)
      ⟨last, .done (.ok [Social.pair 1 2, Social.pair 2 4])⟩ :=
    .cons (.swap ⟨beforeMeeting.deployed Social.single, _⟩ onlyHandle rebuilt) run
  rcases execute_frozen_of_undisturbed whole (Undisturbed.of_early early calm) with
    ⟨frozen, served, returns, -⟩
  exact ⟨trace, last, whole, frozen, served, returns⟩

/-- The handle is swapped after the start nodes were resolved and before the hop
is made. -/
def swapsAt (time : Nat) : List (GenerationHandle × IndexGeneration) :=
  if time = 2 then [(onlyHandle, rebuilt)] else []

/-- What the handles hold over time. -/
def servedAt (time : Nat) : GenerationHandle → IndexGeneration :=
  if time ≤ 2 then beforeMeeting.deployed Social.single
  else Function.update (beforeMeeting.deployed Social.single) onlyHandle rebuilt

/-- What is served changes by the swaps alone. -/
theorem servedAt_evolves (time : Nat) :
    servedAt (time + 1) = Client.overwriteAll (servedAt time) (swapsAt time) := by
  rw [servedAt, servedAt, swapsAt]
  by_cases early : time < 2
  · rw [if_pos (by omega), if_pos (by omega), if_neg (by omega)]
    rfl
  · by_cases now : time = 2
    · rw [if_neg (by omega), if_pos (by omega), if_pos now]
      rfl
    · rw [if_neg (by omega), if_neg (by omega), if_neg now]
      rfl

theorem annKnowsBob_shape : PlanShape annKnowsBob annKnowsBobPlan
    { Social.labelled "a" Social.person with propertyFilters := [named "Ann"] }
    [(Social.typed Social.knows, Social.labelled "b" Social.person)]
    (.resolveStart { aliasName := "a", labelOrType := "Person", property := "name",
                     key := .string "Ann" })
    [] where
  patternEq := rfl
  started := rfl
  joined := rfl
  planEq := rfl

/-- Before the meeting nobody knows anybody, after the renaming nobody is called
Ann. -/
theorem not_reached_of_frozen {dataset : Dataset}
    {frozen : GenerationHandle → IndexGeneration}
    (served : dataset.ServedBy Social.single (deployment Social.single) frozen)
    (which : dataset = beforeMeeting ∨ dataset = afterRenaming) (b : Binding)
    {keep : AntiJoinStep → Binding → Prop} :
    ¬ Reached
      (clusterView Social.single (servingOf (deployment Social.single) frozen)) keep
      (.resolveStart
        { aliasName := "a", labelOrType := "Person", property := "name",
          key := .string "Ann" })
      (hopsOf annKnowsBob "a"
        [(Social.typed Social.knows, Social.labelled "b" Social.person)]) b := by
  rintro ⟨a, ⟨v, started, rfl⟩, ⟨depth, positive, -, -, walk⟩, -⟩
  rcases Nat.exists_eq_add_of_le' positive with ⟨less, rfl⟩
  rcases walk with ⟨mid, -, u, t, e, w, -, adjacent, -⟩
  rcases which with rfl | rfl
  · rcases served.adjacent_iff.mp adjacent with ⟨-, -, -, row, member, -⟩
    have noEdges : beforeMeeting.edges = [] := rfl
    rw [noEdges] at member
    cases member
  · rcases served.started_sound started with ⟨node, member, -, indexed⟩
    have nobody : ∀ node ∈ afterRenaming.nodes,
        (("Person", "name"), PropertyKey.string "Ann") ∉
          indexedKeys afterRenaming.schema node := by
      decide
    exact nobody node member indexed

/-- A handle that serves what was built for the only partition serves the whole
cluster. -/
theorem servedBy_onlyHandle {dataset : Dataset}
    {frozen : GenerationHandle → IndexGeneration}
    (same : frozen onlyHandle = dataset.generation Social.single { val := 0 } 0) :
    dataset.ServedBy Social.single (deployment Social.single) frozen := by
  intro p generation serves
  rw [servingOf, pickReplica_deployment] at serves
  split at serves
  case isFalse => cases serves
  case isTrue below =>
      have first : p = { val := 0 } :=
        PartitionId.val_injective _ _ (Nat.lt_one_iff.mp below)
      subst first
      have served : frozen onlyHandle = generation := Option.some.inj serves
      rw [← served, same]
      exact built_iff.mpr ⟨0, rfl⟩

/-- Ann is looked up in the old generation and her acquaintances in the new one:
the answer "Ann knows Bob" is in neither, for in the old one nobody knows Bob
and in the new one nobody is called Ann. -/
theorem execute_tears :
    ∃ trace last out,
      Run ⟨beforeMeeting.deployed Social.single,
          (inProcess Social.single).execute (deployment Social.single) annKnowsBobPlan⟩
        trace ⟨last, .done (.ok out)⟩ ∧
      (∀ handle generation, Event.swap handle generation ∈ trace →
        handle = onlyHandle ∧ afterRenaming.Built Social.single { val := 0 } generation) ∧
      Torn ((inProcess Social.single).execute (deployment Social.single) annKnowsBobPlan)
        (ServedDuring (beforeMeeting.deployed Social.single) trace) out := by
  have outcome : ((inProcess Social.single).execute
      (deployment Social.single) annKnowsBobPlan).run servedAt
      Social.inOrder 0 = .ok [Social.pair 1 2] := by
    decide +kernel
  rcases Client.run_ofSchedule servedAt_evolves Social.inOrder
    ((inProcess Social.single).execute (deployment Social.single) annKnowsBobPlan) 0 with
    ⟨trace, last, run, scheduled⟩
  rw [outcome] at run
  have swapped : ∀ handle generation, Event.swap handle generation ∈ trace →
      handle = onlyHandle ∧ generation = rebuilt := by
    intro handle generation member
    rcases scheduled handle generation member with ⟨time, inSwaps⟩
    rw [swapsAt] at inSwaps
    split at inSwaps
    case isTrue =>
        cases List.mem_singleton.mp inSwaps
        exact ⟨rfl, rfl⟩
    case isFalse => cases inSwaps
  refine ⟨trace, last, [Social.pair 1 2], run, ?_, ?_⟩
  · intro handle generation member
    rcases swapped handle generation member with ⟨rfl, rfl⟩
    exact ⟨rfl, built_iff.mpr ⟨0, rfl⟩⟩
  · rintro ⟨frozen, out', served, returns, same⟩
    have inFrozen : Social.pair 1 2 ∈ out' := (same _).mp List.mem_cons_self
    have valid : SchemaValidator.violations annKnowsBob Social.schema = [] := by decide
    have reached := (execute_sound Social.single (deployment Social.single) frozen
      (wellScoped_of_plan valid annKnowsBob_shape) annKnowsBob.returns).ok
        returns _ inFrozen
    rw [List.append_nil] at reached
    rcases served onlyHandle with initial | installed
    · have old : frozen onlyHandle = beforeMeeting.generation Social.single
          { val := 0 } 0 :=
        initial
      exact not_reached_of_frozen (servedBy_onlyHandle old) (.inl rfl) _ reached
    · have new : frozen onlyHandle = afterRenaming.generation Social.single
          { val := 0 } 0 :=
        (swapped _ _ installed).2
      exact not_reached_of_frozen (servedBy_onlyHandle new) (.inr rfl) _ reached

end

end GraphEngine
