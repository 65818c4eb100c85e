/-
Module: GraphEngine.Proofs.Execute
Layer: Proofs
Purpose: The scatter-gather executor refines the denotation of plans.  With
  frozen generations a well-scoped plan returns exactly the bindings that the
  cluster's view reaches, in some order, and it fails exactly when an anti-join
  refers to an alias that a binding reaching it does not bind.
Trusted boundary: none
Main exports: WellScoped, Fails, runStep_meets, execute_meets, MayKeep,
  FrontierAfter, frontierAfter_iff
-/
import GraphEngine.Proofs.AntiJoin

namespace GraphEngine

open ScatterGatherExecutor

/-! ### Scoping -/

/-- The aliases that a step reads are among those bound. -/
def StepScoped (bound : List String) : PlanStep → Prop
  | .expandHop step => step.fromAlias ∈ bound
  | .antiJoin step => step.fromAlias ∈ bound ∧ step.toAlias ∈ bound
  | .resolveStart _ | .resolveAll _ => False

/-- A plan begins by resolving, and every later step reads only aliases bound
before it. -/
structure WellScoped (start : PlanStep) (steps : List PlanStep) : Prop where
  isStart : start.IsStart
  stepScoped : ∀ done step later, steps = done ++ step :: later →
    StepScoped ((start :: done).flatMap PlanStep.nodeAliases) step

/-- A well-scoped plan, cut off anywhere. -/
theorem WellScoped.before {start : PlanStep} {done later : List PlanStep}
    (wellScoped : WellScoped start (done ++ later)) : WellScoped start done where
  isStart := wellScoped.isStart
  stepScoped earlier step rest split := by
    apply wellScoped.stepScoped earlier step (rest ++ later)
    rw [split, List.append_assoc, List.cons_append]

section Execution

variable [Chrono]

/-- An anti-join refers to an alias that a binding reaching it does not bind. -/
def Fails (V : GraphView) (start : PlanStep) (steps : List PlanStep) : Prop :=
  ∃ done step later b, steps = done ++ .antiJoin step :: later ∧
    Reached V (Keep V) start done b ∧
    Lacking step b

/-- An anti-join refers to the alias `x`, which a binding reaching it does not
bind. -/
def FailsOn (V : GraphView) (start : PlanStep) (steps : List PlanStep) (x : String) :
    Prop :=
  ∃ done step later b, steps = done ++ .antiJoin step :: later ∧
    Reached V (Keep V) start done b ∧
    Lacks step b x

/-- The start of a plan does not fail. -/
theorem not_fails_nil (V : GraphView) (start : PlanStep) : ¬ Fails V start [] := by
  rintro ⟨done, step, later, b, split, -⟩
  simp at split

/-- A plan fails in an earlier step or in the last one. -/
theorem fails_append_iff {V : GraphView} {start : PlanStep} {steps : List PlanStep}
    {step : PlanStep} :
    Fails V start (steps ++ [step]) ↔ Fails V start steps ∨
      ∃ antiJoin b, step = .antiJoin antiJoin ∧ Reached V (Keep V) start steps b ∧
        Lacking antiJoin b := by
  constructor
  · rintro ⟨done, antiJoin, later, b, split, reached, lacking⟩
    rcases List.eq_nil_or_concat later with rfl | ⟨earlier, last, rfl⟩
    · obtain ⟨rfl, same⟩ := List.append_inj' split rfl
      cases same
      exact .inr ⟨antiJoin, b, rfl, reached, lacking⟩
    · rw [List.concat_eq_append, ← List.cons_append, ← List.append_assoc] at split
      obtain ⟨rfl, -⟩ := List.append_inj' split rfl
      exact .inl ⟨done, antiJoin, earlier, b, rfl, reached, lacking⟩
  · rintro (⟨done, antiJoin, later, b, rfl, reached, lacking⟩ | ⟨antiJoin, b, rfl,
        reached, lacking⟩)
    · exact ⟨done, antiJoin, later ++ [step], b, by simp, reached, lacking⟩
    · exact ⟨steps, antiJoin, [], b, rfl, reached, lacking⟩

/-- What fails after some steps has failed after all. -/
theorem FailsOn.append {V : GraphView} {start : PlanStep}
    {done later : List PlanStep} {x : String} (fails : FailsOn V start done x) :
    FailsOn V start (done ++ later) x := by
  obtain ⟨before, step, after, b, rfl, reached, lacks⟩ := fails
  exact ⟨before, step, after ++ later, b, by simp, reached, lacks⟩

/-- Whether an outer alias is missing does not depend on the binding reached. -/
theorem lacking_of_reached {V : GraphView} {keep : AntiJoinStep → Binding → Prop}
    {start : PlanStep} {steps : List PlanStep} {a b : Binding}
    (reachedA : Reached V keep start steps a)
    (reachedB : Reached V keep start steps b) {step : AntiJoinStep}
    (lacking : Lacking step a) : Lacking step b := by
  obtain ⟨condition, member, notEdge, notNode⟩ := lacking
  obtain ⟨nodesA, edgesA⟩ := reachedA.aliases condition.outer.aliasName
  obtain ⟨nodesB, edgesB⟩ := reachedB.aliases condition.outer.aliasName
  exact ⟨condition, member, by rwa [edgesB, ← edgesA], by rwa [nodesB, ← nodesA]⟩

/-- All bindings reached bind the outer aliases of an anti-join alike. -/
theorem aliasesAs_of_reached {V : GraphView} {keep : AntiJoinStep → Binding → Prop}
    {start : PlanStep} {steps : List PlanStep} {a b : Binding}
    (reachedA : Reached V keep start steps a)
    (reachedB : Reached V keep start steps b) (step : AntiJoinStep) :
    AliasesAs a b step := by
  intro condition _
  rw [(reachedB.aliases condition.outer.aliasName).2,
    (reachedA.aliases condition.outer.aliasName).2]

/-! ### One step -/

variable (hasher : Partitioning) (partitions : PartitionMap)
variable (serve : GenerationHandle → IndexGeneration)

/-- What the frontier holds after some steps, when they succeeded. -/
def FrontierSpec (V : GraphView) (start : PlanStep) (done : List PlanStep)
    (frontier : List Binding) : Prop :=
  (∀ b, b ∈ frontier ↔ Reached V (Keep V) start done b) ∧ ¬ Fails V start done

/-- An anti-join over the bindings reached keeps those that the view keeps. -/
theorem antiJoinStep_meets {start : PlanStep} {done : List PlanStep}
    {frontier : List Binding} {step : AntiJoinStep}
    (agree : (clusterView hasher (servingOf partitions serve)).EdgesAgree)
    (inScope : StepScoped ((start :: done).flatMap PlanStep.nodeAliases)
      (.antiJoin step))
    (spec : FrontierSpec
      (clusterView hasher (servingOf partitions serve)) start done frontier) :
    ((inProcess hasher).executeAntiJoin partitions step frontier).Meets serve
      (FrontierSpec (clusterView hasher (servingOf partitions serve)) start
        (done ++ [.antiJoin step]))
      (fun _ => Fails (clusterView hasher (servingOf partitions serve)) start
        (done ++ [.antiJoin step])) := by
  obtain ⟨reached, fine⟩ := spec
  have anchored : ∀ b ∈ frontier, Anchored step b := by
    intro b member
    have aliases := fun x => (((reached b).mp member).aliases x).1
    exact ⟨(aliases _).mpr inScope.1, (aliases _).mpr inScope.2⟩
  refine (executeAntiJoin_meets hasher partitions serve step frontier).mono ?_ ?_
  · rintro out ⟨hydrated, guarantee, kept⟩
    have decided : ∀ b ∈ frontier, ¬ Lacking step b ∧
        (keepWith hasher (servingOf partitions serve) hydrated step b = true ↔
          Keep (clusterView hasher (servingOf partitions serve)) step b) := by
      intro b member
      cases frontier with
      | nil => cases member
      | cons sample rest =>
          obtain ⟨bound, hydrates⟩ := guarantee sample rfl
          have reachedSample := (reached sample).mp List.mem_cons_self
          have reachedB := (reached b).mp member
          exact ⟨fun lacking => bound (lacking_of_reached reachedB reachedSample lacking),
            keepWith_iff rfl rfl hydrates agree member
              (aliasesAs_of_reached reachedSample reachedB step)⟩
    refine ⟨fun b => ?_, ?_⟩
    · rw [kept.mem_iff, List.mem_filter, reached_append]
      constructor
      · rintro ⟨member, survives⟩
        exact ⟨(reached b).mp member, (decided b member).2.mp survives⟩
      · rintro ⟨earlier, keep⟩
        have member := (reached b).mpr earlier
        exact ⟨member, (decided b member).2.mpr keep⟩
    · rw [fails_append_iff]
      rintro (earlier | ⟨_, b, ⟨⟩, reachedB, lacking⟩)
      · exact fine earlier
      · exact (decided b ((reached b).mpr reachedB)).1 lacking
  · rintro fault (⟨sample, head, lacking⟩ | ⟨b, member, unanchored⟩)
    · have member : sample ∈ frontier := List.mem_of_mem_head? head
      exact fails_append_iff.mpr
        (.inr ⟨step, sample, rfl, (reached sample).mp member, lacking⟩)
    · exact absurd (anchored b member) unanchored

/-- One step of a plan after the first. -/
theorem runStep_meets {start : PlanStep} {done : List PlanStep}
    {frontier : List Binding} {step : PlanStep}
    (agree : (clusterView hasher (servingOf partitions serve)).EdgesAgree)
    (inScope : StepScoped ((start :: done).flatMap PlanStep.nodeAliases) step)
    (spec : FrontierSpec
      (clusterView hasher (servingOf partitions serve)) start done frontier) :
    ((inProcess hasher).runStep partitions frontier step).Meets serve
      (FrontierSpec (clusterView hasher (servingOf partitions serve)) start
        (done ++ [step]))
      (fun _ => Fails (clusterView hasher (servingOf partitions serve)) start
        (done ++ [step])) := by
  cases step with
  | resolveStart step => exact inScope.elim
  | resolveAll step => exact inScope.elim
  | antiJoin step => exact antiJoinStep_meets hasher partitions serve agree inScope spec
  | expandHop step =>
      obtain ⟨reached, fine⟩ := spec
      refine (expandStep_meets hasher partitions serve step frontier).mono ?_ ?_
      · intro out expanded
        refine ⟨fun b => ?_, ?_⟩
        · rw [expanded, reached_append]
          exact exists_congr fun a => and_congr_left fun _ => reached a
        · rw [fails_append_iff]
          rintro (earlier | ⟨_, _, impossible, _⟩)
          · exact fine earlier
          · cases impossible
      · rintro fault ⟨b, member, unbound⟩
        exact absurd ((((reached b).mp member).aliases _).1.mpr inScope) unbound

/-! ### The whole plan -/

omit hasher serve in
/-- A plan is run by resolving its start and then folding its steps over the
frontier. -/
theorem execute_eq (executor : ScatterGatherExecutor) {start : PlanStep}
    (isStart : start.IsStart) (steps : List PlanStep) (project : List ReturnItem) :
    executor.execute partitions ⟨start :: steps, project⟩ =
      (executor.broadcastResolve partitions start >>= fun frontier =>
        steps.foldlM (executor.runStep partitions) frontier >>= fun frontier =>
          pure (dedup frontier)) := by
  cases start with
  | resolveStart step => rfl
  | resolveAll step => rfl
  | expandHop step => exact isStart.elim
  | antiJoin step => exact isStart.elim

/-- The executor, with every generation frozen, computes what the plan denotes
over the cluster's view. -/
theorem execute_meets {start : PlanStep} {steps : List PlanStep}
    (wellScoped : WellScoped start steps)
    (agree : (clusterView hasher (servingOf partitions serve)).EdgesAgree)
    (project : List ReturnItem) :
    ((inProcess hasher).execute partitions ⟨start :: steps, project⟩).Meets serve
      (FrontierSpec (clusterView hasher (servingOf partitions serve)) start steps)
      (fun _ => Fails (clusterView hasher (servingOf partitions serve)) start steps) := by
  rw [execute_eq partitions _ wellScoped.isStart]
  refine Client.Meets.bind
    (broadcastResolve_meets hasher partitions serve wellScoped.isStart)
    fun frontier started => ?_
  refine Client.Meets.bind (Client.Meets.foldlM
    (I := FrontierSpec (clusterView hasher (servingOf partitions serve)) start) steps
    ⟨started, not_fails_nil _ start⟩ ?_) ?_
  · intro visited step later acc split spec
    refine (runStep_meets hasher partitions serve agree
      (wellScoped.stepScoped visited step later split) spec).mono
      (fun _ post => post) ?_
    rintro fault ⟨done, antiJoin, later', b, inner, reached, lacking⟩
    refine ⟨done, antiJoin, later' ++ later, b, ?_, reached, lacking⟩
    rw [split, List.append_cons, inner, List.append_assoc, List.cons_append]
  · rintro out ⟨reached, fine⟩
    refine Client.Meets.pure ⟨fun b => ?_, fine⟩
    rw [mem_dedup, reached]

/-! ### The bindings that may come -/

/-- The anti-join may keep a binding: it does where the partitions are asked for
the edges of outer conditions in some order. -/
def MayKeep (step : AntiJoinStep) (b : Binding) : Prop :=
  ∃ order, order.Perm partitions.replicasByPartition.keys ∧
    Keep (searchView hasher (servingOf partitions serve) order) step b

omit [Chrono] in
/-- An alias with properties is bound. -/
theorem boundProperties_bound {V : GraphView} {b : Binding} {x : String}
    {properties : Properties} (found : BoundProperties V b x properties) :
    x ∈ b.edges ∨ x ∈ b.nodes := by
  cases found with
  | edge bound => exact .inl ((b.mem_edges_iff x).mpr ⟨_, bound⟩)
  | node _ bound => exact .inr ((b.mem_nodes_iff x).mpr ⟨_, bound⟩)

omit [Chrono] in
/-- A binding that lacks an outer alias does not resolve. -/
theorem not_lacking_of_resolved {V : GraphView} {step : AntiJoinStep} {b : Binding}
    {resolved : List PropertyFilter}
    (related : List.Forall₂ (ResolvesTo V b) step.outerConditions resolved) :
    ¬ Lacking step b := by
  rintro ⟨condition, member, notEdge, notNode⟩
  rcases (forall₂_partner related).2 condition member with ⟨_, _, _, _, _, found, _⟩
  rcases boundProperties_bound found with inEdges | inNodes
  · exact notEdge inEdges
  · exact notNode inNodes

/-- The frontiers that a run of a plan can have when its first steps are done. -/
def FrontierAfter (start : PlanStep) (done : List PlanStep)
    (frontier : List Binding) : Prop :=
  ((inProcess hasher).broadcastResolve partitions start >>= fun first =>
    done.foldlM ((inProcess hasher).runStep partitions) first).Returns serve
      (.ok frontier)

variable {hasher partitions serve} {start : PlanStep} {done : List PlanStep}
variable {step : PlanStep}
variable {frontier : List Binding}

/-- One step more. -/
theorem frontierAfter_snoc {out : List Binding} :
    FrontierAfter hasher partitions serve start (done ++ [step]) out ↔
      ∃ frontier, FrontierAfter hasher partitions serve start done frontier ∧
        ((inProcess hasher).runStep partitions frontier step).Returns serve
          (.ok out) := by
  have split : ((inProcess hasher).broadcastResolve partitions start >>= fun first =>
      (done ++ [step]).foldlM ((inProcess hasher).runStep partitions) first) =
      ((inProcess hasher).broadcastResolve partitions start >>= fun first =>
        done.foldlM ((inProcess hasher).runStep partitions) first) >>=
        fun frontier => (inProcess hasher).runStep partitions frontier step := by
    simp only [List.foldlM_append, List.foldlM_cons, List.foldlM_nil, bind_pure,
      bind_assoc]
  rw [FrontierAfter, split, Client.returns_bind_iff]
  constructor
  · rintro (found | ⟨_, _, ⟨⟩⟩)
    exact found
  · exact .inl

/-- What an anti-join does to bindings reached, when the edges are found in some
order. -/
theorem kept_iff {antiJoin : AntiJoinStep} {keep : AntiJoinStep → Binding → Prop}
    (sound : ∀ b ∈ frontier,
      Reached (clusterView hasher (servingOf partitions serve)) keep start done b)
    {order : List PartitionId} {hydrated : ScatterGatherExecutor.Hydrated}
    (guarantee : ∀ sample ∈ frontier.head?, ¬ Lacking antiJoin sample ∧
      Hydrates (searchView hasher (servingOf partitions serve) order) antiJoin
      sample frontier hydrated) {b : Binding} (member : b ∈ frontier) :
    keepWith hasher (servingOf partitions serve) hydrated antiJoin b = true ↔
      Keep (searchView hasher (servingOf partitions serve) order) antiJoin b := by
  cases frontier with
  | nil => cases member
  | cons sample rest =>
      have aliases := aliasesAs_of_reached (sound sample List.mem_cons_self)
        (sound b member) antiJoin
      exact keepWith_iff rfl rfl (guarantee sample rfl).2
        (searchView_edgesAgree _ _ _) member aliases

variable (hasher partitions serve)

/-- One step, from bindings that may come to bindings that may come. -/
theorem runStep_sound (notStart : ¬ step.IsStart)
    (sound : ∀ b ∈ frontier, Reached (clusterView hasher (servingOf partitions serve))
      (MayKeep hasher partitions serve) start done b) :
    ((inProcess hasher).runStep partitions frontier step).Meets serve
      (fun out => ∀ b ∈ out, Reached (clusterView hasher (servingOf partitions serve))
        (MayKeep hasher partitions serve) start (done ++ [step]) b)
      (fun _ => True) := by
  cases step with
  | resolveStart step => exact absurd trivial notStart
  | resolveAll step => exact absurd trivial notStart
  | antiJoin step =>
      refine (executeAntiJoin_meetsBy hasher partitions serve step
        frontier).sound.mono ?_ fun _ _ => trivial
      rintro out ⟨order, perm, hydrated, guarantee, kept⟩ b member
      rw [kept.mem_iff, List.mem_filter] at member
      rw [reached_append]
      exact ⟨sound b member.1, order, perm,
        (kept_iff sound guarantee member.1).mp member.2⟩
  | expandHop step =>
      refine (expandStep_meets hasher partitions serve step frontier).mono ?_
        fun _ _ => trivial
      intro out expanded b member
      rcases (expanded b).mp member with ⟨a, inFrontier, related⟩
      rw [reached_append]
      exact ⟨a, sound a inFrontier, related⟩

/-- Whatever the tables are like, the bindings of a frontier are among those
that may come. -/
theorem steps_sound {steps : List PlanStep} (wellScoped : WellScoped start steps) :
    ((inProcess hasher).broadcastResolve partitions start >>= fun first =>
      steps.foldlM ((inProcess hasher).runStep partitions) first).Meets serve
      (fun out => ∀ b ∈ out, Reached (clusterView hasher (servingOf partitions serve))
        (MayKeep hasher partitions serve) start steps b)
      (fun _ => True) := by
  refine Client.Meets.bind
    (broadcastResolve_meets hasher partitions serve wellScoped.isStart)
    fun frontier started => ?_
  refine Client.Meets.foldlM
    (I := fun done frontier =>
      ∀ b ∈ frontier, Reached (clusterView hasher (servingOf partitions serve))
      (MayKeep hasher partitions serve) start done b)
    steps (fun b member => (started b).mp member) ?_
  intro visited step later acc split sound
  refine runStep_sound hasher partitions serve ?_ sound
  intro isStart
  have inScope := wellScoped.stepScoped visited step later split
  cases step with
  | resolveStart step => exact inScope
  | resolveAll step => exact inScope
  | expandHop step => exact isStart
  | antiJoin step => exact isStart

/-- One step can lead to every binding that it may lead to. -/
theorem runStep_possible
    (inScope : StepScoped ((start :: done).flatMap PlanStep.nodeAliases) step)
    (sound : ∀ b ∈ frontier, Reached (clusterView hasher (servingOf partitions
          serve)) (MayKeep hasher partitions serve) start done b) {b : Binding}
    (follows : StepImage (clusterView hasher (servingOf partitions serve))
      (MayKeep hasher partitions serve) step (· ∈ frontier) b) :
    ∃ out, ((inProcess hasher).runStep partitions frontier step).Returns serve
      (.ok out) ∧ b ∈ out := by
  cases step with
  | resolveStart step => exact inScope.elim
  | resolveAll step => exact inScope.elim
  | expandHop step =>
      rcases Client.exists_returns serve
        ((inProcess hasher).runStep partitions frontier (.expandHop step)) with
        ⟨outcome, returns⟩
      cases outcome with
      | ok out =>
          exact ⟨out, returns, ((expandStep_meets hasher partitions serve step
                frontier).ok returns b).mpr follows⟩
      | error fault =>
          rcases (expandStep_meets hasher partitions serve step frontier).error
            returns with ⟨a, member, unbound⟩
          exact absurd (((sound a member).aliases _).1.mpr inScope) unbound
  | antiJoin step =>
      rcases follows with ⟨member, order, perm, keep⟩
      have meets := executeAntiJoin_meetsBy hasher partitions serve step frontier
      rcases meets.possible order perm
        with ⟨out, returns, hydrated, guarantee, kept⟩ | ⟨fault, fails⟩
      · refine ⟨out, returns, ?_⟩
        rw [kept.mem_iff, List.mem_filter]
        exact ⟨member, (kept_iff sound guarantee member).mpr keep⟩
      · rcases meets.sound.error fails
          with ⟨sample, first, lacking⟩ | ⟨a, inFrontier, unanchored⟩
        · have sampled := sound sample (List.mem_of_mem_head? first)
          rcases keep with ⟨_, _, _, _, _, _, related, _⟩
          exact absurd (lacking_of_reached sampled (sound b member) lacking)
            (not_lacking_of_resolved related)
        · have aliases := fun x => ((sound a inFrontier).aliases x).1
          exact absurd ⟨(aliases _).mpr inScope.1, (aliases _).mpr inScope.2⟩ unanchored

/-- The bindings that come after some steps of a plan, in one run or another,
are those that the tables served lead to. -/
theorem frontierAfter_iff {steps : List PlanStep}
    (wellScoped : WellScoped start steps) {b : Binding} :
    (∃ frontier, FrontierAfter hasher partitions serve start steps frontier ∧
      b ∈ frontier) ↔
      Reached (clusterView hasher (servingOf partitions serve))
        (MayKeep hasher partitions serve) start
        steps b := by
  constructor
  · rintro ⟨frontier, comes, member⟩
    exact (steps_sound hasher partitions serve wellScoped).ok comes b member
  · intro reached
    induction steps using List.reverseRecOn generalizing b with
    | nil =>
        rcases (broadcastResolve_safe hasher partitions serve
          wellScoped.isStart).exists_ok with
          ⟨frontier, started, content⟩
        refine ⟨frontier, ?_, (content b).mpr reached⟩
        exact Client.returns_bind_iff.mpr (.inl ⟨frontier, started, .done _⟩)
    | append_singleton done step inductionHypothesis =>
        rw [reached_append] at reached
        have inScope := wellScoped.stepScoped done step [] rfl
        -- the binding before the step comes in some run, and the step can lead
        -- from it to this one
        have before : ∃ frontier,
            FrontierAfter hasher partitions serve start done frontier ∧
            StepImage (clusterView hasher (servingOf partitions serve))
              (MayKeep hasher partitions serve)
              step (· ∈ frontier) b := by
          cases step with
          | resolveStart step => exact inScope.elim
          | resolveAll step => exact inScope.elim
          | expandHop step =>
              rcases reached with ⟨a, earlier, related⟩
              rcases inductionHypothesis wellScoped.before earlier
                with ⟨frontier, comes, member⟩
              exact ⟨frontier, comes, a, member, related⟩
          | antiJoin step =>
              rcases inductionHypothesis wellScoped.before reached.1
                with ⟨frontier, comes, member⟩
              exact ⟨frontier, comes, member, reached.2⟩
        rcases before with ⟨frontier, comes, follows⟩
        have sound := (steps_sound hasher partitions serve wellScoped.before).ok comes
        rcases runStep_possible hasher partitions serve inScope sound follows
          with ⟨out, returns, member⟩
        exact ⟨out, frontierAfter_snoc.mpr ⟨frontier, comes, returns⟩, member⟩

/-- Whatever the tables are like, a binding returned started at the start step
and made every hop. -/
theorem execute_sound {start : PlanStep} {steps : List PlanStep}
    (wellScoped : WellScoped start steps) (project : List ReturnItem) :
    ((inProcess hasher).execute partitions ⟨start :: steps, project⟩).Meets serve
      (fun out => ∀ b ∈ out,
        Reached (clusterView hasher (servingOf partitions serve))
          (fun _ _ => True) start steps b)
      (fun _ => True) := by
  rw [execute_eq partitions _ wellScoped.isStart, ← bind_assoc]
  refine Client.Meets.bind (steps_sound hasher partitions serve wellScoped)
    fun out sound => ?_
  refine Client.Meets.pure fun b member => ?_
  rw [mem_dedup] at member
  exact (sound b member).unfiltered

end Execution

end GraphEngine
