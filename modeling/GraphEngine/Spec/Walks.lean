/-
Module: GraphEngine.Spec.Walks
Layer: Spec
Purpose: What the rounds of a hop amount to.  Without an edge alias they rebind
  the target to the ends of the walks of an accepted length; a single hop is one
  edge further.
Trusted boundary: none
Main exports: EdgeWalk, EdgeWalk.through, HopWalk.through, hopReaches_walk_iff,
  hopReaches_unaliased_iff, hopReaches_single_iff
-/
import GraphEngine.Spec.GraphView

namespace GraphEngine

/-! ### Walks -/

/-- A walk of exactly `length` edges of a type, in a direction. -/
def EdgeWalk (V : GraphView) (direction : Direction) (edgeType : Option String) :
    (length : Nat) → NodeId → NodeId → Prop
  | 0, u, v => v = u
  | length + 1, u, v => ∃ w, EdgeWalk V direction edgeType length u w ∧
      ∃ t e, V.adjacent direction w t e v ∧ TypeAllows edgeType t

/-- A walk passes through every shorter length. -/
theorem EdgeWalk.through {V : GraphView} {direction : Direction}
    {edgeType : Option String} {length : Nat} (more : Nat) {u v : NodeId}
    (walk : EdgeWalk V direction edgeType (length + more) u v) :
    ∃ w, EdgeWalk V direction edgeType length u w := by
  induction more generalizing v with
  | zero => exact ⟨v, walk⟩
  | succ more inductionHypothesis =>
      obtain ⟨w, earlier, -⟩ := walk
      exact inductionHypothesis earlier

/-- A longer walk passes through every depth before its end. -/
theorem HopWalk.through {V : GraphView} {step : ExpandHop} {depth : Nat} (more : Nat)
    {b b' : Binding} (walk : HopWalk V step (depth + more) b b') :
    ∃ mid, HopWalk V step depth b mid := by
  induction more generalizing b' with
  | zero => exact ⟨b', walk⟩
  | succ more inductionHypothesis =>
      obtain ⟨mid, earlier, -⟩ := walk
      exact inductionHypothesis earlier

/-! ### Rounds and walks -/

/-- Binding an alias again forgets the first binding. -/
theorem bindNode_bindNode (b : Binding) (aliasName : String) (v w : NodeId) :
    (b.bindNode aliasName v).bindNode aliasName w = b.bindNode aliasName w := by
  refine Binding.ext_parts (Std.ExtTreeMap.ext_getElem? fun x => ?_) rfl
  simp only [Binding.bindNode_nodes]
  split <;> rfl

section Walks

variable {V : GraphView} {step : ExpandHop}

/-- Without an edge alias, the rounds up to a depth rebind the target to the end
of a walk of that length. -/
theorem hopWalk_unaliased_iff (unaliased : step.edgeAlias = none) {depth : Nat}
    {b b' : Binding} :
    HopWalk V step (depth + 1) b b' ↔ ∃ u v, b.nodes[step.fromAlias]? = some u ∧
      EdgeWalk V step.direction step.edgeType (depth + 1) u v ∧
        b' = b.bindNode step.toAlias v := by
  have noAlias : ∀ cursor d,
      (ScatterGatherExecutor.roundStep step cursor d).edgeAlias = none := by
    intro cursor d
    simp only [ScatterGatherExecutor.roundStep, unaliased, ite_self]
  induction depth generalizing b' with
  | zero =>
      constructor
      · rintro ⟨mid, rfl, u, t, e, v, bound, adjacent, typed, rfl⟩
        refine ⟨u, v, bound, ⟨u, rfl, t, e, adjacent, typed⟩, ?_⟩
        rw [noAlias]
        rfl
      · rintro ⟨u, v, bound, ⟨w, rfl, t, e, adjacent, typed⟩, rfl⟩
        refine ⟨b, rfl, w, t, e, v, bound, adjacent, typed, ?_⟩
        rw [noAlias]
        rfl
  | succ depth inductionHypothesis =>
      constructor
      · rintro ⟨mid, earlier, w, t, e, v, boundW, adjacent, typed, rfl⟩
        obtain ⟨u, w', bound, walk, rfl⟩ := inductionHypothesis.mp earlier
        have cursor : (b.bindNode step.toAlias w').nodes[step.toAlias]? = some w := boundW
        simp only [Binding.bindNode_nodes, if_true, Option.some.injEq] at cursor
        subst cursor
        refine ⟨u, v, bound, ⟨w', walk, t, e, adjacent, typed⟩, ?_⟩
        rw [noAlias]
        exact bindNode_bindNode b step.toAlias w' v
      · rintro ⟨u, v, bound, ⟨w, walk, t, e, adjacent, typed⟩, rfl⟩
        refine ⟨b.bindNode step.toAlias w,
          inductionHypothesis.mpr ⟨u, w, bound, walk, rfl⟩, w, t, e, v, ?_,
          adjacent, typed, ?_⟩
        · show (b.bindNode step.toAlias w).nodes[step.toAlias]? = some w
          rw [Binding.bindNode_nodes, if_pos rfl]
        · rw [noAlias]
          exact (bindNode_bindNode b step.toAlias w v).symm

/-- Without an edge alias, a hop reaches the ends of the walks of at least one
edge and of an accepted length. -/
theorem hopReaches_walk_iff (unaliased : step.edgeAlias = none) {b b' : Binding} :
    HopReaches V step b b' ↔ ∃ u v l, b.nodes[step.fromAlias]? = some u ∧ 1 ≤ l ∧
      step.hops.min ≤ l ∧
      l ≤ step.hops.max ∧ EdgeWalk V step.direction step.edgeType l u v ∧
        b' = b.bindNode step.toAlias v := by
  constructor
  · rintro ⟨l, one, lower, upper, walk⟩
    obtain ⟨l, rfl⟩ := Nat.exists_eq_add_of_le' one
    obtain ⟨u, v, bound, walk, same⟩ := (hopWalk_unaliased_iff unaliased).mp walk
    exact ⟨u, v, l + 1, bound, one, lower, upper, walk, same⟩
  · rintro ⟨u, v, l, bound, one, lower, upper, walk, same⟩
    obtain ⟨l, rfl⟩ := Nat.exists_eq_add_of_le' one
    exact ⟨l + 1, one, lower, upper,
      (hopWalk_unaliased_iff unaliased).mpr ⟨u, v, bound, walk, same⟩⟩

/-- With a positive lower bound these are the walks of an accepted length. -/
theorem hopReaches_unaliased_iff (unaliased : step.edgeAlias = none)
    (positive : 1 ≤ step.hops.min) {b b' : Binding} :
    HopReaches V step b b' ↔ ∃ u v l, b.nodes[step.fromAlias]? = some u ∧
      step.hops.min ≤ l ∧ l ≤ step.hops.max ∧
        EdgeWalk V step.direction step.edgeType l u v ∧
      b' = b.bindNode step.toAlias v := by
  rw [hopReaches_walk_iff unaliased]
  constructor
  · rintro ⟨u, v, l, bound, -, rest⟩
    exact ⟨u, v, l, bound, rest⟩
  · rintro ⟨u, v, l, bound, lower, rest⟩
    exact ⟨u, v, l, bound, positive.trans lower, lower, rest⟩

/-- A single hop is one edge further, with or without an edge alias. -/
theorem hopReaches_single_iff (single : step.hops = ⟨1, 1⟩) {b b' : Binding} :
    HopReaches V step b b' ↔ HopOnce V step b b' := by
  have first : HopOnce V (ScatterGatherExecutor.roundStep step step.fromAlias 1) b b' ↔
      HopOnce V step b b' := Iff.rfl
  rw [← first]
  constructor
  · rintro ⟨l, one, -, upper, walk⟩
    rw [single] at upper
    obtain rfl : l = 1 := Nat.le_antisymm upper one
    obtain ⟨mid, rfl, once⟩ := walk
    exact once
  · intro once
    rw [HopReaches, single]
    exact ⟨1, le_refl 1, le_refl 1, le_refl 1, b, rfl, once⟩

end Walks

end GraphEngine
