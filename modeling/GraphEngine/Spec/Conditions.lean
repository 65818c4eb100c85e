/-
Module: GraphEngine.Spec.Conditions
Layer: Spec
Purpose: What a condition says.  An environment gives aliases the properties of
  what they are bound to; a literal condition filters them, a comparison of two
  properties compares the values found, and the edge of a subquery shadows the
  aliases around it.
Trusted boundary: none
Main exports: valueOrdering, valuesMatch, valuesMatch_flip, Environment,
  ConditionHolds
-/
import GraphEngine.Model.DistributedExecutor
import GraphEngine.Model.Planner

namespace GraphEngine

section Values

variable [Chrono]

/-! ### Comparing two stored values -/

/-- How two stored values compare; a text compares with a timestamp as the
instant that it denotes. -/
def valueOrdering (v w : PropertyValue) : Option Ordering :=
  match v, w with
  | .int64 v, .int64 w => some (compare v w)
  | .float64 v, .float64 w => v.partialCmp w
  | .bool v, .bool w => some (compare v w)
  | .string v, .string w => some (compare v w)
  | .timestamp v, .timestamp w => some (compare v w)
  | .timestamp v, .string w =>
      (Chrono.parseRfc3339Micros w).map fun parsed => compare v parsed
  | .string v, .timestamp w =>
      (Chrono.parseRfc3339Micros v).map fun parsed => compare parsed w
  | _, _ => none

/-- Two values compared as a condition between properties asks for. -/
def valuesMatch (v : PropertyValue) (op : ComparisonOp) (w : PropertyValue) : Bool :=
  match valueOrdering v w with
  | some ordering => op.accepts ordering
  | none => false

/-- On a value that has a literal, the comparison is the one of filters. -/
theorem valuesMatch_literal {w : PropertyValue} {literal : Literal}
    (turned : propertyValueToLiteral w = some literal) (v : PropertyValue)
    (op : ComparisonOp) : valuesMatch v op w = literalMatches v op literal := by
  have same : valueOrdering v w = literalOrdering v literal := by
    cases w <;> simp only [propertyValueToLiteral, Option.some.injEq,
      reduceCtorEq] at turned <;>
      subst turned <;> cases v <;> rfl
  cases ordered : literalOrdering v literal with
  | none => simp only [valuesMatch, literalMatches, same, ordered]
  | some ordering => simp only [valuesMatch, literalMatches, same, ordered]

omit [Chrono] in
/-- Numbers compare the other way once they are exchanged. -/
theorem F64.partialCmp_swap (v w : F64) :
    w.partialCmp v = (v.partialCmp w).map Ordering.swap := by
  have swapped : compare w.position v.position = (compare v.position w.position).swap :=
    Std.OrientedCmp.eq_swap
  rw [F64.partialCmp, F64.partialCmp, Bool.or_comm]
  split
  · rfl
  · rw [Option.map_some, swapped]

/-- Values compare the other way once they are exchanged. -/
theorem valueOrdering_swap (v w : PropertyValue) :
    valueOrdering w v = (valueOrdering v w).map Ordering.swap := by
  have swap : ∀ {α : Type} [Ord α] [Std.OrientedOrd α] (a b : α),
      compare b a = (compare a b).swap :=
    fun a b => Std.OrientedCmp.eq_swap
  cases v <;> cases w <;> first
    | rfl
    | exact congrArg some (swap _ _)
    | exact F64.partialCmp_swap _ _
    | (simp only [valueOrdering, Option.map_map]
       congr 1
       funext parsed
       exact swap _ _)

omit [Chrono] in
/-- A comparison turned around accepts the order turned around. -/
theorem accepts_flipOp (op : ComparisonOp) (ordering : Ordering) :
    (flipOp op).accepts ordering.swap = op.accepts ordering := by
  cases op <;> cases ordering <;> rfl

/-- Exchanging the operands flips the operator. -/
theorem valuesMatch_flip (v w : PropertyValue) (op : ComparisonOp) :
    valuesMatch w (flipOp op) v = valuesMatch v op w := by
  rw [valuesMatch, valuesMatch, valueOrdering_swap v w]
  cases valueOrdering v w with
  | none => rfl
  | some ordering => exact accepts_flipOp op ordering

end Values

/-! ### Conditions -/

/-- The properties of what each alias is bound to. -/
abbrev Environment := String → Option Properties

/-- The environment inside a subquery whose edge, if it has an alias, is bound
to `edge`. -/
def Environment.shadow (outer : Environment) (innerAlias : Option String)
    (edge : Properties) : Environment :=
  fun x => if some x = innerAlias then some edge else outer x

/-- The value of `alias.property`. -/
def Environment.value (environment : Environment) (ref : PropertyRef) :
    Option PropertyValue :=
  (environment ref.aliasName).bind fun properties => properties[ref.property]?

/-- The subquery's alias stands for its edge. -/
@[simp] theorem Environment.shadow_inner (outer : Environment)
    {innerAlias : Option String} {x : String} (inner : some x = innerAlias)
    (edge : Properties) : outer.shadow innerAlias edge x = some edge :=
  if_pos inner

/-- The other aliases stand for what they stood for. -/
@[simp] theorem Environment.shadow_outer (outer : Environment)
    {innerAlias : Option String} {x : String} (notInner : ¬ some x = innerAlias)
    (edge : Properties) : outer.shadow innerAlias edge x = outer x :=
  if_neg notInner

/-- The edge's value of a property of its alias. -/
theorem Environment.value_shadow_inner (outer : Environment)
    {innerAlias : Option String} {ref : PropertyRef}
    (inner : some ref.aliasName = innerAlias) (edge : Properties) :
    (outer.shadow innerAlias edge).value ref = edge[ref.property]? := by
  rw [Environment.value, Environment.shadow_inner outer inner]
  rfl

/-- A reference to another alias has the value it had. -/
theorem Environment.value_shadow_outer (outer : Environment)
    {innerAlias : Option String} {ref : PropertyRef}
    (notInner : ¬ some ref.aliasName = innerAlias) (edge : Properties) :
    (outer.shadow innerAlias edge).value ref = outer.value ref := by
  rw [Environment.value, Environment.shadow_outer outer notInner]
  rfl

variable [Chrono]

/-- Two property references compare as asked, each under its own environment. -/
def ComparisonHolds (left right : Environment) (l : PropertyRef) (op : ComparisonOp)
    (r : PropertyRef) : Prop :=
  ∃ v w, left.value l = some v ∧ right.value r = some w ∧ valuesMatch v op w = true

/-- A literal condition or a comparison of properties, the right operand of a
comparison under its own environment.  The other two conditions say nothing
about properties. -/
def ConditionHolds (left right : Environment) : WhereCondition → Prop
  | .property aliasName filter =>
      ∃ properties, left aliasName = some properties ∧
        evaluateFilter properties filter = true
  | .propertyComparison l op r => ComparisonHolds left right l op r
  | .aliasComparison _ _ _ => True
  | .notExists _ => True

end GraphEngine
