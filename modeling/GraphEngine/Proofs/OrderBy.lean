/-
Module: GraphEngine.Proofs.OrderBy
Layer: Proofs
Purpose: When `ORDER BY` sorts.  The comparison of two values is a total
  preorder unless some value is incomparable with two others that differ; among
  values of one scalar type only a NaN is.  The direction reverses the combined
  order, so in descending order the rows without a value come first.
Trusted boundary: none
Main exports: MixedOrder, totalPreorderOn_values_iff, NullsLast, nullsLast_iff,
  SortsProperly, sortsProperly_iff
-/
import GraphEngine.Lib.ClientRules
import GraphEngine.Model.QueryService
import GraphEngine.Spec.Conditions
import GraphEngine.Spec.Dataset

namespace GraphEngine

open Client (Returns)
open GraphServiceImpl

/-! ### Values that have an order between them -/

/-- Two values of one ordered type.  A NaN and a list are comparable with
nothing. -/
inductive PropertyValue.Comparable : PropertyValue → PropertyValue → Prop where
  | int64 (v w : Int) : Comparable (.int64 v) (.int64 w)
  | float64 {v w : F64} (number : v.isNaN = false) (number' : w.isNaN = false)
      : Comparable (.float64 v) (.float64 w)
  | bool (v w : Bool) : Comparable (.bool v) (.bool w)
  | string (v w : String) : Comparable (.string v) (.string w)
  | timestamp (v w : Int) : Comparable (.timestamp v) (.timestamp w)
  | bytes (v w : List UInt8) : Comparable (.bytes v) (.bytes w)

/-- Being comparable is symmetric. -/
theorem PropertyValue.Comparable.symm {a b : PropertyValue}
    (comparable : a.Comparable b) : b.Comparable a := by
  cases comparable
  case int64 v w => exact .int64 w v
  case float64 v w number number' => exact .float64 number' number
  case bool v w => exact .bool w v
  case string v w => exact .string w v
  case timestamp v w => exact .timestamp w v
  case bytes v w => exact .bytes w v

/-- Being comparable is transitive. -/
theorem PropertyValue.Comparable.trans {a b c : PropertyValue}
    (first : a.Comparable b) (second : b.Comparable c) : a.Comparable c := by
  cases first
  case int64 v w => cases second; exact .int64 _ _
  case float64 v w number number' =>
    cases second with | float64 _ number'' => exact .float64 number number''
  case bool v w => cases second; exact .bool _ _
  case string v w => cases second; exact .string _ _
  case timestamp v w => cases second; exact .timestamp _ _
  case bytes v w => cases second; exact .bytes _ _

/-- Two numbers compare by their positions. -/
theorem F64.partialCmp_of_numbers {v w : F64} (number : v.isNaN = false)
    (number' : w.isNaN = false) :
    v.partialCmp w = some (compare v.position w.position) := by
  rw [F64.partialCmp, number, number', Bool.or_false, if_neg Bool.false_ne_true]

/-- Concrete values that are not comparable compare equal. -/
theorem compare_of_apart {a b : PropertyValue} (apart : ¬ a.Comparable b)
    (concreteA : a ≠ .null) (concreteB : b ≠ .null) :
    comparePropertyValues a b = .eq := by
  cases a <;> cases b
  case int64.int64 v w => exact absurd (.int64 v w) apart
  case bool.bool v w => exact absurd (.bool v w) apart
  case string.string v w => exact absurd (.string v w) apart
  case timestamp.timestamp v w => exact absurd (.timestamp v w) apart
  case bytes.bytes v w => exact absurd (.bytes v w) apart
  case float64.float64 v w =>
    have oneNaN : (v.isNaN || w.isNaN) = true := by
      by_contra numbers
      rw [Bool.not_eq_true, Bool.or_eq_false_iff] at numbers
      exact apart (.float64 numbers.1 numbers.2)
    rw [comparePropertyValues, F64.partialCmp, if_pos oneNaN]
    rfl
  all_goals first
    | rfl
    | exact absurd rfl concreteA
    | exact absurd rfl concreteB

/-- Exchanging the values reverses the comparison. -/
theorem compare_swap (a b : PropertyValue) :
    comparePropertyValues b a = (comparePropertyValues a b).swap := by
  have swap : ∀ {α : Type} [Ord α] [Std.OrientedOrd α] (a b : α),
      compare b a = (compare a b).swap :=
    fun a b => Std.OrientedCmp.eq_swap
  cases a <;> cases b
  case float64.float64 v w =>
    rw [comparePropertyValues, comparePropertyValues, F64.partialCmp_swap v w]
    cases v.partialCmp w with
    | none => rfl
    | some ordering => rfl
  all_goals first
    | rfl
    | exact swap _ _

/-- Among comparable values the comparison is transitive. -/
theorem compare_trans {a b c : PropertyValue} (first : a.Comparable b)
    (second : b.Comparable c) (le : (comparePropertyValues a b).isLE = true)
    (le' : (comparePropertyValues b c).isLE = true) :
    (comparePropertyValues a c).isLE = true := by
  have chain : ∀ {α : Type} [Ord α] [Std.TransOrd α] (u v w : α),
      (compare u v).isLE = true →
      (compare v w).isLE = true → (compare u w).isLE = true :=
        fun _ _ _ => Std.TransCmp.isLE_trans
  cases first
  case int64 => cases second; exact chain _ _ _ le le'
  case bool => cases second; exact chain _ _ _ le le'
  case string => cases second; exact chain _ _ _ le le'
  case timestamp => cases second; exact chain _ _ _ le le'
  case bytes => cases second; exact chain _ _ _ le le'
  case float64 number number' =>
    cases second with
    | float64 _ number'' =>
        rw [comparePropertyValues, F64.partialCmp_of_numbers number number',
          Option.getD_some] at le
        rw [comparePropertyValues, F64.partialCmp_of_numbers number' number'',
          Option.getD_some] at le'
        rw [comparePropertyValues, F64.partialCmp_of_numbers number number'',
          Option.getD_some]
        exact chain _ _ _ le le'

/-- Some concrete value is comparable with neither of two values that differ. -/
def MixedOrder (values : List PropertyValue) : Prop :=
  ∃ x ∈ values, ∃ y ∈ values, ∃ z ∈ values, x.Comparable y ∧
    comparePropertyValues x y = .lt ∧ z ≠ .null ∧
    ¬ x.Comparable z

/-- The comparison orders a list of values unless one of them is comparable with
neither of two that differ. -/
theorem totalPreorderOn_values_iff {values : List PropertyValue} :
    TotalPreorderOn comparePropertyValues values ↔ ¬ MixedOrder values := by
  constructor
  · intro order ⟨x, inX, y, inY, z, inZ, comparable, less, concrete, apart⟩
    have concreteX : x ≠ .null := by intro same; subst same; cases comparable
    have concreteY : y ≠ .null := by intro same; subst same; cases comparable
    have first : comparePropertyValues y z = .eq :=
      compare_of_apart (fun other => apart (comparable.trans other)) concreteY concrete
    have second : comparePropertyValues z x = .eq :=
      compare_of_apart (fun other => apart other.symm) concrete concreteX
    have back := order.trans y inY z inZ x inX (by rw [first]; rfl) (by rw [second]; rfl)
    rw [compare_swap x y, less] at back
    cases back
  · intro unmixed
    constructor
    case swap => exact fun a _ b _ => compare_swap a b
    case trans =>
      intro a inA b inB c inC le le'
      by_cases nullA : a = .null
      · -- only a null follows a null
        subst nullA
        have nullB : b = .null := by cases b <;> first | rfl | cases le
        subst nullB
        have nullC : c = .null := by cases c <;> first | rfl | cases le'
        subst nullC
        rfl
      by_cases nullC : c = .null
      · subst nullC
        cases a <;> rfl
      have nullB : b ≠ .null := by
        intro same
        subst same
        cases c <;> first | exact nullC rfl | cases le'
      by_cases ends : a.Comparable c
      · by_cases middle : a.Comparable b
        · exact compare_trans middle (middle.symm.trans ends) le le'
        · by_contra greater
          apply unmixed
          refine ⟨c, inC, a, inA, b, inB, ends.symm, ?_, nullB, fun other =>
            middle (ends.trans other)⟩
          rw [compare_swap a c]
          cases compared : comparePropertyValues a c with
          | gt => rfl
          | eq => rw [compared] at greater; exact absurd rfl greater
          | lt => rw [compared] at greater; exact absurd rfl greater
      · rw [compare_of_apart ends nullA nullC]
        rfl

/-! ### The sort of the standard library -/

section SortBy

variable {α : Type} {cmp : α → α → Ordering} {l : List α}
variable {serve : GenerationHandle → IndexGeneration}

/-- Under a comparator that orders the list the sort has one outcome. -/
theorem returns_sortBy_of_order (order : TotalPreorderOn cmp l)
    {outcome : Except Fault (List α)} :
    (sortBy cmp l).Returns serve outcome ↔ outcome = .ok (stableSort cmp l) := by
  rw [sortBy, if_pos order]
  constructor
  · intro returns
    cases returns
    rfl
  · intro same
    subst same
    exact .done _

/-- Under any other comparator every order is possible. -/
theorem returns_sortBy_of_disorder (disorder : ¬ TotalPreorderOn cmp l)
    (order : Equiv.Perm (Fin l.length)) :
    (sortBy cmp l).Returns serve (.ok (Client.permuted l order)) := by
  rw [sortBy, if_neg disorder]
  exact .choose (Equiv.refl _) (.choose order (.done _))

/-- Whatever the comparator, a sort only moves elements. -/
theorem returns_sortBy_perm {out : List α}
    (returns : (sortBy cmp l).Returns serve (.ok out)) : out.Perm l := by
  have meets : (sortBy cmp l).Meets serve (fun out => out.Perm l) fun _ => True := by
    rw [sortBy]
    split
    case isTrue => exact stableSort_perm cmp l
    case isFalse =>
      refine .bind (.unordered _) fun outcomes _ => ?_
      split
      case isTrue => trivial
      case isFalse => exact .unordered l
  exact meets.ok returns

end SortBy

/-! ### Rows -/

section Rows

variable {hydration : Hydration} {orderBy : OrderBy} {bindings : List Binding}

/-- Keys compare like values, and a missing one comes last. -/
theorem compareKeys_eq : compareKeys = absentLast comparePropertyValues := by
  funext a b
  cases a <;> cases b <;> rfl

/-- Ascending, bindings compare like their keys. -/
theorem compareBindings_of_asc (direction : orderBy.direction = .asc) :
    compareBindings hydration orderBy =
    fun a b =>
      compareKeys (sortKey hydration orderBy a) (sortKey hydration orderBy b) := by
  funext a b
  rw [compareBindings, direction]

/-- Descending, bindings compare the other way, missing keys included. -/
theorem compareBindings_of_desc (direction : orderBy.direction = .desc) :
    compareBindings hydration orderBy =
    fun a b => (compareKeys (sortKey hydration orderBy a)
      (sortKey hydration orderBy b)).swap := by
  funext a b
  rw [compareBindings, direction]

/-- The rows are ordered, in either direction, unless their values are mixed. -/
theorem totalPreorderOn_bindings_iff :
    TotalPreorderOn (compareBindings hydration orderBy) bindings ↔
    ¬ MixedOrder (bindings.filterMap (sortKey hydration orderBy)) := by
  have ascending : TotalPreorderOn
      (fun a b => compareKeys (sortKey hydration orderBy a)
        (sortKey hydration orderBy b)) bindings ↔
        ¬ MixedOrder (bindings.filterMap (sortKey hydration orderBy)) := by
    rw [totalPreorderOn_map_iff, compareKeys_eq, totalPreorderOn_absentLast_iff,
      totalPreorderOn_values_iff, List.filterMap_map]
    rfl
  cases direction : orderBy.direction with
  | asc => rw [compareBindings_of_asc direction, ascending]
  | desc => rw [compareBindings_of_desc direction, totalPreorderOn_reverse_iff, ascending]

/-- The row has no value to sort by: the alias or its record or the property is
absent, or the value is null. -/
def Unset (hydration : Hydration) (orderBy : OrderBy) (b : Binding) : Prop :=
  sortKey hydration orderBy b = none ∨ sortKey hydration orderBy b = some .null

/-- A row with a value compares below one without. -/
theorem compareKeys_unset {a b : Binding} (concrete : ¬ Unset hydration orderBy a)
    (unset : Unset hydration orderBy b) :
    compareKeys (sortKey hydration orderBy a) (sortKey hydration orderBy b) = .lt := by
  rw [Unset, not_or] at concrete
  cases keyA : sortKey hydration orderBy a with
  | none => exact absurd keyA concrete.1
  | some value =>
      cases unset with
      | inl missing => rw [missing]; rfl
      | inr isNull =>
          rw [isNull]
          cases value with
          | null => exact absurd keyA concrete.2
          | _ => rfl

/-! ### Rows without a value -/

/-- The rows without a value come last, so that no limit keeps one of them and
cuts a row that has a value. -/
structure NullsLast (hydration : Hydration) (orderBy : OrderBy) (out : List Binding) :
    Prop where
  ordered : out.Pairwise fun a b => Unset hydration orderBy a → Unset hydration orderBy b
  limited : ∀ n, (∃ a ∈ out.take n, Unset hydration orderBy a) →
    ∀ b ∈ out.drop n, Unset hydration orderBy b

/-- Where no set value follows an unset one the nulls are last. -/
theorem nullsLast_of_ordered {out : List Binding}
    (ordered : out.Pairwise fun a b => Unset hydration orderBy a →
      Unset hydration orderBy b) : NullsLast hydration orderBy out where
  ordered := ordered
  limited n := by
    intro ⟨a, kept, unset⟩ b cut
    have split := ordered
    rw [← List.take_append_drop n out] at split
    exact (List.pairwise_append.mp split).2.2 a kept b cut unset

/-- When every outcome of the sort puts a row without a value after a row with
one, the direction is ascending and the values are ordered. -/
theorem ascending_of_nullsLast {serve : GenerationHandle → IndexGeneration}
    (each : ∀ out,
      (sortBindingsByProperty hydration orderBy bindings).Returns serve (.ok out) →
      out.Pairwise fun a b => Unset hydration orderBy a → Unset hydration orderBy b)
    {u c : Binding} (inU : u ∈ bindings) (inC : c ∈ bindings)
    (unset : Unset hydration orderBy u) (concrete : ¬ Unset hydration orderBy c) :
    orderBy.direction = .asc ∧
      TotalPreorderOn (compareBindings hydration orderBy) bindings := by
  have distinct : u ≠ c := fun same => concrete (same ▸ unset)
  by_cases order : TotalPreorderOn (compareBindings hydration orderBy) bindings
  · refine ⟨?_, order⟩
    cases direction : orderBy.direction with
    | asc => rfl
    | desc =>
        -- in the stable order the row without a value is not after the other one
        have sorted := stableSorted_stableSort order
        have both := sorted.sorted.and (each _ ((returns_sortBy_of_order order).mpr rfl))
        exfalso
        rcases pairwise_either both (sorted.perm.mem_iff.mpr inU)
          (sorted.perm.mem_iff.mpr inC) distinct with first | first
        · exact concrete (first.2 unset)
        · rw [compareBindings_of_desc direction] at first
          simp only [compareKeys_unset concrete unset] at first
          cases first.1
  · obtain ⟨i, isU⟩ := List.get_of_mem inU
    obtain ⟨j, isC⟩ := List.get_of_mem inC
    have away : i ≠ j := by
      intro same
      rw [same, isC] at isU
      exact distinct isU.symm
    have related := Client.rel_of_permuted
      (fun permutation => each _ (returns_sortBy_of_disorder order permutation)) away
    rw [isU, isC] at related
    exact absurd (related unset) concrete

/-- In every outcome the rows without a value come last if and only if there are
none of them, or no others, or the direction is ascending and the values are not
mixed.  The rows, their values and the `LIMIT` are arbitrary; values are mixed
if the comparison is no total preorder on them, so that the sort may panic or
leave any order. -/
theorem nullsLast_iff (hydration : Hydration) (orderBy : OrderBy)
    (bindings : List Binding) (serve : GenerationHandle → IndexGeneration) :
    (∀ out, (sortBindingsByProperty hydration orderBy bindings).Returns serve (.ok out) →
      NullsLast hydration orderBy out) ↔
    (∀ b ∈ bindings, ¬ Unset hydration orderBy b) ∨
      (∀ b ∈ bindings, Unset hydration orderBy b) ∨
      orderBy.direction = .asc ∧
        ¬ MixedOrder (bindings.filterMap (sortKey hydration orderBy)) := by
  constructor
  · intro each
    by_contra spoiled
    simp only [not_or, not_forall, not_not] at spoiled
    obtain ⟨⟨u, inU, unset⟩, ⟨c, inC, concrete⟩, notAscending⟩ := spoiled
    rw [← totalPreorderOn_bindings_iff] at notAscending
    exact notAscending
      (ascending_of_nullsLast
        (fun out returns => (each out returns).ordered) inU inC unset concrete)
  · intro condition out returns
    have perm := returns_sortBy_perm returns
    apply nullsLast_of_ordered
    rcases condition with none | all | ⟨direction, unmixed⟩
    · exact List.pairwise_of_forall_mem_list fun a member _ _ unset =>
        absurd unset (none a (perm.mem_iff.mp member))
    · exact List.pairwise_of_forall_mem_list fun _ _ b member _ =>
        all b (perm.mem_iff.mp member)
    · rw [← totalPreorderOn_bindings_iff] at unmixed
      cases (returns_sortBy_of_order unmixed).mp returns
      refine (stableSorted_stableSort unmixed).sorted.imp_of_mem
        fun {a b} inA inB le unset => ?_
      by_contra concrete
      rw [unmixed.swap b (perm.mem_iff.mp inB) a (perm.mem_iff.mp inA),
        compareBindings_of_asc direction] at le
      simp only [compareKeys_unset concrete unset] at le
      cases le

/-! ### Rows of one scalar type -/

/-- The comparison orders the rows, and the sort puts them in that order: no
outcome is a panic, and a limit keeps least rows. -/
structure SortsProperly (hydration : Hydration) (orderBy : OrderBy)
    (bindings : List Binding) (serve : GenerationHandle → IndexGeneration) :
    Prop where
  reflexive : ∀ a ∈ bindings, compareBindings hydration orderBy a a = .eq
  total : ∀ a ∈ bindings, ∀ b ∈ bindings,
    (compareBindings hydration orderBy a b).isLE = true ∨
    (compareBindings hydration orderBy b a).isLE = true
  order : TotalPreorderOn (compareBindings hydration orderBy) bindings
  outcome : ∀ outcome,
    (sortBindingsByProperty hydration orderBy bindings).Returns serve outcome →
    ∃ out, outcome = .ok out ∧
      StableSorted (compareBindings hydration orderBy) bindings out ∧
      ∀ n, ∀ a ∈ out.take n, ∀ b ∈ out.drop n,
        (compareBindings hydration orderBy a b).isLE = true

/-- Some row has a NaN, and two others have numbers that differ. -/
def NaNBesideNumbers (hydration : Hydration) (orderBy : OrderBy)
    (bindings : List Binding) : Prop :=
  (∃ b ∈ bindings, ∃ v : F64, sortKey hydration orderBy b = some (.float64 v) ∧
    v.isNaN = true) ∧
    ∃ b ∈ bindings, ∃ c ∈ bindings, ∃ v w : F64,
      sortKey hydration orderBy b = some (.float64 v) ∧
      sortKey hydration orderBy c = some (.float64 w) ∧ v.partialCmp w = some .lt

/-- Every value sorted by is null or of one declared type. -/
def ScalarKeys (hydration : Hydration) (orderBy : OrderBy) (bindings : List Binding) :
    Prop :=
  ∃ ty, ∀ b ∈ bindings, ∀ value, sortKey hydration orderBy b = some value →
    value = .null ∨ HasType value ty

/-- Of one scalar type only numbers are mixed, by a NaN beside two that differ. -/
theorem mixedOrder_iff (scalar : ScalarKeys hydration orderBy bindings) :
    MixedOrder (bindings.filterMap (sortKey hydration orderBy)) ↔
      NaNBesideNumbers hydration orderBy bindings := by
  obtain ⟨ty, typed⟩ := scalar
  simp only [MixedOrder, List.mem_filterMap]
  constructor
  · intro ⟨x, ⟨b, inB, keyB⟩, y, ⟨c, inC, keyC⟩, z, ⟨a, inA, keyA⟩, comparable, less,
      concrete, apart⟩
    have typeX :=
      (typed b inB x keyB).resolve_left (by intro same; subst same; cases comparable)
    have typeZ := (typed a inA z keyA).resolve_left concrete
    cases comparable
    case float64 v w number number' =>
      cases typeX
      cases typeZ with
      | float64 u =>
          have isNaN : u.isNaN = true := by
            by_contra numbers
            exact apart (.float64 number (Bool.not_eq_true _ ▸ numbers))
          refine ⟨⟨a, inA, u, keyA, isNaN⟩, b, inB, c, inC, v, w, keyB, keyC, ?_⟩
          rw [comparePropertyValues, F64.partialCmp_of_numbers number number',
            Option.getD_some] at less
          rw [F64.partialCmp_of_numbers number number', less]
    case int64 => cases typeX; cases typeZ; exact absurd (.int64 _ _) apart
    case bool => cases typeX; cases typeZ; exact absurd (.bool _ _) apart
    case string => cases typeX; cases typeZ; exact absurd (.string _ _) apart
    case timestamp => cases typeX; cases typeZ; exact absurd (.timestamp _ _) apart
    case bytes => cases typeX; cases typeZ; exact absurd (.bytes _ _) apart
  · intro ⟨⟨a, inA, u, keyA, isNaN⟩, b, inB, c, inC, v, w, keyB, keyC, less⟩
    have numbers : v.isNaN = false ∧ w.isNaN = false := by
      rw [← Bool.or_eq_false_iff]
      by_contra oneNaN
      rw [F64.partialCmp, if_pos (Bool.not_eq_false _ ▸ oneNaN)] at less
      cases less
    refine ⟨_, ⟨b, inB, keyB⟩, _, ⟨c, inC, keyC⟩, _, ⟨a, inA, keyA⟩,
      .float64 numbers.1 numbers.2, ?_, ?_, ?_⟩
    · rw [comparePropertyValues, less]
      rfl
    · intro impossible
      cases impossible
    · intro comparable
      cases comparable with
      | float64 _ number => rw [isNaN] at number; cases number

/-- Rows of one scalar type are sorted properly, in either direction, unless a
NaN is among numbers that differ: with it the comparison is not transitive, and
the sort may panic or return any order.  `scalar` says that every value sorted
by is null or of one type, as the values of one declared property are. -/
theorem sortsProperly_iff (hydration : Hydration) (orderBy : OrderBy)
    (bindings : List Binding) (serve : GenerationHandle → IndexGeneration)
    (scalar : ScalarKeys hydration orderBy bindings) :
    SortsProperly hydration orderBy bindings serve ↔
      ¬ NaNBesideNumbers hydration orderBy bindings := by
  rw [← mixedOrder_iff scalar, ← totalPreorderOn_bindings_iff]
  constructor
  · exact SortsProperly.order
  · intro order
    refine ⟨fun a member => order.refl member, fun a inA b inB =>
      order.total inA inB, order, ?_⟩
    intro outcome returns
    have sorted := stableSorted_stableSort order
    exact ⟨_, (returns_sortBy_of_order order).mp returns, sorted,
      fun n a kept b cut => sorted.least n kept cut⟩

end Rows

/-! ### Scores -/

namespace Scores

/-- People with a score each. -/
def hydration (scores : List (Nat × PropertyValue)) : Hydration where
  aliasIsEdge := ∅
  nodeProperties := collectMap (scores.map fun entry =>
    (⟨entry.1⟩, { label := Social.person,
                  properties := (∅ : Properties).insert "score" entry.2 }))
  edgeProperties := ∅

/-- `ORDER BY p.score`. -/
def byScore (direction : SortDirection) : OrderBy :=
  { aliasName := "p", property := "score", direction := direction }

/-- `p` bound. -/
def row (id : Nat) : Binding := Binding.fromNode "p" ⟨id⟩

/-- Person 1 has a score and person 2 none: a limit of 1 keeps person 2. -/
def oneMissing : Hydration := hydration [(1, .int64 1990), (2, .null)]

/-- In descending order the missing score comes first. -/
theorem nullsLast_fails :
    (sortBindingsByProperty oneMissing (byScore .desc) [row 1, row 2]).run
      (fun _ => Social.dataset.deployed Social.single) Social.inOrder 0 =
        .ok [row 2, row 1] ∧
    Unset oneMissing (byScore .desc) (row 2) ∧
      ¬ Unset oneMissing (byScore .desc) (row 1) ∧
    ¬ NullsLast oneMissing (byScore .desc) [row 2, row 1] := by
  have unset : Unset oneMissing (byScore .desc) (row 2) := .inr rfl
  have concrete : ¬ Unset oneMissing (byScore .desc) (row 1) := by
    intro missing
    cases missing with
    | inl absent => cases absent
    | inr isNull => cases isNull
  refine ⟨by decide +kernel, unset, concrete, fun last => ?_⟩
  exact concrete (last.limited 1 ⟨row 2, List.mem_singleton_self _, unset⟩ (row 1)
    (List.mem_singleton_self _))

/-- The values of the two rows. -/
theorem sortKey_oneMissing {b : Binding} (member : b ∈ [row 1, row 2])
    {value : PropertyValue} (found : sortKey oneMissing (byScore .desc) b = some value) :
    value = .int64 1990 ∨ value = .null := by
  simp only [List.mem_cons, List.not_mem_nil, or_false] at member
  rcases member with rfl | rfl
  · have known : sortKey oneMissing (byScore .desc) (row 1) = some (.int64 1990) := rfl
    exact .inl (Option.some.inj (found.symm.trans known))
  · have known : sortKey oneMissing (byScore .desc) (row 2) = some .null := rfl
    exact .inr (Option.some.inj (found.symm.trans known))

/-- Apart from where the missing score goes the same rows are sorted properly. -/
theorem oneMissing_sortsProperly : SortsProperly oneMissing (byScore .desc) [row 1, row 2]
    (Social.dataset.deployed Social.single) := by
  refine (sortsProperly_iff _ _ _ _ ⟨.int64, fun b member value found => ?_⟩).mpr ?_
  · rcases sortKey_oneMissing member found with rfl | rfl
    · exact .inr (.int64 1990)
    · exact .inl rfl
  · intro ⟨⟨b, member, v, found, _⟩, _⟩
    cases sortKey_oneMissing member found with
    | inl impossible => cases impossible
    | inr impossible => cases impossible

/-- The scores 2, NaN and 1. -/
def withNaN : Hydration :=
  hydration [(1, .float64 ⟨0x4000000000000000⟩), (2, .float64 ⟨0x7FF8000000000000⟩),
    (3, .float64 ⟨0x3FF0000000000000⟩)]

/-- Rows 1 and 2 compare equal, rows 2 and 3 too, but not rows 1 and 3: the sort
may leave the rows as they are, so that a limit of 1 keeps the score 2 and cuts
the score 1, and it may panic. -/
theorem sortsProperly_fails :
    compareBindings withNaN (byScore .asc) (row 1) (row 2) = .eq ∧
    compareBindings withNaN (byScore .asc) (row 2) (row 3) = .eq ∧
    compareBindings withNaN (byScore .asc) (row 1) (row 3) = .gt ∧
    (sortBindingsByProperty withNaN (byScore .asc) [row 1, row 2, row 3]).run
      (fun _ => Social.dataset.deployed Social.single) Social.inOrder 0 =
        .ok [row 1, row 2, row 3] ∧
    ¬ SortsProperly withNaN (byScore .asc) [row 1, row 2, row 3]
      (Social.dataset.deployed Social.single) := by
  refine ⟨by decide +kernel, by decide +kernel, by decide +kernel, by decide +kernel,
    fun proper => ?_⟩
  have disorder : ¬ TotalPreorderOn (compareBindings withNaN (byScore .asc))
      [row 1, row 2, row 3] := by
    decide +kernel
  exact disorder proper.order

end Scores

end GraphEngine
