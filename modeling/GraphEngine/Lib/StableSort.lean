/-
Module: GraphEngine.Lib.StableSort
Layer: Lib
Purpose: Sorting by a comparator that need not be an order.  On lists where it
  is a total preorder a stable sort does what it promises; only the elements of
  the list matter.
Trusted boundary: none
Main exports: TotalPreorderOn, absentLast, stableSort, StableSorted,
  stableSorted_stableSort
-/
import Mathlib.Data.List.Sort
import Mathlib.Data.List.Pairwise

namespace GraphEngine

variable {α β : Type} {cmp : α → α → Ordering} {l : List α}

/-! ### Comparators -/

/-- On the elements of a list the comparator is antisymmetric up to ties, and
transitive.  It is then reflexive and total as well. -/
structure TotalPreorderOn (cmp : α → α → Ordering) (l : List α) : Prop where
  swap : ∀ a ∈ l, ∀ b ∈ l, cmp b a = (cmp a b).swap
  trans : ∀ a ∈ l, ∀ b ∈ l, ∀ c ∈ l, (cmp a b).isLE = true → (cmp b c).isLE = true →
    (cmp a c).isLE = true

/-- What it takes to be a total preorder on a list: antisymmetric by `swap`, and
transitive. -/
theorem totalPreorderOn_iff :
    TotalPreorderOn cmp l ↔ (∀ a ∈ l, ∀ b ∈ l, cmp b a = (cmp a b).swap) ∧
    ∀ a ∈ l, ∀ b ∈ l, ∀ c ∈ l, (cmp a b).isLE = true → (cmp b c).isLE = true →
      (cmp a c).isLE = true :=
  ⟨fun order => ⟨order.swap, order.trans⟩, fun both => ⟨both.1, both.2⟩⟩

instance decidableTotalPreorderOn (cmp : α → α → Ordering) (l : List α) :
    Decidable (TotalPreorderOn cmp l) :=
  decidable_of_iff' _ totalPreorderOn_iff

namespace TotalPreorderOn

/-- Every element is equal to itself. -/
theorem refl (order : TotalPreorderOn cmp l) {a : α} (member : a ∈ l) :
    cmp a a = .eq := by
  have same := order.swap a member a member
  cases compared : cmp a a with
  | eq => rfl
  | lt => rw [compared] at same; cases same
  | gt => rw [compared] at same; cases same

/-- Of any two elements one is at most the other. -/
theorem total (order : TotalPreorderOn cmp l) {a b : α} (memberA : a ∈ l)
    (memberB : b ∈ l) : (cmp a b).isLE = true ∨ (cmp b a).isLE = true := by
  rw [order.swap a memberA b memberB]
  cases cmp a b with
  | eq => exact .inl rfl
  | lt => exact .inl rfl
  | gt => exact .inr rfl

/-- The comparator of the opposite direction. -/
theorem reverse (order : TotalPreorderOn cmp l) :
    TotalPreorderOn (fun a b => (cmp a b).swap) l where
  swap a memberA b memberB := congrArg Ordering.swap (order.swap a memberA b memberB)
  trans a memberA b memberB c memberC first second := by
    rw [← order.swap _ memberA _ memberB] at first
    rw [← order.swap _ memberB _ memberC] at second
    rw [← order.swap _ memberA _ memberC]
    exact order.trans c memberC b memberB a memberA second first

/-- On fewer elements, under a comparator that agrees there. -/
theorem of_agree {cmp' : α → α → Ordering} {l' : List α}
    (order : TotalPreorderOn cmp l) (agree : ∀ a ∈ l', ∀ b ∈ l', cmp a b = cmp' a b)
    (members : ∀ a ∈ l', a ∈ l) : TotalPreorderOn cmp' l' where
  swap a memberA b memberB := by
    rw [← agree b memberB a memberA, ← agree a memberA b memberB]
    exact order.swap a (members a memberA) b (members b memberB)
  trans a memberA b memberB c memberC first second := by
    rw [← agree a memberA b memberB] at first
    rw [← agree b memberB c memberC] at second
    rw [← agree a memberA c memberC]
    exact order.trans a (members a memberA) b (members b memberB) c
      (members c memberC) first second

end TotalPreorderOn

/-- A comparator orders a list in one direction if and only if it does in the
other. -/
theorem totalPreorderOn_reverse_iff :
    TotalPreorderOn (fun a b => (cmp a b).swap) l ↔ TotalPreorderOn cmp l := by
  constructor
  · intro reversed
    have twice := reversed.reverse
    simp only [Ordering.swap_swap] at twice
    exact twice
  · exact TotalPreorderOn.reverse

/-- Comparing by an image orders a list if and only if the comparator orders the
images. -/
theorem totalPreorderOn_map_iff {image : β → α} {l : List β} :
    TotalPreorderOn (fun a b => cmp (image a) (image b)) l ↔
      TotalPreorderOn cmp (l.map image) := by
  constructor
  · intro order
    constructor
    · simp only [List.forall_mem_map]
      exact order.swap
    · simp only [List.forall_mem_map]
      exact order.trans
  · intro order
    have swaps := order.swap
    have transitive := order.trans
    simp only [List.forall_mem_map] at swaps transitive
    exact ⟨swaps, transitive⟩

/-- What is absent comes after everything present. -/
def absentLast (cmp : α → α → Ordering) : Option α → Option α → Ordering
  | some a, some b => cmp a b
  | some _, none => .lt
  | none, some _ => .gt
  | none, none => .eq

/-- Putting the absent last orders a list if and only if the comparator orders
what is present. -/
theorem totalPreorderOn_absentLast_iff {l : List (Option α)} :
    TotalPreorderOn (absentLast cmp) l ↔ TotalPreorderOn cmp (l.filterMap id) := by
  simp only [totalPreorderOn_iff, List.mem_filterMap, id_eq, exists_eq_right]
  constructor
  · intro ⟨swaps, transitive⟩
    exact ⟨fun a memberA b memberB => swaps (some a) memberA (some b) memberB,
      fun a memberA b memberB c memberC =>
        transitive (some a) memberA (some b) memberB (some c) memberC⟩
  · intro ⟨swaps, transitive⟩
    constructor
    · intro a memberA b memberB
      cases a with
      | none => cases b <;> rfl
      | some a =>
          cases b with
          | none => rfl
          | some b => exact swaps a memberA b memberB
    · intro a memberA b memberB c memberC first second
      cases a with
      | none =>
          -- nothing present follows what is absent
          cases b with
          | some b => cases first
          | none =>
              cases c with
              | some c => cases second
              | none => rfl
      | some a =>
          cases c with
          | none => rfl
          | some c =>
              cases b with
              | none => cases second
              | some b => exact transitive a memberA b memberB c memberC first second

/-! ### The sort -/

/-- Elements that compare equal keep their order. -/
def stableSort (cmp : α → α → Ordering) (l : List α) : List α :=
  l.insertionSort fun a b => (cmp a b).isLE = true

/-- Sorting permutes. -/
theorem stableSort_perm (cmp : α → α → Ordering) (l : List α) :
    (stableSort cmp l).Perm l :=
  List.perm_insertionSort _ l

/-- `out` is `l` in a stable order of the comparator. -/
structure StableSorted (cmp : α → α → Ordering) (l out : List α) : Prop where
  perm : out.Perm l
  sorted : out.Pairwise fun a b => (cmp a b).isLE = true
  stable : ∀ ties : List α, ties.Pairwise (fun a b => cmp a b = .eq) →
    ties.Sublist l → ties.Sublist out

/-- Of two elements of a list one is earlier. -/
theorem pairwise_either {R : α → α → Prop} (related : l.Pairwise R) {a b : α}
    (memberA : a ∈ l) (memberB : b ∈ l) (distinct : a ≠ b) : R a b ∨ R b a := by
  have symmetric : Std.Symm fun a b => R a b ∨ R b a := ⟨fun _ _ => Or.symm⟩
  have either : l.Pairwise fun a b => R a b ∨ R b a := related.imp Or.inl
  exact either.forall memberA memberB distinct

/-- Each of the first elements is at most each of the others. -/
theorem StableSorted.least {out : List α} (sorted : StableSorted cmp l out)
    (n : Nat) {a b : α} (first : a ∈ out.take n) (later : b ∈ out.drop n) :
    (cmp a b).isLE = true := by
  have ascending := sorted.sorted
  rw [← List.take_append_drop n out] at ascending
  exact (List.pairwise_append.mp ascending).2.2 a first b later

/-- A stable sort by a comparator that orders the list. -/
theorem stableSorted_stableSort (order : TotalPreorderOn cmp l) :
    StableSorted cmp l (stableSort cmp l) where
  perm := stableSort_perm cmp l
  sorted := by
    -- on the elements of the list alone the comparator is a total preorder in
    -- the sense of the library
    let le : {a // a ∈ l} → {a // a ∈ l} → Prop := fun a b => (cmp a.1 b.1).isLE = true
    have : Std.Total le := ⟨fun a b => order.total a.2 b.2⟩
    have : IsTrans _ le := ⟨fun a b c => order.trans a.1 a.2 b.1 b.2 c.1 c.2⟩
    have lifted : (l.attach.insertionSort le).map Subtype.val = stableSort cmp l := by
      rw [List.map_insertionSort le (fun a b => (cmp a b).isLE = true) Subtype.val
        l.attach fun _ _ _ _ => Iff.rfl, List.attach_map_subtype_val]
      rfl
    rw [← lifted, List.pairwise_map]
    exact List.pairwise_insertionSort le l.attach
  stable ties equivalent sublist := by
    have ascending : ties.Pairwise fun a b => (cmp a b).isLE = true :=
      equivalent.imp fun same => by rw [same]; rfl
    exact List.sublist_insertionSort ascending sublist

/-- Where only equal elements tie, the sorted list depends on the elements
alone. -/
theorem stableSort_congr [Std.TransCmp cmp] [Std.LawfulEqCmp cmp] {l' : List α}
    (perm : l.Perm l') : stableSort cmp l = stableSort cmp l' := by
  have ordered : ∀ l : List α, TotalPreorderOn cmp l := fun l =>
    { swap := fun _ _ _ _ => Std.OrientedCmp.eq_swap
      trans := fun _ _ _ _ _ _ => Std.TransCmp.isLE_trans }
  have sorted := stableSorted_stableSort (ordered l)
  have sorted' := stableSorted_stableSort (ordered l')
  apply List.Perm.eq_of_pairwise _ sorted.sorted sorted'.sorted
  · exact sorted.perm.trans (perm.trans sorted'.perm.symm)
  · intro a b _ _ atMost atLeast
    exact Std.LawfulEqCmp.eq_of_compare (Std.OrientedCmp.isLE_antisymm atMost atLeast)

end GraphEngine
