/-
Module: GraphEngine.Lib.Csr
Layer: Lib
Purpose: Compressed rows.  A list of rows is stored as one list of entries and a
  list of offsets, row `i` being the slice between the offsets `i` and `i + 1`.
  `CsrShape` says which offsets make every such slice lie within the entries.
Trusted boundary: none
Main exports: CsrShape, csrRow, csrLayout, csrLayout_shape, csrRow_csrLayout,
  fillRows, flatten_fillRows_perm
-/
import Mathlib.Data.List.Induction

namespace GraphEngine

variable {α β : Type}

/-- The entries between the offsets `i` and `i + 1`. -/
def csrRow (offsets : List Nat) (entries : List α) (i : Nat) : List α :=
  (entries.take (offsets.getD (i + 1) 0)).drop (offsets.getD i 0)

/-- Offsets that cut the entries into `rows` rows. -/
structure CsrShape (rows : Nat) (offsets : List Nat) (entries : List α) : Prop where
  length_eq : offsets.length = rows + 1
  first : offsets.getD 0 0 = 0
  ascending : ∀ i < rows, offsets.getD i 0 ≤ offsets.getD (i + 1) 0
  last : offsets.getD rows 0 = entries.length

/-- No slice of a well-shaped layout leaves the entries. -/
theorem CsrShape.bounds {rows : Nat} {offsets : List Nat} {entries : List α}
    (shape : CsrShape rows offsets entries) {i : Nat} (row : i < rows) :
    i + 1 < offsets.length ∧ offsets.getD i 0 ≤ offsets.getD (i + 1) 0 ∧
      offsets.getD (i + 1) 0 ≤ entries.length := by
  have upTo : ∀ k, i + 1 + k ≤ rows →
      offsets.getD (i + 1) 0 ≤ offsets.getD (i + 1 + k) 0 := by
    intro k
    induction k with
    | zero => intro _; exact Nat.le_refl _
    | succ k inductionHypothesis =>
        intro within
        exact Nat.le_trans (inductionHypothesis (by omega))
          (shape.ascending (i + 1 + k) (by omega))
  refine ⟨by rw [shape.length_eq]; omega, shape.ascending i row, ?_⟩
  have total := upTo (rows - (i + 1)) (by omega)
  rwa [Nat.add_sub_cancel' row, shape.last] at total

/-! ### Laying out rows -/

/-- Append the rows to the entries one after the other, recording the length
reached after each. -/
def csrAppend (layout : List Nat × List α) (row : List α) : List Nat × List α :=
  (layout.1 ++ [(layout.2 ++ row).length], layout.2 ++ row)

/-- The offsets and the entries of a list of rows. -/
def csrLayout (rows : List (List α)) : List Nat × List α :=
  rows.foldl csrAppend ([0], [])

/-- The offsets are the sizes of the initial segments of the rows. -/
theorem csrLayout_eq (rows : List (List α)) :
    csrLayout rows =
      ((List.range (rows.length + 1)).map fun i => (rows.take i).flatten.length,
        rows.flatten) := by
  induction rows using List.reverseRecOn with
  | nil => rfl
  | append_singleton rows row inductionHypothesis =>
      have step : csrLayout (rows ++ [row]) = csrAppend (csrLayout rows) row := by
        simp [csrLayout]
      have rangeEq : List.range ((rows ++ [row]).length + 1) =
          List.range (rows.length + 1) ++ [rows.length + 1] := by
        rw [List.length_append, List.length_singleton, List.range_succ]
      rw [step, inductionHypothesis, csrAppend, rangeEq, List.map_append,
        List.map_singleton]
      refine Prod.ext ?_ (by simp)
      refine congrArg₂ (· ++ ·) (List.map_congr_left fun i member => ?_) ?_
      · have within : i ≤ rows.length := by
          rw [List.mem_range] at member
          omega
        rw [List.take_append_of_le_length within]
      · rw [List.take_of_length_le (by simp), List.flatten_append, List.flatten_singleton]

/-- The offset of a row is how many entries come before it. -/
theorem csrLayout_offset (rows : List (List α)) {i : Nat} (within : i ≤ rows.length) :
    (csrLayout rows).1.getD i 0 = (rows.take i).flatten.length := by
  rw [csrLayout_eq, List.getD_eq_getElem?_getD, List.getElem?_map,
    List.getElem?_range (by omega)]
  rfl

/-- The offsets never decrease. -/
theorem csrLayout_pairwise (rows : List (List α)) :
    (csrLayout rows).1.Pairwise (· ≤ ·) := by
  rw [csrLayout_eq, List.pairwise_map]
  apply List.pairwise_lt_range.imp
  intro i j earlier
  have split : rows.take j = rows.take i ++ (rows.take j).drop i := by
    have again := List.take_append_drop i (rows.take j)
    rw [List.take_take, Nat.min_eq_left (Nat.le_of_lt earlier)] at again
    exact again.symm
  rw [split, List.flatten_append, List.length_append]
  exact Nat.le_add_right _ _

/-- The layout of any rows has the shape of one. -/
theorem csrLayout_shape (rows : List (List α)) :
    CsrShape rows.length (csrLayout rows).1 (csrLayout rows).2 where
  length_eq := by rw [csrLayout_eq]; simp
  first := by rw [csrLayout_offset rows (Nat.zero_le _)]; simp
  ascending i within := by
    rw [csrLayout_offset rows (Nat.le_of_lt within), csrLayout_offset rows within]
    rw [List.take_add_one, List.flatten_append, List.length_append]
    exact Nat.le_add_right _ _
  last := by rw [csrLayout_offset rows (Nat.le_refl _), csrLayout_eq]; simp

/-- Row `i` of a layout is row `i`. -/
theorem csrRow_csrLayout (rows : List (List α)) {i : Nat} (within : i < rows.length) :
    csrRow (csrLayout rows).1 (csrLayout rows).2 i = rows[i] := by
  have entriesEq : (csrLayout rows).2 = rows.flatten := by rw [csrLayout_eq]
  have upTo : rows.flatten.take (rows.take (i + 1)).flatten.length =
      (rows.take (i + 1)).flatten := by
    have split : rows.flatten = (rows.take (i + 1)).flatten ++
        (rows.drop (i + 1)).flatten := by
      rw [← List.flatten_append, List.take_append_drop]
    rw [split, List.take_left]
  rw [csrRow, csrLayout_offset rows within,
    csrLayout_offset rows (Nat.le_of_lt within), entriesEq, upTo,
    List.take_succ_eq_append_getElem within, List.flatten_append, List.drop_left,
    List.flatten_singleton]

/-! ### Filling rows -/

/-- Push every element onto the row it is placed in; an element without a row is
dropped. -/
def fillRows (place : β → Option Nat) (entry : β → α) (count : Nat) (elements : List β) :
    List (List α) :=
  elements.foldl
    (fun rows element =>
      match place element with
      | none => rows
      | some i => rows.modify i (· ++ [entry element]))
    (List.replicate count [])

/-- One more element is one more entry in its row, or none. -/
theorem fillRows_append_singleton (place : β → Option Nat) (entry : β → α) (count : Nat)
    (elements : List β) (element : β) :
    fillRows place entry count (elements ++ [element]) =
      match place element with
      | none => fillRows place entry count elements
      | some i =>
          (fillRows place entry count elements).modify i (· ++ [entry element]) := by
  simp only [fillRows, List.foldl_append, List.foldl_cons, List.foldl_nil]

/-- Filling keeps the number of rows. -/
theorem length_fillRows (place : β → Option Nat) (entry : β → α) (count : Nat)
    (elements : List β) : (fillRows place entry count elements).length = count := by
  induction elements using List.reverseRecOn with
  | nil => simp [fillRows]
  | append_singleton elements element inductionHypothesis =>
      rw [fillRows_append_singleton]
      split
      · exact inductionHypothesis
      · rw [List.length_modify, inductionHypothesis]

/-- Row `i` holds, in order, the entries of the elements placed in it. -/
theorem getElem?_fillRows (place : β → Option Nat) (entry : β → α) {count : Nat}
    (elements : List β) {i : Nat} (within : i < count) :
    (fillRows place entry count elements)[i]? =
      some ((elements.filter fun element => place element = some i).map entry) := by
  induction elements using List.reverseRecOn with
  | nil => simp [fillRows, within]
  | append_singleton elements element inductionHypothesis =>
      rw [fillRows_append_singleton]
      cases placed : place element with
      | none => simp [placed, inductionHypothesis]
      | some j =>
          simp only [List.getElem?_modify, inductionHypothesis]
          by_cases same : j = i
          · simp [placed, same]
          · simp [placed, same]

/-- An entry pushed onto one of the rows is one more entry in all. -/
theorem flatten_modify_push (rows : List (List α)) {i : Nat}
    (within : i < rows.length) (x : α) :
    (rows.modify i (· ++ [x])).flatten.Perm (rows.flatten ++ [x]) := by
  induction rows generalizing i with
  | nil => simp at within
  | cons row rows inductionHypothesis =>
      cases i with
      | zero =>
          simp only [List.modify_zero_cons, List.flatten_cons, List.append_assoc]
          exact List.perm_append_comm.append_left row
      | succ i =>
          simp only [List.modify_succ_cons, List.flatten_cons, List.append_assoc]
          exact (inductionHypothesis (Nat.lt_of_succ_lt_succ within)).append_left row

/-- All rows together hold the entries of the elements that have a row, once
each. -/
theorem flatten_fillRows_perm (place : β → Option Nat) (entry : β → α) (count : Nat)
    (elements : List β) :
    (fillRows place entry count elements).flatten.Perm
      ((elements.filter fun element => (place element).any (· < count)).map entry) := by
  induction elements using List.reverseRecOn with
  | nil => simp [fillRows]
  | append_singleton elements element inductionHypothesis =>
      rw [fillRows_append_singleton, List.filter_append, List.map_append]
      cases placed : place element with
      | none => simpa [placed] using inductionHypothesis
      | some i =>
          dsimp only
          by_cases within : i < count
          · have pushed :=
              flatten_modify_push (fillRows place entry count elements) (i := i)
              (by rwa [length_fillRows]) (entry element)
            simpa [placed, within] using pushed.trans (inductionHypothesis.append_right _)
          · have beyond : (fillRows place entry count elements).length ≤ i := by
              rw [length_fillRows]
              omega
            rw [List.modify_eq_self beyond]
            simpa [placed, within] using inductionHypothesis

end GraphEngine
