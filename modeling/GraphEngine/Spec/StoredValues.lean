/-
Module: GraphEngine.Spec.StoredValues
Layer: Spec
Purpose: What Arrow columns store, without regard to declared types, and when a
  stored value is one of a declared type. Reading succeeds exactly with the
  stored value and exactly when that value is of the type.
Trusted boundary: none
Main exports: ArrowArray.stored, Inhabits, WrongKind,
  readPropertyValue_eq_ok_iff, readPropertyValue_eq_error_iff, not_wrongKind_iff
-/
import GraphEngine.Model.ArrowRows
import GraphEngine.Spec.Dataset

namespace GraphEngine

namespace ArrowArray

/-! ### Stored values -/

/-- The value stored in a slot. -/
def storedSlot {α : Type} (default : α) (tag : α → PropertyValue)
    (slots : List (Slot α)) (row : Nat) : PropertyValue :=
  if slotIsNull slots row then .null else tag (valueOr default slots row)

/-- The value stored in a row, if the engine has values of the array's kind.  A
slot whose validity bit is unset stores a null whatever its buffer holds; a list
stores its elements slot by slot, and has no value if one of them has none. -/
def stored : ArrowArray → Nat → Option PropertyValue
  | .int64 slots, row => some (storedSlot 0 .int64 slots row)
  | .float64 slots, row => some (storedSlot ⟨0⟩ .float64 slots row)
  | .boolean slots, row => some (storedSlot false .bool slots row)
  | .string slots, row => some (storedSlot "" .string slots row)
  | .timestampMicrosecond slots, row => some (storedSlot 0 .timestamp slots row)
  | .binary slots, row => some (storedSlot [] .bytes slots row)
  | .list values slots, row =>
      if slotIsNull slots row then some .null
      else
        let start := (valueOr (0, 0) slots row).1
        ((List.range (values.elementsAt slots row).length).mapM fun i =>
          values.stored (start + i)).map .list
  | .other slots, row => if slotIsNull slots row then some .null else none

/-- Where the validity bit is unset the column stores a null. -/
theorem stored_of_isNull {array : ArrowArray} {row : Nat}
    (null : array.isNull row = true) : array.stored row = some .null := by
  cases array <;> simp_all [stored, isNull, storedSlot]

/-- A row of a slice is a row of the array. -/
theorem getElem?_slice {α : Type} {slots : List (Slot α)} {start count i : Nat}
    (inside : i < ((slots.drop start).take count).length) :
    ((slots.drop start).take count)[i]? = slots[start + i]? := by
  rw [List.length_take] at inside
  rw [List.getElem?_take_of_lt (Nat.lt_of_lt_of_le inside (Nat.min_le_left _ _)),
    List.getElem?_drop]

section Congruence

variable {α : Type} {slots slots' : List (Slot α)} {row row' : Nat}

theorem slotIsNull_congr (same : slots[row]? = slots'[row']?) :
    slotIsNull slots row = slotIsNull slots' row' := by
  rw [slotIsNull, slotIsNull, same]

theorem valueOr_congr {default : α} (same : slots[row]? = slots'[row']?) :
    valueOr default slots row = valueOr default slots' row' := by
  rw [valueOr, valueOr, same]

theorem storedSlot_congr {default : α} {tag : α → PropertyValue}
    (same : slots[row]? = slots'[row']?) :
    storedSlot default tag slots row = storedSlot default tag slots' row' := by
  rw [storedSlot, storedSlot, slotIsNull_congr same, valueOr_congr same]

end Congruence

/-- The slots of a slice are those of the column, further on. -/
theorem stored_slice {array : ArrowArray} {start count i : Nat}
    (inside : i < (array.slice start count).length) :
    (array.slice start count).stored i = array.stored (start + i) := by
  cases array with
  | list values slots =>
      have same : ((slots.drop start).take count)[i]? = slots[start + i]? :=
        getElem?_slice inside
      rw [slice, stored, stored, slotIsNull_congr same, elementsAt, elementsAt,
        valueOr_congr same]
  | other slots =>
      have same : ((slots.drop start).take count)[i]? = slots[start + i]? :=
        getElem?_slice inside
      rw [slice, stored, stored, slotIsNull_congr same]
  | int64 slots => exact congrArg some (storedSlot_congr (getElem?_slice inside))
  | float64 slots => exact congrArg some (storedSlot_congr (getElem?_slice inside))
  | boolean slots => exact congrArg some (storedSlot_congr (getElem?_slice inside))
  | string slots => exact congrArg some (storedSlot_congr (getElem?_slice inside))
  | timestampMicrosecond slots =>
      exact congrArg some (storedSlot_congr (getElem?_slice inside))
  | binary slots => exact congrArg some (storedSlot_congr (getElem?_slice inside))

/-- A row of a list array stores the list of what its elements store. -/
theorem stored_list_eq_some_iff {values : ArrowArray}
    {slots : List (Slot (Nat × Nat))} {row : Nat}
    (valid : slotIsNull slots row = false) {value : PropertyValue} :
    (list values slots).stored row = some value ↔ ∃ items, value = .list items ∧
      List.Forall₂ (fun i item => (values.elementsAt slots row).stored i = some item)
        (List.range (values.elementsAt slots row).length) items := by
  have each (i : Nat) (inside : i ∈ List.range (values.elementsAt slots row).length) :
      values.stored ((valueOr (0, 0) slots row).1 + i) =
        (values.elementsAt slots row).stored i :=
    (stored_slice (List.mem_range.mp inside)).symm
  rw [stored, if_neg (by rw [valid]; exact Bool.false_ne_true)]
  simp only [Option.map_eq_some_iff, mapM_eq_some_iff]
  constructor
  · rintro ⟨items, related, rfl⟩
    refine ⟨items, rfl, ?_⟩
    exact (forall₂_congr fun i inside item => by rw [each i inside]).mp related
  · rintro ⟨items, rfl, related⟩
    exact ⟨items,
      (forall₂_congr fun i inside item => by rw [each i inside]).mpr related, rfl⟩

end ArrowArray

/-! ### Types -/

/-- The value is null or of the type. -/
def Inhabits (value : PropertyValue) (ty : ScalarType) : Prop :=
  value = .null ∨ HasType value ty

/-- The types whose values are lists, and the type of their elements. -/
inductive ListOf : ScalarType → ScalarType → Prop where
  | list (element : ScalarType) : ListOf (.list element) element
  | vector (dim : Nat) : ListOf (.vector dim) .float64

/-- A list has one type of elements. -/
theorem ListOf.unique {ty element other : ScalarType} (shape : ListOf ty element)
    (shape' : ListOf ty other) : element = other := by
  cases shape <;> cases shape' <;> rfl

/-- What holds of a type if it holds of its elements holds of every type. -/
theorem ListOf.induction {motive : ScalarType → Prop}
    (step : ∀ ty, (∀ element, ListOf ty element → motive element) → motive ty)
    (ty : ScalarType) : motive ty := by
  have simple (ty : ScalarType)
      (noElements : ∀ element, ¬ ListOf ty element) : motive ty :=
    step ty fun element shape => absurd shape (noElements element)
  induction ty with
  | list inner ih =>
      refine step _ fun element shape => ?_
      cases shape
      exact ih
  | vector dim =>
      refine step _ fun element shape => ?_
      cases shape
      exact simple .float64 nofun
  | _ => exact simple _ nofun

/-- A list inhabits its type exactly where its elements do. -/
theorem inhabits_elements_iff {items : List PropertyValue} {ty element : ScalarType}
    (shape : ListOf ty element) :
    Inhabits (.list items) ty ↔ ∀ item ∈ items, Inhabits item element := by
  constructor
  · rintro (⟨⟨⟩⟩ | typed) item member
    cases shape with
    | list element =>
        cases typed with
        | list elements => exact or_iff_not_imp_left.mpr (elements item member)
    | vector dim =>
        cases typed with
        | vector dim elements => exact or_iff_not_imp_left.mpr (elements item member)
  · intro each
    have elements : ∀ item ∈ items, item ≠ .null → HasType item element :=
      fun item member present => (each item member).resolve_left present
    cases shape with
    | list element => exact .inr (.list elements)
    | vector dim => exact .inr (.vector dim elements)

/-! ### Reading -/

/-- An array of the kind that the type is read from. -/
def ArrowArray.hasKind : ArrowArray → ScalarType → Bool
  | .int64 _, .int64 => true
  | .float64 _, .float64 => true
  | .boolean _, .bool => true
  | .string _, .string => true
  | .timestampMicrosecond _, .timestamp => true
  | .binary _, .bytes => true
  | .list _ _, .list _ => true
  | .list _ _, .vector _ => true
  | _, _ => false

/-- A row that is not null, in an array of another kind than the type asks for;
or a list with such an element, at any depth. -/
inductive WrongKind : ArrowArray → Nat → ScalarType → Prop where
  | here {array : ArrowArray} {row : Nat} {ty : ScalarType}
      (valid : array.isNull row = false)
      (other : array.hasKind ty = false) : WrongKind array row ty
  | element {values : ArrowArray} {slots : List (Slot (Nat × Nat))} {row i : Nat}
      {ty element : ScalarType}
      (valid : ArrowArray.slotIsNull slots row = false) (shape : ListOf ty element)
      (inside : i < (values.elementsAt slots row).length)
      (wrong : WrongKind (values.elementsAt slots row) i element) :
        WrongKind (.list values slots) row ty

/-- A null is read as one at every type. -/
theorem readPropertyValue_of_isNull {array : ArrowArray} {row : Nat} (ty : ScalarType)
    (null : array.isNull row = true) : readPropertyValue array row ty = .ok .null := by
  unfold readPropertyValue
  rw [if_pos null]

theorem readFloat64_eq (array : ArrowArray) (row : Nat) :
    readFloat64 array row = readPropertyValue array row .float64 := by
  unfold readPropertyValue
  split
  case isTrue null =>
    unfold readFloat64
    rw [if_pos null]
  case isFalse => rfl

/-- A valid row of an array of another kind is not read. -/
theorem readPropertyValue_of_otherKind {array : ArrowArray} {row : Nat} {ty : ScalarType}
    (valid : array.isNull row = false) (other : array.hasKind ty = false) :
    readPropertyValue array row ty = .error (downcastError ty) := by
  have notNull : ¬ array.isNull row = true := by rw [valid]; exact Bool.false_ne_true
  unfold readPropertyValue
  rw [if_neg notNull]
  cases ty <;> cases array <;>
    first
    | rfl
    | exact absurd other Bool.noConfusion
    | (unfold readFloat64; rw [if_neg notNull])

/-- A list is read element by element. -/
theorem readPropertyValue_elements {values : ArrowArray}
    {slots : List (Slot (Nat × Nat))} {row : Nat} {ty element : ScalarType}
    (valid : ArrowArray.slotIsNull slots row = false) (shape : ListOf ty element) :
    readPropertyValue (.list values slots) row ty =
      ((List.range (values.elementsAt slots row).length).mapM fun i =>
        readPropertyValue (values.elementsAt slots row) i element).map .list := by
  have notNull : ¬ (ArrowArray.list values slots).isNull row = true := by
    rw [ArrowArray.isNull, valid]
    exact Bool.false_ne_true
  conv => lhs; unfold readPropertyValue
  rw [if_neg notNull]
  cases shape with
  | list element => rfl
  | vector dim =>
      simp only [readFloat64_eq]
      rfl

/-- Either a row is read as a list element by element, or the elements of a list
are not looked at. -/
theorem elements_or_not (array : ArrowArray) (row : Nat) (ty : ScalarType) :
    (∃ values slots element, array = .list values slots ∧
      ArrowArray.slotIsNull slots row = false ∧
        ListOf ty element) ∨
      array.isNull row = true ∨ array.hasKind ty = false ∨
        ∀ values slots, array ≠ .list values slots := by
  cases array with
  | list values slots =>
      cases null : ArrowArray.slotIsNull slots row with
      | true => exact .inr (.inl null)
      | false =>
          cases ty with
          | list element => exact .inl ⟨values, slots, element, rfl, null, .list element⟩
          | vector dim => exact .inl ⟨values, slots, .float64, rfl, null, .vector dim⟩
          | _ => exact .inr (.inr (.inl rfl))
  | _ => exact .inr (.inr (.inr nofun))

theorem simple_of_not_elements {array : ArrowArray} {row : Nat} {ty : ScalarType}
    (notElements : array.isNull row = true ∨ array.hasKind ty = false ∨
      ∀ values slots, array ≠ .list values slots) (valid : array.isNull row = false)
    (kind : array.hasKind ty = true) :
    ∀ values slots, array ≠ .list values slots := by
  rcases notElements with null | other | simple
  · rw [valid] at null
    cases null
  · rw [kind] at other
    cases other
  · exact simple

/-- What a valid row of an array of simple kind stores is what is read from it,
and it is of the type. -/
theorem read_simple {array : ArrowArray} {row : Nat} {ty : ScalarType}
    (valid : array.isNull row = false) (kind : array.hasKind ty = true)
    (simple : ∀ values slots, array ≠ .list values slots) :
    ∃ value, readPropertyValue array row ty = .ok value ∧
      array.stored row = some value ∧ HasType value ty := by
  have notNull : ¬ array.isNull row = true := by rw [valid]; exact Bool.false_ne_true
  cases array with
  | list values slots => exact absurd rfl (simple values slots)
  | other slots => cases ty <;> cases kind
  | int64 slots =>
      cases ty with
      | int64 =>
          refine ⟨.int64 (ArrowArray.valueOr 0 slots row), ?_,
            congrArg some (if_neg notNull), .int64 _⟩
          unfold readPropertyValue
          rw [if_neg notNull]
      | _ => cases kind
  | float64 slots =>
      cases ty with
      | float64 =>
          refine ⟨.float64 (ArrowArray.valueOr ⟨0⟩ slots row), ?_,
            congrArg some (if_neg notNull), .float64 _⟩
          rw [← readFloat64_eq]
          unfold readFloat64
          rw [if_neg notNull]
      | _ => cases kind
  | boolean slots =>
      cases ty with
      | bool =>
          refine ⟨.bool (ArrowArray.valueOr false slots row), ?_,
            congrArg some (if_neg notNull), .bool _⟩
          unfold readPropertyValue
          rw [if_neg notNull]
      | _ => cases kind
  | string slots =>
      cases ty with
      | string =>
          refine ⟨.string (ArrowArray.valueOr "" slots row), ?_,
            congrArg some (if_neg notNull), .string _⟩
          unfold readPropertyValue
          rw [if_neg notNull]
      | _ => cases kind
  | timestampMicrosecond slots =>
      cases ty with
      | timestamp =>
          refine ⟨.timestamp (ArrowArray.valueOr 0 slots row), ?_,
            congrArg some (if_neg notNull), .timestamp _⟩
          unfold readPropertyValue
          rw [if_neg notNull]
      | _ => cases kind
  | binary slots =>
      cases ty with
      | bytes =>
          refine ⟨.bytes (ArrowArray.valueOr [] slots row), ?_,
            congrArg some (if_neg notNull), .bytes _⟩
          unfold readPropertyValue
          rw [if_neg notNull]
      | _ => cases kind

/-- A valid row stores values of the types that its array is read as only. -/
theorem hasKind_of_hasType {array : ArrowArray} {row : Nat} {value : PropertyValue}
    {ty : ScalarType} (valid : array.isNull row = false)
    (stored : array.stored row = some value) (typed : HasType value ty) :
    array.hasKind ty = true := by
  cases array with
  | list values slots =>
      obtain ⟨items, rfl, -⟩ := (ArrowArray.stored_list_eq_some_iff valid).mp stored
      cases typed <;> rfl
  | other slots =>
      simp only [ArrowArray.isNull] at valid
      simp [ArrowArray.stored, valid] at stored
  | _ =>
      simp only [ArrowArray.isNull] at valid
      simp only [ArrowArray.stored, ArrowArray.storedSlot, valid, Bool.false_eq_true,
        if_false, Option.some.injEq] at stored
      subst stored
      cases typed
      rfl

/-- What the validity bit is set for is no null. -/
theorem stored_ne_null {array : ArrowArray} {row : Nat}
    (valid : array.isNull row = false) : array.stored row ≠ some .null := by
  intro stored
  cases array with
  | list values slots =>
      obtain ⟨items, impossible, -⟩ :=
        (ArrowArray.stored_list_eq_some_iff valid).mp stored
      cases impossible
  | other slots =>
      simp only [ArrowArray.isNull] at valid
      simp [ArrowArray.stored, valid] at stored
  | _ =>
      simp only [ArrowArray.isNull] at valid
      simp [ArrowArray.stored, ArrowArray.storedSlot, valid] at stored

/-- Reading one array as one type yields what is stored where that is of the
type. -/
def ReadsStored (array : ArrowArray) (row : Nat) (ty : ScalarType) : Prop :=
  ∀ value, readPropertyValue array row ty = .ok value ↔
    array.stored row = some value ∧ Inhabits value ty

/-- Away from lists, reading yields what is stored where that is of the type. -/
theorem readsStored_of_not_elements {array : ArrowArray} {row : Nat}
    {ty : ScalarType}
    (notElements : array.isNull row = true ∨ array.hasKind ty = false ∨
      ∀ values slots, array ≠ .list values slots) : ReadsStored array row ty := by
  intro value
  cases null : array.isNull row with
  | true =>
      rw [readPropertyValue_of_isNull ty null, ArrowArray.stored_of_isNull null,
        Except.ok.injEq, Option.some.injEq]
      constructor
      · rintro rfl
        exact ⟨rfl, .inl rfl⟩
      · exact And.left
  | false =>
      cases kind : array.hasKind ty with
      | false =>
          rw [readPropertyValue_of_otherKind null kind]
          constructor
          · intro impossible
            cases impossible
          · rintro ⟨stored, rfl | typed⟩
            · exact absurd stored (stored_ne_null null)
            · rw [hasKind_of_hasType null stored typed] at kind
              cases kind
      | true =>
          obtain ⟨found, read, stored, typed⟩ :=
            read_simple null kind (simple_of_not_elements notElements null kind)
          rw [read, stored, Except.ok.injEq, Option.some.injEq]
          constructor
          · rintro rfl
            exact ⟨rfl, .inr typed⟩
          · exact And.left

section Elements

variable {elements : ArrowArray} {element : ScalarType}

/-- The elements of a list, each read as the element type. -/
theorem readElements_eq_ok_iff (each : ∀ i, ReadsStored elements i element)
    {items : List PropertyValue} :
    ((List.range elements.length).mapM fun i =>
      readPropertyValue elements i element) = .ok items ↔
      List.Forall₂ (fun i item => elements.stored i = some item)
        (List.range elements.length) items ∧
        ∀ item ∈ items, Inhabits item element := by
  rw [mapM_eq_ok_iff, forall₂_congr fun i _ item => each i item]
  generalize List.range elements.length = indices
  constructor
  · intro related
    refine ⟨related.imp fun _ _ both => both.1, fun item member => ?_⟩
    obtain ⟨i, -, -, typed⟩ := (forall₂_partner related).1 item member
    exact typed
  · rintro ⟨related, typed⟩
    induction related with
    | nil => exact .nil
    | cons head _ ih =>
        exact .cons ⟨head, typed _ List.mem_cons_self⟩
          (ih fun item member => typed item (List.mem_cons_of_mem _ member))

end Elements

/-- The value read is the one stored, and there is one exactly where what is
stored is of the type. -/
theorem readPropertyValue_eq_ok_iff (array : ArrowArray) (row : Nat)
    (ty : ScalarType) : ReadsStored array row ty := by
  revert array row
  induction ty using ListOf.induction with
  | step ty ih =>
      intro array row
      rcases elements_or_not array row ty
        with ⟨values, slots, element, rfl, valid, shape⟩ | notElements
      · intro value
        rw [readPropertyValue_elements valid shape, map_eq_ok_iff,
          ArrowArray.stored_list_eq_some_iff valid]
        constructor
        · rintro ⟨items, read, rfl⟩
          obtain ⟨related, typed⟩ :=
            (readElements_eq_ok_iff fun i => ih element shape _ i).mp read
          exact ⟨⟨items, rfl, related⟩, (inhabits_elements_iff shape).mpr typed⟩
        · rintro ⟨⟨items, rfl, related⟩, typed⟩
          have each := (inhabits_elements_iff shape).mp typed
          exact ⟨items, (readElements_eq_ok_iff fun i => ih element shape _ i).mpr
            ⟨related, each⟩, rfl⟩
      · exact readsStored_of_not_elements notElements

/-- A row can be read, or an array of another kind is reached and the error says
that the row does not conform. -/
def ReadOrWrongKind (array : ArrowArray) (row : Nat) (ty : ScalarType) : Prop :=
  ((∃ value, readPropertyValue array row ty = .ok value) ∧ ¬ WrongKind array row ty) ∨
    (∃ reason, readPropertyValue array row ty = .error (.nonConformingRow reason)) ∧
      WrongKind array row ty

/-- A column that is no list of elements is read, or is of the wrong kind. -/
theorem readOrWrongKind_of_not_elements {array : ArrowArray} {row : Nat}
    {ty : ScalarType}
    (notElements : array.isNull row = true ∨ array.hasKind ty = false ∨
      ∀ values slots, array ≠ .list values slots) : ReadOrWrongKind array row ty := by
  cases null : array.isNull row with
  | true =>
      refine .inl ⟨⟨.null, readPropertyValue_of_isNull ty null⟩, fun wrong => ?_⟩
      cases wrong with
      | here valid other =>
          rw [null] at valid
          cases valid
      | element valid _ _ _ =>
          rw [ArrowArray.isNull, valid] at null
          cases null
  | false =>
      cases kind : array.hasKind ty with
      | false =>
          exact .inr ⟨⟨_, readPropertyValue_of_otherKind null kind⟩, .here null kind⟩
      | true =>
          have simple := simple_of_not_elements notElements null kind
          obtain ⟨value, read, -, -⟩ := read_simple null kind simple
          refine .inl ⟨⟨value, read⟩, fun wrong => ?_⟩
          cases wrong with
          | here _ other =>
              rw [kind] at other
              cases other
          | element => exact simple _ _ rfl

/-- A list is read if all its elements are, and of the wrong kind if one of them
is. -/
theorem readOrWrongKind_elements {values : ArrowArray}
    {slots : List (Slot (Nat × Nat))} {row : Nat} {ty element : ScalarType}
    (valid : ArrowArray.slotIsNull slots row = false) (shape : ListOf ty element)
    (each : ∀ i, ReadOrWrongKind (values.elementsAt slots row) i element) :
    ReadOrWrongKind (.list values slots) row ty := by
  rw [ReadOrWrongKind, readPropertyValue_elements valid shape]
  cases read : (List.range (values.elementsAt slots row).length).mapM fun i =>
      readPropertyValue (values.elementsAt slots row) i element with
  | ok items =>
      refine .inl ⟨⟨.list items, rfl⟩, ?_⟩
      have related := mapM_eq_ok_iff.mp read
      intro wrong
      cases wrong with
      | here _ other => cases shape <;> cases other
      | element _ shape' inside wrong =>
          cases shape.unique shape'
          obtain ⟨item, -, found⟩ :=
            (forall₂_partner related).2 _ (List.mem_range.mpr inside)
          rcases each _ with ⟨-, right⟩ | ⟨⟨reason, failed⟩, -⟩
          · exact right wrong
          · rw [failed] at found
            cases found
  | error e =>
      obtain ⟨i, inside, failed⟩ := exists_error_of_mapM read
      rcases each i with ⟨⟨value, found⟩, -⟩ | ⟨⟨reason, failed'⟩, wrong⟩
      · rw [failed] at found
        cases found
      · rw [failed] at failed'
        cases failed'
        exact .inr ⟨⟨reason, rfl⟩, .element valid shape (List.mem_range.mp inside) wrong⟩

/-- Every value is read as it is stored, or its column is of the wrong kind. -/
theorem read_or_wrongKind (array : ArrowArray) (row : Nat) (ty : ScalarType) :
    ReadOrWrongKind array row ty := by
  revert array row
  induction ty using ListOf.induction with
  | step ty ih =>
      intro array row
      rcases elements_or_not array row ty
        with ⟨values, slots, element, rfl, valid, shape⟩ | notElements
      · exact readOrWrongKind_elements valid shape fun i => ih element shape _ i
      · exact readOrWrongKind_of_not_elements notElements

/-- A property is refused exactly where an array of another kind than declared
is reached. -/
theorem readPropertyValue_eq_error_iff {array : ArrowArray} {row : Nat}
    {ty : ScalarType} :
    (∃ reason, readPropertyValue array row ty = .error (.nonConformingRow reason)) ↔
      WrongKind array row ty := by
  rcases read_or_wrongKind array row ty with ⟨⟨value, read⟩, right⟩ | ⟨failed, wrong⟩
  · refine iff_of_false ?_ right
    rintro ⟨reason, failed⟩
    rw [read] at failed
    cases failed
  · exact iff_of_true failed wrong

/-- A property is read exactly where a value of its type, or null, is stored. -/
theorem not_wrongKind_iff {array : ArrowArray} {row : Nat} {ty : ScalarType} :
    ¬ WrongKind array row ty ↔ ∃ value, array.stored row = some value ∧
      Inhabits value ty := by
  rcases read_or_wrongKind array row ty
    with ⟨⟨value, read⟩, right⟩ | ⟨⟨reason, failed⟩, wrong⟩
  · exact iff_of_true right
      ⟨value, (readPropertyValue_eq_ok_iff array row ty value).mp read⟩
  · refine iff_of_false (not_not_intro wrong) ?_
    rintro ⟨value, conforms⟩
    have read := (readPropertyValue_eq_ok_iff array row ty value).mpr conforms
    rw [failed] at read
    cases read

end GraphEngine
