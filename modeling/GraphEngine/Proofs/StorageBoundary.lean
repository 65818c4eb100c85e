/-
Module: GraphEngine.Proofs.StorageBoundary
Layer: Proofs
Purpose: Which rows of an Arrow batch become rows of the engine.  A row is
  refused exactly where a column is missing or of another kind; nulls in id
  columns and in columns of required properties are not looked for.
Trusted boundary: none
Main exports: RowShape, itemFor, Readable, OnlyConforming, NoNulls, reads_node,
  reads_edge, onlyConforming_iff
-/
import GraphEngine.Spec.StoredValues

namespace GraphEngine

/-! ### Tables -/

/-- What the rows of a kind of table are made of: ids, each under the name of
its column, and properties. -/
structure RowShape (Row : Type) where
  idColumns : List String
  ids : Row → List (String × Nat)
  properties : Row → Properties
  names : ∀ r, (ids r).map Prod.fst = idColumns

/-- How a row of a node table is read. -/
def nodeShape : RowShape NodeRow where
  idColumns := ["node_id"]
  ids r := [("node_id", r.id.val)]
  properties := NodeRow.properties
  names _ := rfl

/-- How a row of an edge table is read. -/
def edgeShape : RowShape EdgeRow where
  idColumns := ["edge_id", "src_node_id", "dst_node_id"]
  ids r := [("edge_id", r.id.val), ("src_node_id", r.src.val), ("dst_node_id", r.dst.val)]
  properties := EdgeRow.properties
  names _ := rfl

/-- What a batch answers for one of its rows.  A batch that is refused as a
whole yields one error, for all its rows. -/
def itemFor {Row : Type} (items : List (Except StorageError Row)) (row : Nat) :
    Option (Except StorageError Row) :=
  match items with
  | [.error e] => some (.error e)
  | items => items[row]?

theorem itemFor_map {Row : Type} (f : Nat → Except StorageError Row)
    {count row : Nat} (inside : row < count) :
    itemFor ((List.range count).map f) row = some (f row) := by
  unfold itemFor
  split
  case h_1 e single =>
    have one : count = 1 := by simpa using congrArg List.length single
    subst one
    have zero : row = 0 := Nat.lt_one_iff.mp inside
    subst zero
    exact congrArg some (List.singleton_inj.mp single).symm
  case h_2 => rw [List.getElem?_map, List.getElem?_range inside, Option.map_some]

section Batch

variable (batch : RecordBatch) (row : Nat)

/-- The id column has the kind of ids. -/
def IdReadable (name : String) : Prop :=
  ∃ slots, batch.columnByName name = some (.int64 slots)

/-- The property has a column, and no array of another kind than declared is
reached in the row. -/
def PropertyReadable (prop : PropertyDef) : Prop :=
  ∃ column, batch.columnByName prop.name = some column ∧ ¬ WrongKind column row prop.ty

/-- The row holds this id in its column. -/
def StoresId (id : String × Nat) : Prop :=
  ∃ slots value, batch.columnByName id.1 = some (.int64 slots) ∧
    slots[row]? = some { value := value, valid := true } ∧
    id.2 = asU64 value

/-- The properties are those declared, each with the value that its column
stores in the row, null or of its type. -/
structure StoresProperties (declared : List PropertyDef) (properties : Properties) :
    Prop where
  stored : ∀ prop ∈ declared, ∃ column value, batch.columnByName prop.name = some column ∧
    column.stored row = some value ∧ properties[prop.name]? = some value ∧
      Inhabits value prop.ty
  declaredOnly : ∀ name ∈ properties, ∃ prop ∈ declared, prop.name = name

/-- No property that is declared without `?` is null. -/
def RequiredPresent (declared : List PropertyDef) (properties : Properties) : Prop :=
  ∀ prop ∈ declared, prop.optional = false → properties[prop.name]? ≠ some .null

variable {Row : Type} (shape : RowShape Row) (declared : List PropertyDef)

/-- Every column that the row is read from is there and of the right kind. -/
structure Readable : Prop where
  id : ∀ name ∈ shape.idColumns, IdReadable batch name
  property : ∀ prop ∈ declared, PropertyReadable batch row prop

/-- Every row is stored in full and handed out as it is stored, or is refused as
not conforming.  A row stored in full has its ids and its required properties;
the values handed out are those stored under the declared names. -/
def OnlyConforming (items : List (Except StorageError Row)) : Prop :=
  ∀ row < batch.numRows, ∃ item, itemFor items row = some item ∧
    ((∃ r, item = .ok r ∧ (∀ id ∈ shape.ids r, StoresId batch row id) ∧
        StoresProperties batch row declared (shape.properties r) ∧
        RequiredPresent declared (shape.properties r)) ∨
      ∃ reason, item = .error (.nonConformingRow reason))

/-- In no row that can be read is an id or a required property null. -/
def NoNulls : Prop :=
  ∀ row < batch.numRows, Readable batch row shape declared →
    (∀ name ∈ shape.idColumns, ∀ column, batch.columnByName name = some column →
      column.isNull row = false) ∧
      ∀ prop ∈ declared, prop.optional = false →
        ∀ column, batch.columnByName prop.name = some column →
        column.isNull row = false

/-- The row holds this id in its column, or the buffer under a null. -/
def BuffersId (id : String × Nat) : Prop :=
  ∃ slots, batch.columnByName id.1 = some (.int64 slots) ∧
    id.2 = asU64 (ArrowArray.valueOr 0 slots row)

/-- A row is read exactly where its columns are there and of the right kind. -/
def ReadsRows (items : List (Except StorageError Row)) : Prop :=
  ∀ row < batch.numRows,
    (∃ r, itemFor items row = some (.ok r) ∧
      (∀ id ∈ shape.ids r, BuffersId batch row id) ∧
        StoresProperties batch row declared (shape.properties r) ∧
          Readable batch row shape declared) ∨
      (∃ reason, itemFor items row = some (.error (.nonConformingRow reason))) ∧
        ¬ Readable batch row shape declared

end Batch

/-! ### Reading a row -/

section Read

variable {batch : RecordBatch} {row : Nat}

/-- Without the column no id is readable. -/
theorem not_idReadable {name : String} (unnamed : batch.columnByName name = none) :
    ¬ IdReadable batch name := by
  rintro ⟨slots, named⟩
  rw [unnamed] at named
  cases named

/-- An id is read exactly from a column of the right kind. -/
theorem readId_or {name : String} {column : ArrowArray}
    (named : batch.columnByName name = some column) (row : Nat) :
    (∃ id, readId column row = .ok id ∧ BuffersId batch row (name, id) ∧
      IdReadable batch name) ∨
      (∃ reason, readId column row = .error (.nonConformingRow reason)) ∧
        ¬ IdReadable batch name := by
  cases column with
  | int64 slots => exact .inl ⟨_, rfl, ⟨slots, named, rfl⟩, slots, named⟩
  | _ =>
      refine .inr ⟨⟨_, rfl⟩, ?_⟩
      rintro ⟨slots, named'⟩
      rw [named] at named'
      cases named'

/-- A property is read as it is stored, or fails its row. -/
theorem readProperty_or (batch : RecordBatch) (row : Nat) (prop : PropertyDef) :
    (∃ column value, readProperty batch row prop = .ok (prop.name, value) ∧
        batch.columnByName prop.name = some column ∧ column.stored row = some value ∧
          Inhabits value prop.ty) ∨
      (∃ reason, readProperty batch row prop = .error (.nonConformingRow reason)) ∧
        ¬ PropertyReadable batch row prop := by
  rw [readProperty]
  cases named : batch.columnByName prop.name with
  | none =>
      refine .inr ⟨⟨_, rfl⟩, ?_⟩
      rintro ⟨column, named', -⟩
      rw [named] at named'
      cases named'
  | some column =>
      rcases read_or_wrongKind column row prop.ty
        with ⟨⟨value, read⟩, -⟩ | ⟨⟨reason, failed⟩, wrong⟩
      · obtain ⟨stored, typed⟩ :=
          (readPropertyValue_eq_ok_iff column row prop.ty value).mp read
        refine .inl ⟨column, value, ?_, rfl, stored, typed⟩
        exact congrArg (Except.map _) read
      · refine .inr ⟨⟨reason, congrArg (Except.map _) failed⟩, ?_⟩
        rintro ⟨column', named', right⟩
        rw [named] at named'
        cases named'
        exact right wrong

/-- The name and the value are those of the property in the row. -/
def ReadFrom (batch : RecordBatch) (row : Nat) (prop : PropertyDef)
    (pair : String × PropertyValue) : Prop :=
  pair.1 = prop.name ∧ ∃ column, batch.columnByName prop.name = some column ∧
    column.stored row = some pair.2 ∧
    Inhabits pair.2 prop.ty

/-- A property that is read is read from its column. -/
theorem readFrom_of_read {prop : PropertyDef} {pair : String × PropertyValue}
    (read : readProperty batch row prop = .ok pair) : ReadFrom batch row prop pair := by
  rcases readProperty_or batch row prop
    with ⟨column, value, found, stored⟩ | ⟨⟨reason, failed⟩, -⟩
  · rw [read] at found
    cases found
    exact ⟨rfl, column, stored⟩
  · rw [read] at failed
    cases failed

/-- Pairs that are read from the properties store them; those of one name are
read from one column. -/
theorem storesProperties_collectMap {declared : List PropertyDef}
    {pairs : List (String × PropertyValue)}
    (related : List.Forall₂ (ReadFrom batch row) declared pairs) :
    StoresProperties batch row declared (collectMap pairs) := by
  constructor
  · intro prop listed
    obtain ⟨⟨_, value⟩, inPairs, rfl, column, named, stored, typed⟩ :=
      (forall₂_partner related).2 prop listed
    refine ⟨column, value, named, stored, getElem?_collectMap_of_agree inPairs ?_, typed⟩
    intro other inPairs'
    obtain ⟨prop', -, same, column', named', stored', -⟩ :=
      (forall₂_partner related).1 _ inPairs'
    rw [← same, named] at named'
    cases named'
    rw [stored] at stored'
    exact (Option.some.inj stored').symm
  · intro name present
    have listed : name ∈ pairs.map Prod.fst :=
      getElem?_collectMap_isSome.mp (Std.ExtTreeMap.isSome_getElem?_iff_mem.mpr present)
    obtain ⟨pair, inPairs, rfl⟩ := List.mem_map.mp listed
    obtain ⟨prop, inDeclared, same, -⟩ := (forall₂_partner related).1 pair inPairs
    exact ⟨prop, inDeclared, same.symm⟩

/-- The properties of a row are read exactly where each of them is readable. -/
theorem readProperties_or (batch : RecordBatch) (row : Nat)
    (declared : List PropertyDef) :
    (∃ properties, readProperties batch row declared = .ok properties ∧
        StoresProperties batch row declared properties ∧
          ∀ prop ∈ declared, PropertyReadable batch row prop) ∨
      (∃ reason, readProperties batch row declared = .error (.nonConformingRow reason)) ∧
        ∃ prop ∈ declared, ¬ PropertyReadable batch row prop := by
  rw [readProperties]
  cases read : declared.mapM (readProperty batch row) with
  | ok pairs =>
      have related := (mapM_eq_ok_iff.mp read).imp fun _ _ found => readFrom_of_read found
      refine .inl ⟨collectMap pairs, rfl, storesProperties_collectMap related, ?_⟩
      intro prop listed
      obtain ⟨pair, -, -, column, named, stored, typed⟩ :=
        (forall₂_partner related).2 prop listed
      exact ⟨column, named, not_wrongKind_iff.mpr ⟨pair.2, stored, typed⟩⟩
  | error e =>
      obtain ⟨prop, listed, failed⟩ := exists_error_of_mapM read
      rcases readProperty_or batch row prop
        with ⟨column, value, found, -⟩ | ⟨⟨reason, failed'⟩, unreadable⟩
      · rw [failed] at found
        cases found
      · rw [failed] at failed'
        cases failed'
        exact .inr ⟨⟨reason, rfl⟩, prop, listed, unreadable⟩

theorem itemFor_single {Row : Type} (e : StorageError) (row : Nat) :
    itemFor [(.error e : Except StorageError Row)] row = some (.error e) := rfl

/-- Node rows are read exactly where their columns are there and of the right
kind. -/
theorem reads_node (batch : RecordBatch) (nodeDef : NodeDef) :
    ReadsRows batch nodeShape nodeDef.properties
      (batchToNodeRows (.ok batch) nodeDef) := by
  intro row inside
  simp only [batchToNodeRows]
  cases idNamed : batch.columnByName "node_id" with
  | none =>
      refine .inr ⟨⟨_, itemFor_single _ row⟩, fun readable => ?_⟩
      exact not_idReadable idNamed (readable.id _ List.mem_cons_self)
  | some idColumn =>
      simp only
      rw [itemFor_map _ inside]
      rcases readId_or idNamed row
        with ⟨id, idRead, idBuffered, idKind⟩ | ⟨⟨reason, idFailed⟩, otherId⟩
      · rcases readProperties_or batch row nodeDef.properties with
          ⟨properties, read, stored, readable⟩ | ⟨⟨reason, failed⟩, prop,
            listed, unreadable⟩
        · refine .inl ⟨{ id := { val := id }, properties := properties }, ?_, ?_,
            stored, ?_, readable⟩
          · rw [idRead, read]
            rfl
          · exact List.forall_mem_singleton.mpr idBuffered
          · exact List.forall_mem_singleton.mpr idKind
        · refine .inr
            ⟨⟨reason, ?_⟩, fun readable => unreadable (readable.property prop listed)⟩
          rw [idRead, failed]
          rfl
      · refine .inr
          ⟨⟨reason, ?_⟩, fun readable => otherId (readable.id _ List.mem_cons_self)⟩
        rw [idFailed]
        rfl

/-- Edge rows are read exactly where their columns are there and of the right
kind. -/
theorem reads_edge (batch : RecordBatch) (edgeDef : EdgeDef) :
    ReadsRows batch edgeShape edgeDef.properties
      (batchToEdgeRows (.ok batch) edgeDef) := by
  intro row inside
  simp only [batchToEdgeRows]
  have idListed : "edge_id" ∈ edgeShape.idColumns := List.mem_cons_self
  have srcListed : "src_node_id" ∈ edgeShape.idColumns :=
    List.mem_cons_of_mem _ List.mem_cons_self
  have dstListed : "dst_node_id" ∈ edgeShape.idColumns :=
    List.mem_cons_of_mem _ (List.mem_cons_of_mem _ List.mem_cons_self)
  cases idNamed : batch.columnByName "edge_id" with
  | none =>
      exact .inr ⟨⟨_, itemFor_single _ row⟩, fun readable =>
        not_idReadable idNamed (readable.id _ idListed)⟩
  | some idColumn =>
  cases srcNamed : batch.columnByName "src_node_id" with
  | none =>
      exact .inr ⟨⟨_, itemFor_single _ row⟩, fun readable =>
        not_idReadable srcNamed (readable.id _ srcListed)⟩
  | some srcColumn =>
  cases dstNamed : batch.columnByName "dst_node_id" with
  | none =>
      exact .inr ⟨⟨_, itemFor_single _ row⟩, fun readable =>
        not_idReadable dstNamed (readable.id _ dstListed)⟩
  | some dstColumn =>
      simp only
      rw [itemFor_map _ inside]
      rcases readId_or idNamed row
        with ⟨id, idRead, idBuffered, idKind⟩ | ⟨⟨reason, idFailed⟩, otherId⟩
      · rcases readId_or srcNamed row
          with ⟨src, srcRead, srcBuffered, srcKind⟩ | ⟨⟨reason, srcFailed⟩, otherSrc⟩
        · rcases readId_or dstNamed row with ⟨dst, dstRead, dstBuffered,
            dstKind⟩ | ⟨⟨reason, dstFailed⟩, otherDst⟩
          · rcases readProperties_or batch row edgeDef.properties with
              ⟨properties, read, stored, readable⟩ |
              ⟨⟨reason, failed⟩, prop, listed, unreadable⟩
            · refine .inl
                ⟨⟨⟨id⟩, ⟨src⟩, ⟨dst⟩, properties⟩, ?_, ?_, stored, ?_, readable⟩
              · rw [idRead, srcRead, dstRead, read]
                rfl
              · exact List.forall_mem_cons.mpr ⟨idBuffered,
                  List.forall_mem_cons.mpr
                    ⟨srcBuffered, List.forall_mem_singleton.mpr dstBuffered⟩⟩
              · exact List.forall_mem_cons.mpr ⟨idKind,
                  List.forall_mem_cons.mpr
                    ⟨srcKind, List.forall_mem_singleton.mpr dstKind⟩⟩
            · refine .inr ⟨⟨reason, ?_⟩, fun readable =>
                unreadable (readable.property prop listed)⟩
              rw [idRead, srcRead, dstRead, failed]
              rfl
          · refine .inr ⟨⟨reason, ?_⟩, fun readable => otherDst (readable.id _ dstListed)⟩
            rw [idRead, srcRead, dstFailed]
            rfl
        · refine .inr ⟨⟨reason, ?_⟩, fun readable => otherSrc (readable.id _ srcListed)⟩
          rw [idRead, srcFailed]
          rfl
      · refine .inr ⟨⟨reason, ?_⟩, fun readable => otherId (readable.id _ idListed)⟩
        rw [idFailed]
        rfl

end Read

/-! ### Nulls -/

section Nulls

variable {batch : RecordBatch} {row : Nat}

theorem length_of_named {name : String} {column : ArrowArray}
    (named : batch.columnByName name = some column) :
    column.length = batch.numRows := by
  obtain ⟨entry, found, rfl⟩ := Option.map_eq_some_iff.mp named
  exact batch.length_eq entry (List.mem_of_find?_eq_some found)

/-- A row stores null exactly where its slot is not valid. -/
theorem isNull_iff_stored {column : ArrowArray} {row : Nat} :
    column.isNull row = true ↔ column.stored row = some .null := by
  constructor
  · exact ArrowArray.stored_of_isNull
  · intro stored
    cases null : column.isNull row with
    | true => rfl
    | false => exact absurd stored (stored_ne_null null)

/-- The id read is the one stored exactly where the slot is valid. -/
theorem storesId_iff {id : String × Nat} {slots : List (Slot Int)}
    (inside : row < batch.numRows)
    (named : batch.columnByName id.1 = some (.int64 slots))
    (value : id.2 = asU64 (ArrowArray.valueOr 0 slots row)) :
    StoresId batch row id ↔ (ArrowArray.int64 slots).isNull row = false := by
  have long : row < slots.length := by
    have same : slots.length = batch.numRows := length_of_named named
    rwa [same]
  have slot : slots[row]? = some slots[row] := List.getElem?_eq_getElem long
  rw [ArrowArray.isNull, ArrowArray.slotIsNull, slot, Option.any_some, Bool.not_eq_false']
  constructor
  · rintro ⟨slots', value', named', slot', -⟩
    rw [named] at named'
    cases named'
    rw [slot] at slot'
    rw [Option.some.inj slot']
  · intro valid
    refine ⟨slots, slots[row].value, named, ?_, ?_⟩
    · rw [slot, ← valid]
    · rw [value, ArrowArray.valueOr, slot]
      rfl

/-- Rows that are read where they can be are stored in full exactly where
nothing required is null. -/
theorem onlyConforming_iff_of_reads {Row : Type} {shape : RowShape Row}
    {declared : List PropertyDef} {items : List (Except StorageError Row)}
    (reads : ReadsRows batch shape declared items) :
    OnlyConforming batch shape declared items ↔ NoNulls batch shape declared := by
  constructor
  · intro only row inside readable
    rcases reads row inside with ⟨r, answered, buffers, stores, -⟩ | ⟨-, unreadable⟩
    · obtain ⟨item, answered', conforming⟩ := only row inside
      rw [answered] at answered'
      cases answered'
      rcases conforming with ⟨r', same, ids, -, required⟩ | ⟨reason, impossible⟩
      · cases same
        constructor
        · intro name listed column named
          rw [← shape.names r] at listed
          obtain ⟨id, inRow, rfl⟩ := List.mem_map.mp listed
          obtain ⟨slots, named', value⟩ := buffers id inRow
          rw [named] at named'
          cases named'
          exact (storesId_iff inside named value).mp (ids id inRow)
        · intro prop listed demanded column named
          obtain ⟨column', value, named', stored, found, -⟩ := stores.stored prop listed
          rw [named] at named'
          cases named'
          apply Bool.eq_false_of_not_eq_true
          intro null
          rw [isNull_iff_stored, stored] at null
          cases null
          exact required prop listed demanded found
      · cases impossible
    · exact absurd readable unreadable
  · intro noNulls row inside
    rcases reads row inside
      with ⟨r, answered, buffers, stores, readable⟩ | ⟨⟨reason, answered⟩, -⟩
    · obtain ⟨idsValid, requiredValid⟩ := noNulls row inside readable
      refine ⟨_, answered, .inl ⟨r, rfl, ?_, stores, ?_⟩⟩
      · intro id inRow
        obtain ⟨slots, named, value⟩ := buffers id inRow
        have listed : id.1 ∈ shape.idColumns := by
          rw [← shape.names r]
          exact List.mem_map_of_mem inRow
        exact (storesId_iff inside named value).mpr (idsValid id.1 listed _ named)
      · intro prop listed demanded null
        obtain ⟨column, value, named, stored, found, -⟩ := stores.stored prop listed
        rw [found] at null
        cases null
        have invalid := isNull_iff_stored.mpr stored
        rw [requiredValid prop listed demanded column named] at invalid
        cases invalid
    · exact ⟨_, answered, .inr ⟨reason, rfl⟩⟩

end Nulls

/-- Only rows stored in full pass, as they are stored, exactly where no id and
no required property is null in a row whose columns are all there and of the
right kind.  It is so of every batch, for node and for edge tables; rows with a
column that is missing or of another kind are turned away by the reader itself. -/
theorem onlyConforming_iff (batch : RecordBatch) (nodeDef : NodeDef)
    (edgeDef : EdgeDef) :
    (OnlyConforming batch nodeShape nodeDef.properties
      (batchToNodeRows (.ok batch) nodeDef) ↔
        NoNulls batch nodeShape nodeDef.properties) ∧
      (OnlyConforming batch edgeShape edgeDef.properties
        (batchToEdgeRows (.ok batch) edgeDef) ↔
        NoNulls batch edgeShape edgeDef.properties) :=
  ⟨onlyConforming_iff_of_reads (reads_node batch nodeDef),
    onlyConforming_iff_of_reads (reads_edge batch edgeDef)⟩

/-- One row, whose id is null. -/
def nullId : RecordBatch where
  columns := [("node_id", .int64 [{ value := 0, valid := false }])]
  numRows := 1
  length_eq := by simp [ArrowArray.length]

/-- The row with the null id passes as node 0. -/
theorem nullId_passes :
    ¬ ∀ (batch : RecordBatch) (nodeDef : NodeDef) (edgeDef : EdgeDef),
    OnlyConforming batch nodeShape nodeDef.properties
      (batchToNodeRows (.ok batch) nodeDef) ∧
      OnlyConforming batch edgeShape edgeDef.properties
        (batchToEdgeRows (.ok batch) edgeDef) := by
  intro all
  have nodes := (all nullId { label := Social.person, properties := [] }
    { edgeType := Social.knows, source := Social.person, target := Social.person,
      properties := [] }).1
  have passes : itemFor
      (batchToNodeRows (.ok nullId) { label := Social.person, properties := [] }) 0 =
      some (.ok { id := { val := 0 }, properties := ∅ }) := rfl
  obtain ⟨item, answered, conforming⟩ := nodes 0 Nat.one_pos
  rw [passes] at answered
  cases answered
  rcases conforming with ⟨r, same, ids, -⟩ | ⟨reason, impossible⟩
  · cases same
    obtain ⟨slots, value, named, slot, -⟩ := ids ("node_id", 0) List.mem_cons_self
    cases named
    cases slot
  · cases impossible

end GraphEngine
