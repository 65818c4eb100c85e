/-
Module: GraphEngine.Proofs.PropertyLookup
Layer: Proofs
Purpose: The property index and the retained records are two views of the rows:
  an equality or a range lookup finds, each once, the nodes whose record has the
  label and a value of the property with a key that was asked for.
Trusted boundary: none
Main exports: mem_lookupRange, nodup_lookupRange, IndexMatchesRecords,
  indexMatchesRecords_of_built
-/
import GraphEngine.Proofs.Build

namespace GraphEngine

open Std (ExtTreeMap)

/-! ### Lookups of any index -/

section Lookups

variable {index : PropertyIndex} {labelOrType property : String}

/-- The pairs of one sorted map are its keys with their equality lookups. -/
theorem mem_tree_iff {tree : ExtTreeMap PropertyKey (List NodeId) compare}
    (found : index.byKey[(labelOrType, property)]? = some tree)
    {entry : PropertyKey × List NodeId} :
    entry ∈ tree.toList ↔ entry.1 ∈ tree ∧
      entry.2 = index.lookupEq labelOrType property entry.1 := by
  obtain ⟨key, ids⟩ := entry
  rw [Std.ExtTreeMap.mem_toList_iff_getElem?_eq_some, PropertyIndex.lookupEq, found,
    Option.bind_some]
  rw [Std.ExtTreeMap.mem_iff_isSome_getElem?]
  dsimp only
  cases tree[key]? with
  | none => simp
  | some ids' => simp [eq_comm]

/-- A range lookup is the union of the equality lookups of the keys within the
bounds. -/
theorem mem_lookupRange {lower upper : Bound} {v : NodeId} :
    v ∈ index.lookupRange labelOrType property lower upper ↔
      ∃ key, lower.allowsBelow key = true ∧ upper.allowsAbove key = true ∧
        v ∈ index.lookupEq labelOrType property key := by
  rw [PropertyIndex.lookupRange]
  split
  case h_1 tree found =>
    simp only [List.mem_flatMap, List.mem_filter, Bool.and_eq_true, mem_tree_iff found]
    constructor
    · intro found
      obtain ⟨entry, ⟨⟨-, same⟩, above, below⟩, member⟩ := found
      exact ⟨entry.1, above, below, same ▸ member⟩
    · intro within
      obtain ⟨key, above, below, member⟩ := within
      refine ⟨(key, _), ⟨⟨?_, rfl⟩, above, below⟩, member⟩
      rw [Std.ExtTreeMap.mem_iff_isSome_getElem?]
      rw [PropertyIndex.lookupEq, found, Option.bind_some] at member
      cases present : tree[key]? with
      | none =>
          rw [present] at member
          cases member
      | some ids => rfl
  case h_2 missing =>
    constructor
    · intro impossible
      cases impossible
    · intro within
      obtain ⟨_, -, -, member⟩ := within
      rw [PropertyIndex.lookupEq, missing] at member
      cases member

/-- Where no lookup repeats a node and no two lookups share one, a range lookup
repeats none. -/
theorem nodup_lookupRange {lower upper : Bound}
    (each : ∀ key, (index.lookupEq labelOrType property key).Nodup)
    (apart : ∀ key key' v, v ∈ index.lookupEq labelOrType property key →
      v ∈ index.lookupEq labelOrType property key' → key = key') :
    (index.lookupRange labelOrType property lower upper).Nodup := by
  rw [PropertyIndex.lookupRange]
  split
  case h_1 tree found =>
    have keys : tree.toList.Pairwise fun first second => first.1 ≠ second.1 :=
      List.pairwise_map.mp (keys_nodup_toList tree)
    rw [List.nodup_flatMap]
    constructor
    · intro entry member
      rw [((mem_tree_iff found).mp (List.mem_filter.mp member).1).2]
      exact each _
    · refine (keys.filter _).imp_of_mem
        fun listed listed' distinct v inFirst inSecond => ?_
      rw [((mem_tree_iff found).mp (List.mem_filter.mp listed).1).2] at inFirst
      rw [((mem_tree_iff found).mp (List.mem_filter.mp listed').1).2] at inSecond
      exact distinct (apart _ _ v inFirst inSecond)
  case h_2 => exact List.nodup_nil

/-- Accepted bounds do not panic. -/
theorem lookupRangeChecked_of_accepted {lower upper : Bound}
    (accepted : Bound.accepted lower upper = true) :
    index.lookupRangeChecked labelOrType property lower upper =
      some (index.lookupRange labelOrType property lower upper) := by
  rw [PropertyIndex.lookupRangeChecked, accepted, Bool.not_true, Bool.and_false,
    if_neg Bool.false_ne_true]

end Lookups

/-! ### Rows, index and records -/

/-- No label declares two properties of one name. -/
def Schema.UniqueProperties (schema : Schema) : Prop :=
  ∀ label nodeDef, schema.nodeDef label = some nodeDef →
    (nodeDef.properties.map PropertyDef.name).Nodup

/-- The label declares the property, and marks it as indexed. -/
def Schema.Indexes (schema : Schema) (label : Label) (prop : PropertyDef) : Prop :=
  ∃ nodeDef, schema.nodeDef label = some nodeDef ∧ prop ∈ nodeDef.properties ∧
    prop.indexed = true

/-- Every value stored under a declared property has the declared type or is
null. -/
def Dataset.ValuesTyped (dataset : Dataset) : Prop :=
  ∀ node ∈ dataset.nodes, ∀ nodeDef, dataset.schema.nodeDef node.1 = some nodeDef →
    ∀ prop ∈ nodeDef.properties, ∀ value, node.2.properties[prop.name]? = some value →
      value = .null ∨ HasType value prop.ty

/-- The types whose values have keys. -/
def ScalarType.Keyed (ty : ScalarType) : Prop :=
  ty = .int64 ∨ ty = .bool ∨ ty = .string ∨ ty = .timestamp

theorem propertyKey_isSome {ty : ScalarType} (keyed : ty.Keyed) {value : PropertyValue}
    (typed : HasType value ty) : (propertyKey value).isSome := by
  rcases keyed with isType | isType | isType | isType
  all_goals
    rw [isType] at typed
    cases typed
    rfl

/-- The node is retained with the label and with a value of the property whose
key is one of those wanted. -/
def IndexGeneration.Retains (generation : IndexGeneration) (label : Label)
    (property : String) (wanted : PropertyKey → Prop) (v : NodeId) : Prop :=
  ∃ record value key, generation.nodeRecords[v]? = some record ∧ record.label = label ∧
    record.properties[property]? = some value ∧ value ≠ .null ∧
      propertyKey value = some key ∧ wanted key

/-- The property index of a generation is a scan of its records: for equality
and for every range with a non-empty span, each node once; every value of a type
with keys has one, nulls aside; and of what is not indexed nothing is found. -/
structure IndexMatchesRecords (schema : Schema) (generation : IndexGeneration) :
    Prop where
  eq : ∀ label prop, schema.Indexes label prop → ∀ key,
    (generation.properties.lookupEq label.name prop.name key).Nodup ∧
    ∀ v, v ∈ generation.properties.lookupEq label.name prop.name key ↔
      generation.Retains label prop.name (fun key' => key' = key) v
  range : ∀ label prop, schema.Indexes label prop →
    ∀ lower upper, Bound.accepted lower upper = true →
    ∃ ids, generation.properties.lookupRangeChecked label.name prop.name lower upper =
      some ids ∧ ids.Nodup ∧
      ∀ v, v ∈ ids ↔ generation.Retains label prop.name
        (fun key => lower.allowsBelow key = true ∧ upper.allowsAbove key = true) v
  keyed : ∀ label prop, schema.Indexes label prop → prop.ty.Keyed →
    ∀ (v : NodeId) record value,
    generation.nodeRecords[v]? = some record → record.label = label →
      record.properties[prop.name]? = some value → value ≠ .null →
        (propertyKey value).isSome
  unindexed : ∀ label property,
    (∀ prop, schema.Indexes label prop → prop.name ≠ property) →
    (∀ key, generation.properties.lookupEq label.name property key = []) ∧
    ∀ lower upper, generation.properties.lookupRangeChecked label.name property lower
      upper = some []

/-! ### Distinct lookups -/

section Distinct

variable {schema : Schema} {nodes : List (Label × NodeRow)}

/-- A row has at most one key for each property. -/
theorem nodup_indexedKeys (names : schema.UniqueProperties) (node : Label × NodeRow) :
    (indexedKeys schema node).Nodup := by
  rw [indexedKeys]
  split
  case h_1 => exact List.nodup_nil
  case h_2 nodeDef declared =>
    have distinct : nodeDef.properties.Pairwise fun prop prop' =>
        prop.name ≠ prop'.name :=
      List.pairwise_map.mp (names _ _ declared)
    apply List.Pairwise.filterMap _ _ (distinct.filter _)
    intro prop prop' different entry found entry' found' same
    obtain ⟨_, -, rfl⟩ := Option.map_eq_some_iff.mp found
    obtain ⟨_, -, rfl⟩ := Option.map_eq_some_iff.mp found'
    simp only [Prod.mk.injEq, true_and] at same
    exact different same.1

/-- Of rows with distinct ids an equality lookup repeats none. -/
theorem nodup_lookupEq_buildPropertyIndex (names : schema.UniqueProperties)
    (ids : (nodes.map fun node => node.2.id).Nodup) (labelOrType property : String)
    (key : PropertyKey) :
    ((buildPropertyIndex schema nodes).lookupEq labelOrType property key).Nodup := by
  rw [lookupEq_buildPropertyIndex, List.nodup_flatMap]
  constructor
  · intro node _
    rw [List.filter_eq, List.map_replicate, List.nodup_replicate]
    exact List.nodup_iff_count_le_one.mp (nodup_indexedKeys names node) _
  · refine (List.pairwise_map.mp ids).imp fun different v inFirst inSecond => ?_
    obtain ⟨_, -, id⟩ := List.mem_map.mp inFirst
    obtain ⟨_, -, id'⟩ := List.mem_map.mp inSecond
    exact different (id.trans id'.symm)

/-- Of rows with distinct ids no node is under two keys of one property. -/
theorem lookupEq_apart (ids : (nodes.map fun node => node.2.id).Nodup)
    {labelOrType property : String} {key key' : PropertyKey} {v : NodeId}
    (found : v ∈
      (buildPropertyIndex schema nodes).lookupEq labelOrType property key)
    (found' : v ∈
      (buildPropertyIndex schema nodes).lookupEq labelOrType property key') :
    key = key' := by
  obtain ⟨node, member, id, indexed⟩ := (mem_lookupEq_buildPropertyIndex _ _).mp found
  obtain ⟨node', member', id', indexed'⟩ :=
    (mem_lookupEq_buildPropertyIndex _ _).mp found'
  cases List.inj_on_of_nodup_map ids member member' (id.trans id'.symm)
  obtain ⟨-, -, value, stored, keyed⟩ := (mem_indexedKeys _).mp indexed
  obtain ⟨-, -, value', stored', keyed'⟩ := (mem_indexedKeys _).mp indexed'
  rw [stored] at stored'
  cases stored'
  rw [keyed] at keyed'
  exact Option.some.inj keyed'

/-- Rows without a key of a property leave no trace of it in the index. -/
theorem byKey_buildPropertyIndex_eq_none {slot : String × String}
    (absent : ∀ node ∈ nodes, ∀ key, (slot, key) ∉ indexedKeys schema node) :
    (buildPropertyIndex schema nodes).byKey[slot]? = none := by
  have untouched : ∀ (id : NodeId) (keys : List ((String × String) × PropertyKey)),
      (∀ key, (slot, key) ∉ keys) →
      ∀ byKey : ExtTreeMap (String × String)
        (ExtTreeMap PropertyKey (List NodeId) compare) compare,
        (keys.foldl (fun byKey entry => indexEntry byKey entry.1 entry.2 id)
          byKey)[slot]? = byKey[slot]? := by
    intro id keys
    induction keys with
    | nil => intro _ byKey; rfl
    | cons entry rest inductionHypothesis =>
        intro noKey byKey
        have elsewhere : compare entry.1 slot ≠ .eq := by
          intro same
          apply noKey entry.2
          rw [← Std.LawfulEqOrd.eq_of_compare same]
          exact List.mem_cons_self
        rw [List.foldl_cons,
          inductionHypothesis fun key member =>
            noKey key (List.mem_cons_of_mem _ member), indexEntry,
          Std.ExtTreeMap.getElem?_alter, if_neg elsewhere]
  rw [buildPropertyIndex]
  induction nodes using List.reverseRecOn with
  | nil => simp
  | append_singleton nodes node inductionHypothesis =>
      rw [List.foldl_append, List.foldl_cons, List.foldl_nil,
        untouched _ _
          (absent node (List.mem_append_right _ (List.mem_singleton_self node)))]
      exact inductionHypothesis fun node member =>
        absent node (List.mem_append_left _ member)

end Distinct

/-! ### A built generation -/

section Built

variable {dataset : Dataset} {partitioning : Partitioning} {p : PartitionId}
variable {generation : IndexGeneration}

/-- A retained record is that of a scanned row, and with unique ids of every
owned row. -/
theorem nodeRecord_iff_of_built (unique : dataset.UniqueNodeIds)
    (built : dataset.Built partitioning p generation) {v : NodeId}
    {record : NodeRecord} :
    generation.nodeRecords[v]? = some record ↔ partitioning.partition v = p ∧
      ∃ node ∈ dataset.nodes, node.2.id = v ∧
        record = { label := node.1, properties := node.2.properties } := by
  obtain ⟨builtAt, rfl⟩ := built_iff.mp built
  constructor
  · exact nodeRecords_sound _ _ _ _ _ _ _
  · intro ⟨owned, node, member, id, same⟩
    subst id same
    exact nodeRecords_complete _ _ _ _ _ _ _ unique member owned

/-- An equality lookup under an indexed property finds the nodes retained with
that key. -/
theorem mem_lookupEq_iff_retains (unique : dataset.UniqueNodeIds)
    (built : dataset.Built partitioning p generation) {label : Label} {prop : PropertyDef}
    (indexed : dataset.schema.Indexes label prop) {key : PropertyKey} {v : NodeId} :
    v ∈ generation.properties.lookupEq label.name prop.name key ↔
      generation.Retains label prop.name (fun key' => key' = key) v := by
  have found : v ∈ generation.properties.lookupEq label.name prop.name key ↔
      partitioning.partition v = p ∧ ∃ node ∈ dataset.nodes, node.2.id = v ∧
        ((label.name, prop.name), key) ∈ indexedKeys dataset.schema node := by
    obtain ⟨builtAt, rfl⟩ := built_iff.mp built
    exact mem_lookupEq_assemble _ _ _ _ _ _ _
  rw [found]
  constructor
  · intro ⟨owned, node, member, id, isKey⟩
    obtain ⟨labelled, -, value, stored, keyed⟩ := (mem_indexedKeys _).mp isKey
    refine ⟨_, value, key,
      (nodeRecord_iff_of_built unique built).mpr ⟨owned, node, member, id, rfl⟩,
      Label.name_injective _ _ labelled, stored, ?_, keyed, rfl⟩
    intro isNull
    rw [isNull] at keyed
    cases keyed
  · intro ⟨record, value, key', retained, labelled, stored, _, keyed, same⟩
    subst same
    obtain ⟨owned, node, member, id, same⟩ :=
      (nodeRecord_iff_of_built unique built).mp retained
    subst same labelled
    obtain ⟨nodeDef, declared, listed, isIndexed⟩ := indexed
    exact ⟨owned, node, member, id, (mem_indexedKeys _).mpr
      ⟨rfl, ⟨nodeDef, prop, declared, listed, rfl, isIndexed⟩, value, stored, keyed⟩⟩

/-- A range lookup finds the nodes retained with a key between the bounds. -/
theorem mem_lookupRange_iff_retains (unique : dataset.UniqueNodeIds)
    (built : dataset.Built partitioning p generation) {label : Label} {prop : PropertyDef}
    (indexed : dataset.schema.Indexes label prop) {lower upper : Bound} {v : NodeId} :
    v ∈ generation.properties.lookupRange label.name prop.name lower upper ↔
      generation.Retains label prop.name
        (fun key => lower.allowsBelow key = true ∧ upper.allowsAbove key = true) v := by
  rw [mem_lookupRange]
  simp only [mem_lookupEq_iff_retains unique built indexed, IndexGeneration.Retains]
  constructor
  · rintro ⟨key, above, below, record, value, key', retained, labelled, stored,
      notNull, keyed, same⟩
    subst same
    exact ⟨record, value, _, retained, labelled, stored, notNull, keyed, above, below⟩
  · rintro ⟨record, value, key, retained, labelled, stored, notNull, keyed, above, below⟩
    exact ⟨key, above, below, record, value, key, retained, labelled, stored,
      notNull, keyed, rfl⟩

/-- Nothing is stored under a property that the label does not index. -/
theorem byKey_eq_none_of_built (built : dataset.Built partitioning p generation)
    {label : Label} {property : String}
    (unindexed : ∀ prop, dataset.schema.Indexes label prop → prop.name ≠ property) :
    generation.properties.byKey[(label.name, property)]? = none := by
  obtain ⟨builtAt, rfl⟩ := built_iff.mp built
  apply byKey_buildPropertyIndex_eq_none
  intro node _ key isKey
  obtain ⟨labelled, ⟨nodeDef, prop, declared, listed, named, isIndexed⟩, -⟩ :=
    (mem_indexedKeys _).mp isKey
  rw [Label.name_injective _ _ labelled] at declared
  exact unindexed prop ⟨nodeDef, declared, listed, isIndexed⟩ named

theorem lookupEq_eq_nil_of_built (built : dataset.Built partitioning p generation)
    {label : Label} {property : String}
    (unindexed : ∀ prop, dataset.schema.Indexes label prop → prop.name ≠ property)
    (key : PropertyKey) :
    generation.properties.lookupEq label.name property key = [] := by
  rw [PropertyIndex.lookupEq, byKey_eq_none_of_built built unindexed]
  rfl

/-- The index and the records of a built generation agree.

* `names`: no label declares two properties of one name, of which one might be
  indexed and the other not;
* `unique`: a node has one row;
* `typed`: values are of their declared types, so that all keys of an index are
  of one kind and ranges are meaningful;
* `built`: the generation is that of some partition. -/
theorem indexMatchesRecords_of_built (names : dataset.schema.UniqueProperties)
    (unique : dataset.UniqueNodeIds) (typed : dataset.ValuesTyped)
    (built : dataset.Built partitioning p generation) :
    IndexMatchesRecords dataset.schema generation := by
  have ownIds : ((dataset.nodes.filter fun node =>
        partitioning.partitionOf node.2.id = p.val).map
      fun node => node.2.id).Nodup := unique.sublist ((List.filter_sublist).map _)
  have isIndex : generation.properties = buildPropertyIndex dataset.schema
      (dataset.nodes.filter fun node => partitioning.partitionOf node.2.id = p.val) := by
    obtain ⟨builtAt, rfl⟩ := built_iff.mp built
    rfl
  have distinct : ∀ label property key,
      (generation.properties.lookupEq label property key).Nodup := by
    intro label property key
    rw [isIndex]
    exact nodup_lookupEq_buildPropertyIndex names ownIds label property key
  constructor
  case eq =>
    intro label prop indexed key
    exact ⟨distinct _ _ _, fun v => mem_lookupEq_iff_retains unique built indexed⟩
  case range =>
    intro label prop indexed lower upper accepted
    have once : (generation.properties.lookupRange label.name prop.name lower
        upper).Nodup := by
      apply nodup_lookupRange (distinct _ _)
      intro key key' v found found'
      rw [isIndex] at found found'
      exact lookupEq_apart ownIds found found'
    exact ⟨_, lookupRangeChecked_of_accepted accepted, once,
      fun v => mem_lookupRange_iff_retains unique built indexed⟩
  case keyed =>
    intro label prop indexed keyedType v record value retained labelled stored notNull
    obtain ⟨-, node, member, -, rfl⟩ := (nodeRecord_iff_of_built unique built).mp retained
    subst labelled
    obtain ⟨nodeDef, declared, listed, -⟩ := indexed
    have typedOrNull := typed node member nodeDef declared prop listed value stored
    exact propertyKey_isSome keyedType (typedOrNull.resolve_left notNull)
  case unindexed =>
    intro label property unindexed
    constructor
    · exact lookupEq_eq_nil_of_built built unindexed
    · intro lower upper
      rw [PropertyIndex.lookupRangeChecked, PropertyIndex.lookupRange,
        byKey_eq_none_of_built built unindexed]
      rfl

end Built

/-- The values of conforming rows are typed. -/
theorem Dataset.Conforms.valuesTyped {dataset : Dataset} (conforms : dataset.Conforms)
    (names : dataset.schema.UniqueProperties) : dataset.ValuesTyped := by
  intro node member nodeDef declared prop listed value stored
  obtain ⟨nodeDef', declared', conform⟩ := conforms.node node member
  rw [declared] at declared'
  cases declared'
  obtain ⟨prop', listed', named, hasType⟩ := conform.typed _ _ stored
  cases List.inj_on_of_nodup_map (names _ _ declared) listed' listed named
  cases hasType with
  | inl hasType => exact .inr hasType
  | inr isNull => exact .inl isNull.2

theorem Social.uniqueProperties : Social.schema.UniqueProperties := by
  intro label nodeDef declared
  have member := mem_of_getElem?_collectMap declared
  simp only [List.mem_cons, List.not_mem_nil, or_false, Prod.mk.injEq] at member
  rcases member with ⟨-, rfl⟩ | ⟨-, rfl⟩
  · exact List.nodup_nil
  · exact List.nodup_singleton _

/-- The odd half of the social graph: Ann and the company. -/
theorem social_indexMatchesRecords :
    IndexMatchesRecords Social.schema (Social.dataset.generation Social.byParity ⟨1⟩ 0) :=
  indexMatchesRecords_of_built Social.uniqueProperties Social.uniqueNodeIds
    (Social.conforms.valuesTyped Social.uniqueProperties) (built_iff.mpr ⟨0, rfl⟩)

end GraphEngine
