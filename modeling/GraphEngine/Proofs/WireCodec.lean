/-
Module: GraphEngine.Proofs.WireCodec
Layer: Proofs
Purpose: What one program encodes the other decodes: bindings, literals,
  operators, keys and the optional texts come back unchanged; a record comes
  back without its lists and nulls, which nothing reads; the surviving indices
  give back the survivors.
Trusted boundary: none
Main exports: decode_encode_filters, sameReadings_onWire,
  mapsAgree_decodedReply, filterMap_survivingIndices
-/
import GraphEngine.Model.GrpcTransport
import GraphEngine.Proofs.Routing
import GraphEngine.Proofs.RpcSimulation

namespace GraphEngine

open Std (ExtTreeMap)

/-! ### Bindings -/

theorem map_map_cancel {κ ν ν' : Type} [Ord κ] [Std.TransOrd κ] [Std.LawfulEqOrd κ]
    {f : κ → ν → ν'} {g : κ → ν' → ν} (cancel : ∀ k v, g k (f k v) = v)
    (m : ExtTreeMap κ ν compare) : (m.map f).map g = m := by
  apply Std.ExtTreeMap.ext_getElem?
  intro k
  rw [Std.ExtTreeMap.getElem?_map, Std.ExtTreeMap.getElem?_map, Option.map_map]
  have same : g k ∘ f k = id := funext (cancel k)
  rw [same, Option.map_id, id]

/-- A binding sent by the partition node. -/
theorem received_binding (binding : Binding) :
    GrpcPartitionRpc.protoBindingToBinding
      (PartitionServiceImpl.bindingToProto binding) = binding :=
  Binding.ext_parts (map_map_cancel (fun _ _ => rfl) binding.nodes)
    (map_map_cancel (fun _ _ => rfl) binding.edges)

/-- A binding sent by the coordinator. -/
theorem accepted_binding (binding : Binding) :
    PartitionServiceImpl.protoBindingToBinding
      (GrpcPartitionRpc.bindingToProto binding) = binding :=
  Binding.ext_parts (map_map_cancel (fun _ _ => rfl) binding.nodes)
    (map_map_cancel (fun _ _ => rfl) binding.edges)

/-- The bindings of a reply arrive as they were. -/
theorem received_stream (bindings : List Binding) :
    (PartitionServiceImpl.bindingsToStream bindings).map
      GrpcPartitionRpc.protoBindingToBinding =
      bindings := by
  rw [PartitionServiceImpl.bindingsToStream, List.map_map]
  have same : GrpcPartitionRpc.protoBindingToBinding ∘
      PartitionServiceImpl.bindingToProto = id :=
    funext received_binding
  rw [same, List.map_id]

/-- The bindings of a request arrive as they were. -/
theorem accepted_frontier (frontier : List Binding) :
    (frontier.map GrpcPartitionRpc.bindingToProto).map
      PartitionServiceImpl.protoBindingToBinding =
      frontier := by
  rw [List.map_map]
  have same : PartitionServiceImpl.protoBindingToBinding ∘
      GrpcPartitionRpc.bindingToProto = id :=
    funext accepted_binding
  rw [same, List.map_id]

/-! ### Requests -/

/-- A key arrives as it was. -/
theorem decode_encode_key (key : PropertyKey) :
    PartitionServiceImpl.protoValueToPropertyKey
      (GrpcPartitionRpc.propertyKeyToProto key) = .ok key := by
  cases key <;> rfl

/-- A literal arrives as it was. -/
theorem decode_encode_literal (literal : Literal) :
    PartitionServiceImpl.protoValueToLiteral
      (GrpcPartitionRpc.literalToProto literal) = .ok literal := by
  cases literal <;> rfl

/-- A comparison arrives as it was. -/
theorem decode_encode_op (op : ComparisonOp) :
    PartitionServiceImpl.protoComparisonOpToOp
      (GrpcPartitionRpc.comparisonOpToProto op).code = .ok op := by
  cases op <;> rfl

/-- A filter arrives as it was. -/
theorem decode_encode_filter (filter : PropertyFilter) :
    PartitionServiceImpl.protoFilterToPropertyFilter
      (GrpcPartitionRpc.propertyFilterToProto filter) =
      .ok filter := by
  have op := decode_encode_op filter.op
  have literal := decode_encode_literal filter.value
  simp only [PartitionServiceImpl.protoFilterToPropertyFilter,
    GrpcPartitionRpc.propertyFilterToProto, op, literal]
  rfl

/-- Filters arrive as they were. -/
theorem decode_encode_filters (filters : List PropertyFilter) :
    (filters.map GrpcPartitionRpc.propertyFilterToProto).mapM
      PartitionServiceImpl.protoFilterToPropertyFilter = .ok filters := by
  induction filters with
  | nil => rfl
  | cons filter rest inductionHypothesis =>
      rw [List.map_cons, List.mapM_cons, decode_encode_filter, inductionHypothesis]
      rfl

/-- A text that is left out arrives as one left out, and any other as it was
unless it is empty. -/
theorem nonEmptyText_getD {text : Option String} (present : text ≠ some "") :
    nonEmptyText (text.getD "") = text := by
  cases text with
  | none => rfl
  | some text =>
      have notEmpty : text.isEmpty = false := by
        rw [Bool.eq_false_iff, ne_eq, String.isEmpty_iff]
        exact fun same => present (congrArg some same)
      rw [Option.getD_some, nonEmptyText, notEmpty]
      rfl

/-- A direction arrives as it was. -/
theorem direction_flag (direction : Direction) :
    PartitionServiceImpl.direction (decide (direction = .incoming)) = direction := by
  cases direction <;> rfl

/-! ### Records -/

/-- What is left of a value on the wire. -/
def onWire : PropertyValue → Option PropertyValue
  | .list _ | .null => none
  | value => some value

/-- A value arrives as it was, if it is one that can be sent. -/
theorem decode_encode_value (value : PropertyValue) :
    (PartitionServiceImpl.propertyValueToProto value).bind
      GrpcPartitionRpc.protoValueToPropertyValue =
      onWire value := by
  cases value <;> rfl

/-- The properties of a record after the wire. -/
theorem getElem?_decodedFields (properties : Properties) (name : String) :
    ((properties.filterMap fun _ value =>
        PartitionServiceImpl.propertyValueToProto value).filterMap
      fun _ value => GrpcPartitionRpc.protoValueToPropertyValue value)[name]? =
      (properties[name]?).bind onWire := by
  rw [Std.ExtTreeMap.getElem?_filterMap', Std.ExtTreeMap.getElem?_filterMap',
    Option.bind_assoc]
  congr 1
  funext value
  exact decode_encode_value value

/-- Lists and nulls compare with no literal and turn into none. -/
theorem sameReadings_onWire [Chrono] {left right : Properties}
    (dropped : ∀ name : String, left[name]? = (right[name]?).bind onWire) :
    SameReadings left right where
  filters filter := by
    rw [evaluateFilter, evaluateFilter, dropped]
    cases right[filter.property]? with
    | none => rfl
    | some value =>
        rw [Option.bind_some]
        cases value <;> rfl
  literals name := by
    rw [dropped]
    cases right[name]? with
    | none => rfl
    | some value =>
        rw [Option.bind_some]
        cases value <;> rfl

/-! ### Replies -/

section Replies

variable {κ ι ν ν' : Type} [Ord κ] [Std.TransOrd κ] [Std.LawfulEqOrd κ]
variable [Ord ι] [Std.TransOrd ι] [Std.LawfulEqOrd ι]

/-- A map collected from the entries of another one under renamed keys. -/
theorem getElem?_collectMap_renamed {number : κ → ι} {make : ι → κ}
    (there : ∀ k, make (number k) = k) (back : ∀ i, number (make i) = i)
    (decode : ν → ν') (reply : ExtTreeMap ι ν compare) (k : κ) :
    (collectMap (reply.toList.map fun entry => (make entry.1, decode entry.2)))[k]? =
      (reply[number k]?).map decode := by
  have injective : Function.Injective make := Function.LeftInverse.injective back
  have distinct : ((reply.toList.map fun entry => (make entry.1, decode entry.2)).map
      Prod.fst).Nodup := by
    have keys := (keys_nodup_toList reply).map injective
    rw [List.map_map] at keys ⊢
    exact keys
  apply Option.ext
  intro v
  rw [getElem?_collectMap_iff distinct, List.mem_map, Option.map_eq_some_iff]
  constructor
  · rintro ⟨entry, member, same⟩
    cases same
    have found := Std.ExtTreeMap.mem_toList_iff_getElem?_eq_some.mp member
    rw [back]
    exact ⟨entry.2, found, rfl⟩
  · rintro ⟨w, found, rfl⟩
    have member := Std.ExtTreeMap.mem_toList_iff_getElem?_eq_some.mpr found
    exact ⟨(number k, w), member, congrArg (·, decode w) (there k)⟩

omit [Std.LawfulEqOrd κ] in
/-- What the partition node puts into a reply for a list of numbers. -/
theorem getElem?_encodedReply [DecidableEq ι] (make : ι → κ) (encode : ν → ν')
    (records : ExtTreeMap κ ν compare) (numbers : List ι) (i : ι) :
    (collectMap (numbers.filterMap fun i => (records[make i]?).map fun record =>
        (i, encode record)))[i]? =
      if i ∈ numbers then (records[make i]?).map encode else none := by
  have lookup :=
    getElem?_collectMap_lookup (fun i => (records[make i]?).map encode) numbers i
  simp only [Option.map_map] at lookup
  exact lookup

/-- What the coordinator reads of a reply is what the partition node holds,
encoded and decoded. -/
theorem getElem?_decodedReply [DecidableEq κ] [DecidableEq ι] {ν'' : Type}
    (number : κ → ι) (make : ι → κ) (there : ∀ k, make (number k) = k)
    (back : ∀ i, number (make i) = i) (encode : ν → ν') (decode : ν' → ν'')
    (records : ExtTreeMap κ ν compare) (ids : List κ) (k : κ) :
    (collectMap ((collectMap ((ids.map number).filterMap fun i =>
      (records[make i]?).map fun record => (i, encode record))).toList.map fun entry =>
        (make entry.1, decode entry.2)))[k]? =
      ((recordsOf records ids)[k]?).map fun record => decode (encode record) := by
  have listed : number k ∈ ids.map number ↔ k ∈ ids :=
    List.mem_map_of_injective (Function.LeftInverse.injective there)
  rw [getElem?_collectMap_renamed there back, getElem?_encodedReply,
    getElem?_recordsOf, there]
  by_cases member : k ∈ ids
  · rw [if_pos (listed.mpr member), if_pos member, Option.map_map]
    rfl
  · rw [if_neg fun asked => member (listed.mp asked), if_neg member]
    rfl

/-- The records that the coordinator decodes are related to the ones the
partition node holds as decoding relates each. -/
theorem mapsAgree_decodedReply [DecidableEq κ] [DecidableEq ι] (number : κ → ι)
    (make : ι → κ) (there : ∀ k, make (number k) = k)
    (back : ∀ i, number (make i) = i) {encode : ν → ν'} {decode : ν' → ν}
    {R : ν → ν → Prop} (related : ∀ record, R (decode (encode record)) record)
    (records : ExtTreeMap κ ν compare) (ids : List κ) :
    MapsAgree R
      (collectMap ((collectMap ((ids.map number).filterMap fun i =>
        (records[make i]?).map fun record => (i, encode record))).toList.map fun entry =>
          (make entry.1, decode entry.2)))
      (recordsOf records ids) := by
  intro k
  rw [getElem?_decodedReply number make there back]
  cases (recordsOf records ids)[k]? with
  | none => exact .none
  | some record => exact .some (related record)

end Replies

/-! ### Surviving indices -/

/-- In a frontier that fits the index type, the indices found by equality give
back the survivors: equal bindings survive together. -/
theorem filterMap_survivingIndices {frontier : List Binding}
    (fits : frontier.length ≤ 2 ^ 32) (keep : Binding → Bool) :
    (PartitionServiceImpl.survivingIndices frontier (frontier.filter keep)).filterMap
      (fun i => frontier[i]?) = frontier.filter keep := by
  rw [PartitionServiceImpl.survivingIndices, List.filterMap_filterMap]
  have entries : ∀ entry ∈ frontier.zipIdx,
      ((if entry.1 ∈ frontier.filter keep then some (entry.2 % 2 ^ 32) else none).bind
        fun i => frontier[i]?) = if keep entry.1 then some entry.1 else none := by
    intro entry member
    have found := List.mem_zipIdx_iff_getElem?.mp member
    have position := (List.getElem?_eq_some_iff.mp found).1
    have survives : entry.1 ∈ frontier.filter keep ↔ keep entry.1 = true := by
      rw [List.mem_filter]
      exact and_iff_right (List.mem_of_getElem? found)
    have small : entry.2 % 2 ^ 32 = entry.2 :=
      Nat.mod_eq_of_lt (Nat.lt_of_lt_of_le position fits)
    simp only [survives, small]
    split
    · exact found
    · rfl
  calc
    _ = (frontier.zipIdx.map Prod.fst).filterMap (Option.guard keep) := by
      rw [List.filterMap_congr entries, List.filterMap_map]
      rfl
    _ = frontier.filter keep := by rw [List.zipIdx_map_fst, List.filterMap_eq_filter]

end GraphEngine
