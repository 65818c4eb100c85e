/-
Module: GraphEngine.Proofs.ParsedForm
Layer: Proofs
Purpose: Every query that the parser returns can be spelled: its names are
  identifiers, its strings hold no quote, its numbers fit their types, its
  patterns run from node to node and something is returned.
Trusted boundary: none
Main exports: Literal.Legible, Query.Spelled, parse_spelled
-/
import GraphEngine.Lib.PegReads
import GraphEngine.Proofs.CommonSyntax
import GraphEngine.Proofs.PlannerTotality

namespace GraphEngine

/-! ### Spelled queries -/

/-- A float, or a literal that can be written. -/
def Literal.Legible (literal : Literal) : Prop :=
  (∃ value, literal = .float64 value) ∨ literal.Writable

section Spelled

variable (L : Literal → Prop)

/-- The names are identifiers and the literals satisfy `L`. -/
def PropertyFilter.Spelled (filter : PropertyFilter) : Prop :=
  isIdent filter.property ∧ L filter.value

/-- An inline filter stands for equality. -/
structure NodePattern.Spelled (node : NodePattern) : Prop where
  aliasName : isIdent node.aliasName
  label : ∀ label ∈ node.label, isIdent label.name
  filters : ∀ filter ∈ node.propertyFilters, filter.Spelled L ∧ filter.op = .eq

/-- What parsing gives: nodes and edges take turns and each is spelled. -/
structure Pattern.Spelled (pattern : Pattern) : Prop where
  alternates : GraphEngine.Alternates pattern.steps
  nodes : ∀ node, .node node ∈ pattern.steps → node.Spelled L
  edges : ∀ edge, .edge edge ∈ pattern.steps → edge.Writable

mutual

/-- Names that are names, and a literal as the predicate asks. -/
def WhereCondition.Spelled : WhereCondition → Prop
  | .property aliasName filter => isIdent aliasName ∧ filter.Spelled L
  | .aliasComparison left _ right => isIdent left ∧ isIdent right
  | .propertyComparison left _ right => left.Writable ∧ right.Writable
  | .notExists subquery => subquery.Spelled

/-- The pattern and the conditions are spelled. -/
def ExistsSubquery.Spelled : ExistsSubquery → Prop
  | .mk pattern conditions => pattern.Spelled L ∧ AllSpelled conditions

/-- Every condition is spelled. -/
def AllSpelled : List WhereCondition → Prop
  | [] => True
  | condition :: conditions => condition.Spelled ∧ AllSpelled conditions

end

/-- What parsing gives of a query, up to what is asked of its literals. -/
structure Query.Spelled (query : Query) : Prop where
  pattern : query.pattern.Spelled L
  conditions : AllSpelled L query.whereConditions
  returnsSome : query.returns ≠ []
  returns : ∀ item ∈ query.returns, isIdent item.aliasName ∧
    ∀ property ∈ item.property, isIdent property
  orderBy : ∀ orderBy ∈ query.orderBy, isIdent orderBy.aliasName ∧
    isIdent orderBy.property
  limit : ∀ limit ∈ query.limit, limit < 2 ^ 64

end Spelled

/-! ### Walks over trees that were read -/

namespace DslParser

open Grammar (Yields)

variable {size : Nat} {α β : Type}

/-- What a walk returns of a tree of a rule that was read. -/
def Sound (size : Nat) (rule : DslRule)
    (walk : Pair DslRule → Except PanicMessage α) (P : α → Prop) : Prop :=
  ∀ pair : Pair DslRule, pair.asRule = rule → pair.Read dslGrammar size →
    ∀ a, walk pair = .ok a → P a

/-- The subtrees of a tree that was read. -/
theorem read_inner {rule : DslRule} {text : List Char}
    {children : List (Pair DslRule)}
    (read : (Pair.node rule text children).Read dslGrammar size)
    (plain : rule.atomic = false) (rules : List DslRule)
    (refers : ∀ name ∈ (DslRule.body rule).entered, name ∈ rules)
    (visible : ∀ name ∈ rules, DslRule.silent name = false) :
    ∀ child ∈ children, child.asRule ∈ rules ∧ child.Read dslGrammar size := by
  intro child member
  exact ⟨(Grammar.entered_of_derived read.derived plain rules refers visible
      child member).1,
    read.inner plain child member⟩

/-- Subtrees of one rule walked one by one. -/
theorem mapM_sound {rule : DslRule} {walk : Pair DslRule → Except PanicMessage α}
    {P : α → Prop} (sound : Sound size rule walk P) {children : List (Pair DslRule)}
    (each : ∀ child ∈ children, child.asRule ∈ [rule] ∧ child.Read dslGrammar size)
    {found : List α} (walked : children.mapM walk = .ok found) :
    ∀ a ∈ found, P a := by
  have partners := (forall₂_partner (mapM_eq_ok_iff.mp walked)).1
  intro a member
  obtain ⟨child, inChildren, parsed⟩ := partners a member
  exact sound child (List.mem_singleton.mp (each child inChildren).1)
    (each child inChildren).2 a parsed

/-! ### Leaves -/

/-- The text of an identifier is a name. -/
theorem isIdent_of_read {pair : Pair DslRule} (rule : pair.asRule = .ident)
    (read : pair.Read dslGrammar size) : isIdent pair.asStr = true := by
  obtain ⟨_, text, children⟩ := pair
  cases rule
  have matched : dslGrammar.Matches true DslRule.ident.body text children := read.derived
  exact isIdent_of_matches matched

/-- The text of an edge's alias is a name. -/
theorem isIdent_of_edgeAlias {pair : Pair DslRule} (rule : pair.asRule = .edgeAlias)
    (read : pair.Read dslGrammar size) : isIdent pair.asStr = true := by
  obtain ⟨_, text, children⟩ := pair
  cases rule
  have matched : dslGrammar.Matches true (.rule .ident) text children := read.derived
  cases matched with
  | rule body => exact isIdent_of_matches body

/-- A number that is parsed fits. -/
theorem parseNumber_sound (bits : Nat) :
    Sound size .number (parseNumber bits) (· < 2 ^ bits) := by
  intro pair _ _ value parsed
  rw [parseNumber] at parsed
  cases number : parseUnsigned bits pair.text with
  | none =>
      rw [number] at parsed
      cases parsed
  | some found =>
      rw [number] at parsed
      cases parsed
      simp only [parseUnsigned, Option.ite_none_right_eq_some,
        Option.some.injEq] at number
      obtain ⟨⟨-, fits⟩, rfl⟩ := number
      exact fits

/-- Between its quotes a string has none. -/
theorem unquote_sound {text : List Char} {children : List (Pair DslRule)}
    (read : (Pair.node .stringLiteral text children).Read dslGrammar size)
    {value : String} (unquoted : unquote text = .ok value) : '"' ∉ value.toList := by
  obtain ⟨rest, yields⟩ := read
  obtain ⟨_, _, _, -, opening, later⟩ := yields.seq_inv
  obtain ⟨_, _, _, -, content, closing⟩ := later.seq_inv
  have first := opening.literal_inv
  have last := closing.literal_inv
  obtain ⟨inside, rfl, absent⟩ := content.until_inv
  subst last
  have whole : text = '"' :: (inside ++ ['"']) := by
    have same : text ++ rest = '"' :: (inside ++ ['"']) ++ rest := by
      rw [first]
      simp
    exact List.append_cancel_right same
  rw [unquote] at unquoted
  split at unquoted
  case isTrue =>
      cases unquoted
      rw [whole, String.toList_ofList, List.drop_one, List.tail_cons,
        List.dropLast_concat]
      exact absent
  case isFalse => cases unquoted

/-- A signed number that is parsed fits. -/
theorem parseSigned_bounds {text : List Char} {value : Int}
    (parsed : parseSigned 64 text = some value) :
    -2 ^ 63 ≤ value ∧ value < 2 ^ 63 := by
  simp only [parseSigned, Option.ite_none_right_eq_some, Option.some.injEq] at parsed
  obtain ⟨⟨-, lower, upper⟩, rfl⟩ := parsed
  exact ⟨lower, upper⟩

/-- A literal that is parsed can be written again. -/
theorem parseLiteral_sound : Sound size .literal parseLiteral Literal.Legible := by
  rintro ⟨_, text, children⟩ ⟨⟩ read value parsed
  obtain ⟨⟨rule, text', children'⟩, rfl, kind⟩ := @Grammar.only_child _ children
    [.stringLiteral, .floatLiteral, .intLiteral, .boolLiteral]
    (Grammar.shape_of_derived read.derived rfl (by decide) rfl)
  have inner := read.inner rfl _ List.mem_cons_self
  simp only [Pair.asRule, List.mem_cons, List.not_mem_nil, or_false] at kind
  rcases kind with rfl | rfl | rfl | rfl
  · obtain ⟨content, unquoted, rfl⟩ := map_eq_ok_iff.mp
      (show (unquote text').map Literal.string = .ok value from parsed)
    exact .inr (unquote_sound inner unquoted)
  · obtain ⟨number, -, rfl⟩ :=
      map_eq_ok_iff.mp (show (expect "float_literal only matches valid floats"
      (parseF64 text')).map Literal.float64 = .ok value from parsed)
    exact .inl ⟨number, rfl⟩
  · obtain ⟨number, expected, rfl⟩ :=
      map_eq_ok_iff.mp (show (expect "int_literal only matches valid integers"
      (parseSigned 64 text')).map Literal.int64 = .ok value from parsed)
    cases signed : parseSigned 64 text' with
    | none =>
        rw [signed] at expected
        cases expected
    | some found =>
        rw [signed] at expected
        cases expected
        exact .inr (parseSigned_bounds signed)
  · have isBool : Except.ok
        (Literal.bool (decide (String.ofList text' = "true"))) = .ok value :=
      parsed
    cases isBool
    exact .inr True.intro

/-! ### Patterns -/

/-- A filter in braces is an equality. -/
theorem parsePropertyKv_sound : Sound size .propertyKv parsePropertyKv fun filter =>
    filter.Spelled Literal.Legible ∧ filter.op = .eq := by
  rintro ⟨_, text, children⟩ ⟨⟩ read filter parsed
  have shape : children.map Pair.asRule ∈ [[DslRule.ident, .literal]] :=
    Grammar.shape_of_derived read.derived rfl (by decide) rfl
  have each := read.inner rfl
  simp only [List.mem_singleton, List.map_eq_cons_iff, List.map_eq_nil_iff] at shape
  obtain ⟨key, _, rfl, isKey, value, _, rfl, isValue, rfl⟩ := shape
  have walk : parsePropertyKv (.node .propertyKv text [key, value]) =
      parseLiteral value >>= fun value =>
        .ok { property := key.asStr, op := .eq, value := value } := rfl
  rw [walk, bind_eq_ok_iff] at parsed
  obtain ⟨literal, parsedLiteral, ⟨⟩⟩ := parsed
  refine ⟨⟨isIdent_of_read isKey (each key List.mem_cons_self), ?_⟩, rfl⟩
  exact parseLiteral_sound value isValue
    (each value (List.mem_cons_of_mem _ List.mem_cons_self)) literal
    parsedLiteral

/-- The filters in braces are equalities. -/
theorem parsePropertyMap_sound : Sound size .propertyMap parsePropertyMap fun filters =>
    ∀ filter ∈ filters, filter.Spelled Literal.Legible ∧ filter.op = .eq := by
  rintro ⟨_, text, children⟩ ⟨⟩ read filters parsed
  exact mapM_sound parsePropertyKv_sound
    (read_inner read rfl _ (by decide) (by decide)) parsed

/-- One part of a node pattern keeps it spelled. -/
theorem addNodePart_sound {part : Pair DslRule} (read : part.Read dslGrammar size)
    {node node' : NodePattern} (added : addNodePart node part = .ok node')
    (spelled : node.Spelled Literal.Legible) : node'.Spelled Literal.Legible := by
  unfold addNodePart at added
  split at added
  case h_1 rule =>
      cases added
      refine { spelled with label := ?_ }
      intro label member
      cases member
      exact isIdent_of_read rule read
  case h_2 rule =>
      obtain ⟨filters, parsed, rfl⟩ := map_eq_ok_iff.mp added
      exact { spelled with
                filters := parsePropertyMap_sound part rule read filters parsed }
  case h_3 => cases added

/-- A node that is parsed is spelled. -/
theorem parseNodePattern_sound :
    Sound size .nodePattern parseNodePattern
      (NodePattern.Spelled Literal.Legible) := by
  rintro ⟨_, text, children⟩ ⟨⟩ read node parsed
  obtain ⟨aliasPair, rest, rfl, isAlias⟩ :=
    @Grammar.first_child _ children _ DslRule.ident
    (Grammar.shape_of_derived read.derived rfl (by decide) rfl) (by decide)
  obtain ⟨first, later⟩ := List.forall_mem_cons.mp (read.inner rfl)
  have walked : rest.foldlM addNodePart
      { aliasName := aliasPair.asStr, label := none, propertyFilters := [] } =
        .ok node := parsed
  apply foldlM_keeps
    (fun part member _ _ added => addNodePart_sound (later part member) added) walked
  constructor
  · exact isIdent_of_read isAlias first
  · simp
  · simp

/-- Both bounds fit. -/
theorem parseHopRange_sound : Sound size .hopRange parseHopRange fun hops =>
    hops.min < 2 ^ 32 ∧ hops.max < 2 ^ 32 := by
  rintro ⟨_, text, children⟩ ⟨⟩ read hops parsed
  have shape : children.map Pair.asRule ∈ [[DslRule.number, .number]] :=
    Grammar.shape_of_derived read.derived rfl (by decide) rfl
  have each := read.inner rfl
  simp only [List.mem_singleton, List.map_eq_cons_iff, List.map_eq_nil_iff] at shape
  obtain ⟨low, _, rfl, isLow, high, _, rfl, isHigh, rfl⟩ := shape
  have walk : parseHopRange (.node .hopRange text [low, high]) =
      parseNumber 32 low >>= fun low => parseNumber 32 high >>= fun high =>
        .ok { min := low, max := high } := rfl
  simp only [walk, bind_eq_ok_iff] at parsed
  obtain ⟨min, parsedMin, max, parsedMax, ⟨⟩⟩ := parsed
  exact ⟨parseNumber_sound 32 low isLow (each low List.mem_cons_self) min parsedMin,
    parseNumber_sound 32 high isHigh
      (each high (List.mem_cons_of_mem _ List.mem_cons_self)) max parsedMax⟩

/-- One part of an edge's brackets keeps it writable. -/
theorem addEdgePart_sound {part : Pair DslRule} (read : part.Read dslGrammar size)
    {edge edge' : EdgePattern} (added : addEdgePart edge part = .ok edge')
    (writable : edge.Writable) : edge'.Writable := by
  unfold addEdgePart at added
  split at added
  case h_1 rule =>
      cases added
      refine { writable with aliasName := ?_ }
      intro aliasName member
      cases member
      exact isIdent_of_edgeAlias rule read
  case h_2 rule =>
      cases added
      refine { writable with edgeType := ?_ }
      intro edgeType member
      cases member
      exact isIdent_of_read rule read
  case h_3 rule =>
      obtain ⟨hops, parsed, rfl⟩ := map_eq_ok_iff.mp added
      have bounds := parseHopRange_sound part rule read hops parsed
      exact { writable with min := bounds.1, max := bounds.2 }
  case h_4 => cases added

/-- The parts of an edge leave it one that can be written. -/
theorem addEdgeDetail_sound {detail : Pair DslRule}
    (read : detail.Read dslGrammar size) {edge edge' : EdgePattern}
    (added : addEdgeDetail edge detail = .ok edge') (writable : edge.Writable) :
    edge'.Writable := by
  obtain ⟨rule, text, children⟩ := detail
  unfold addEdgeDetail at added
  split at added
  case h_1 isDetail =>
      have isRule : rule = .edgeDetail := isDetail
      subst isRule
      exact foldlM_keeps (fun part member _ _ next =>
        addEdgePart_sound (read.inner rfl part member) next) added
        writable
  case h_2 => cases added

/-- An edge that is parsed can be written. -/
theorem parseEdgePattern_sound :
    Sound size .edgePattern parseEdgePattern EdgePattern.Writable := by
  rintro ⟨_, text, children⟩ ⟨⟩ read edge parsed
  obtain ⟨⟨rule, text', children'⟩, rfl, kind⟩ :=
    @Grammar.only_child _ children [.outgoingEdge, .incomingEdge]
    (Grammar.shape_of_derived read.derived rfl (by decide) rfl)
  have inner := read.inner rfl _ List.mem_cons_self
  have plain : ∀ direction, EdgePattern.Writable
      { aliasName := none, edgeType := none, direction := direction,
        hops := { min := 1, max := 1 } } :=
    fun direction => ⟨by
      simp, by simp, Nat.one_lt_two_pow (by decide), Nat.one_lt_two_pow (by decide)⟩
  simp only [Pair.asRule, List.mem_cons, List.not_mem_nil, or_false] at kind
  rcases kind with rfl | rfl
  · have walked : children'.foldlM addEdgeDetail
        { aliasName := none, edgeType := none, direction := .outgoing,
          hops := { min := 1, max := 1 } } =
        .ok edge := parsed
    exact foldlM_keeps (fun detail member _ _ next =>
      addEdgeDetail_sound (inner.inner rfl detail member) next)
      walked (plain .outgoing)
  · have walked : children'.foldlM addEdgeDetail
        { aliasName := none, edgeType := none, direction := .incoming,
          hops := { min := 1, max := 1 } } =
        .ok edge := parsed
    exact foldlM_keeps (fun detail member _ _ next =>
      addEdgeDetail_sound (inner.inner rfl detail member) next)
      walked (plain .incoming)

/-- Nodes and edges alternate in the steps as in the pattern read. -/
theorem alternates_segmentSteps (first : NodePattern)
    (segments : List (EdgePattern × NodePattern)) :
    GraphEngine.Alternates (.node first :: segmentSteps segments) := by
  induction segments generalizing first with
  | nil => exact .single first
  | cons segment rest inductionHypothesis =>
      exact .step first segment.1 (inductionHypothesis segment.2)

/-- A pattern that is parsed is spelled. -/
theorem parsePattern_sound :
    Sound size .pattern parsePattern (Pattern.Spelled Literal.Legible) := by
  intro pair rule read pattern parsed
  have alternates : GraphEngine.Alternates pattern.steps := by
    obtain ⟨first, segments, steps⟩ := parsePattern_alternates rule read.derived parsed
    rw [steps]
    exact alternates_segmentSteps first segments
  obtain ⟨_, text, children⟩ := pair
  cases rule
  obtain ⟨steps, walked, rfl⟩ := map_eq_ok_iff.mp parsed
  have partners := (forall₂_partner (mapM_eq_ok_iff.mp walked)).1
  refine ⟨alternates, ?_, ?_⟩
  · intro node member
    obtain ⟨part, inChildren, stepped⟩ := partners (.node node) member
    unfold parsePatternStep at stepped
    split at stepped
    case h_1 isNode =>
        obtain ⟨node', parsedNode, ⟨⟩⟩ := map_eq_ok_iff.mp stepped
        exact parseNodePattern_sound part isNode
          (read.inner rfl part inChildren) node parsedNode
    case h_2 =>
        obtain ⟨_, _, ⟨⟩⟩ := map_eq_ok_iff.mp stepped
    case h_3 => cases stepped
  · intro edge member
    obtain ⟨part, inChildren, stepped⟩ := partners (.edge edge) member
    unfold parsePatternStep at stepped
    split at stepped
    case h_1 =>
        obtain ⟨_, _, ⟨⟩⟩ := map_eq_ok_iff.mp stepped
    case h_2 isEdge =>
        obtain ⟨edge', parsedEdge, ⟨⟩⟩ := map_eq_ok_iff.mp stepped
        exact parseEdgePattern_sound part isEdge
          (read.inner rfl part inChildren) edge parsedEdge
    case h_3 => cases stepped

/-! ### Conditions -/

theorem parsePropertyPropertyComparison_sound : Sound size .propertyPropertyComparison
    parsePropertyPropertyComparison (WhereCondition.Spelled Literal.Legible) := by
  rintro ⟨_, text, children⟩ ⟨⟩ read condition parsed
  have shape : children.map Pair.asRule ∈
      [[DslRule.ident, .ident, .comparisonOp, .ident, .ident]] :=
    Grammar.shape_of_derived read.derived rfl (by decide) rfl
  have each := read.inner rfl
  simp only [List.mem_singleton, List.map_eq_cons_iff, List.map_eq_nil_iff] at shape
  obtain ⟨left, _, rfl, isLeft, leftProperty, _, rfl, isLeftProperty, op, _, rfl,
      isOp, right, _, rfl, isRight,
    rightProperty, _, rfl, isRightProperty, rfl⟩ := shape
  simp only [List.forall_mem_cons] at each
  have walk : parsePropertyPropertyComparison
      (.node .propertyPropertyComparison text [left, leftProperty, op, right,
          rightProperty]) =
      parseComparisonOp op >>= fun op =>
        .ok (.propertyComparison
          { aliasName := left.asStr, property := leftProperty.asStr } op
          { aliasName := right.asStr, property := rightProperty.asStr }) := rfl
  rw [walk, bind_eq_ok_iff] at parsed
  obtain ⟨_, -, ⟨⟩⟩ := parsed
  rw [WhereCondition.Spelled]
  exact ⟨⟨isIdent_of_read isLeft each.1, isIdent_of_read isLeftProperty each.2.1⟩,
    isIdent_of_read isRight each.2.2.2.1, isIdent_of_read isRightProperty each.2.2.2.2.1⟩

theorem parsePropertyCondition_sound :
    Sound size .propertyCondition parsePropertyCondition
    (WhereCondition.Spelled Literal.Legible) := by
  rintro ⟨_, text, children⟩ ⟨⟩ read condition parsed
  have shape : children.map Pair.asRule ∈
      [[DslRule.ident, .ident, .comparisonOp, .literal]] :=
    Grammar.shape_of_derived read.derived rfl (by decide) rfl
  have each := read.inner rfl
  simp only [List.mem_singleton, List.map_eq_cons_iff, List.map_eq_nil_iff] at shape
  obtain ⟨subject, _, rfl, isSubject, property, _, rfl, isProperty, op, _, rfl, isOp,
      value, _, rfl, isValue,
    rfl⟩ := shape
  simp only [List.forall_mem_cons] at each
  have walk : parsePropertyCondition
      (.node .propertyCondition text [subject, property, op, value]) =
      parseComparisonOp op >>= fun op => parseLiteral value >>= fun value =>
        .ok (.property subject.asStr
          { property := property.asStr, op := op, value := value }) := rfl
  simp only [walk, bind_eq_ok_iff] at parsed
  obtain ⟨_, -, literal, parsedLiteral, ⟨⟩⟩ := parsed
  rw [WhereCondition.Spelled]
  exact ⟨isIdent_of_read isSubject each.1, isIdent_of_read isProperty each.2.1,
    parseLiteral_sound value isValue each.2.2.2.1 literal parsedLiteral⟩

theorem parseAliasComparison_sound : Sound size .aliasComparison parseAliasComparison
    (WhereCondition.Spelled Literal.Legible) := by
  rintro ⟨_, text, children⟩ ⟨⟩ read condition parsed
  have shape : children.map Pair.asRule ∈ [[DslRule.ident, .comparisonOp, .ident]] :=
    Grammar.shape_of_derived read.derived rfl (by decide) rfl
  have each := read.inner rfl
  simp only [List.mem_singleton, List.map_eq_cons_iff, List.map_eq_nil_iff] at shape
  obtain ⟨left, _, rfl, isLeft, op, _, rfl, isOp, right, _, rfl, isRight, rfl⟩ := shape
  simp only [List.forall_mem_cons] at each
  have walk : parseAliasComparison (.node .aliasComparison text [left, op, right]) =
      parseComparisonOp op >>= fun op =>
        .ok (.aliasComparison left.asStr op right.asStr) := rfl
  rw [walk, bind_eq_ok_iff] at parsed
  obtain ⟨_, -, ⟨⟩⟩ := parsed
  rw [WhereCondition.Spelled]
  exact ⟨isIdent_of_read isLeft each.1, isIdent_of_read isRight each.2.2.1⟩

/-- A list of conditions, each of which is walked soundly. -/
theorem parseWhereConditions_sound {pairs : List (Pair DslRule)}
    (each : ∀ pair ∈ pairs, ∀ condition, parseWhereCondition pair = .ok condition →
      condition.Spelled Literal.Legible) {conditions : List WhereCondition}
    (parsed : parseWhereConditions pairs = .ok conditions) :
    AllSpelled Literal.Legible conditions := by
  induction pairs generalizing conditions with
  | nil =>
      cases parsed
      rw [AllSpelled]
      trivial
  | cons pair pairs inductionHypothesis =>
      simp only [parseWhereConditions, bind_eq_ok_iff] at parsed
      obtain ⟨condition, first, later, rest, ⟨⟩⟩ := parsed
      rw [AllSpelled]
      exact ⟨each pair List.mem_cons_self condition first,
        inductionHypothesis
          (fun other member => each other (List.mem_cons_of_mem pair member)) rest⟩

/-- A `NOT EXISTS` has its pattern and the conditions of its clause, if it has
one. -/
theorem parseNotExists_sound {text : List Char} {children : List (Pair DslRule)}
    (read : (Pair.node .notExistsClause text children).Read dslGrammar size)
    (clauses : ∀ clause ∈ children, clause.asRule = .whereClause →
      ∀ conditions, parseWhereConditions clause.intoInner = .ok conditions →
      AllSpelled Literal.Legible conditions) {condition : WhereCondition}
    (parsed : parseConditionAlternative (.node .notExistsClause text children) =
      .ok condition) : condition.Spelled Literal.Legible := by
  have shape : children.map Pair.asRule ∈ [[DslRule.pattern], [.pattern, .whereClause]] :=
    Grammar.shape_of_derived read.derived rfl (by decide) rfl
  have each := read.inner rfl
  simp only [List.mem_cons, List.not_mem_nil, or_false, List.map_eq_cons_iff,
    List.map_eq_nil_iff] at shape
  rcases shape with ⟨⟨_, text', children'⟩, _, rfl, ⟨⟩, rfl⟩ |
    ⟨⟨_, text', children'⟩, _, rfl, ⟨⟩, ⟨_, text'', children''⟩, _, rfl, ⟨⟩, rfl⟩
  · have walk : parseConditionAlternative
        (.node .notExistsClause text [.node .pattern text' children']) =
        parsePattern (.node .pattern text' children') >>= fun pattern =>
          .ok (.notExists (.mk pattern [])) := by
      cases found : parsePattern (.node .pattern text' children') <;>
        simp [parseConditionAlternative, parseNotExistsParts, found, expect, bind,
          Except.bind]
    rw [walk, bind_eq_ok_iff] at parsed
    obtain ⟨pattern, parsedPattern, ⟨⟩⟩ := parsed
    rw [WhereCondition.Spelled, ExistsSubquery.Spelled, AllSpelled]
    exact ⟨parsePattern_sound _ rfl
      (each _ List.mem_cons_self) pattern parsedPattern, True.intro⟩
  · have walk : parseConditionAlternative
        (.node .notExistsClause text [.node .pattern text' children',
            .node .whereClause text'' children'']) =
        parsePattern (.node .pattern text' children') >>= fun pattern =>
          parseWhereConditions children'' >>= fun conditions =>
            .ok (.notExists (.mk pattern conditions)) := by
      cases found : parsePattern (.node .pattern text' children') <;>
        cases found' : parseWhereConditions children'' <;>
          simp [parseConditionAlternative, parseNotExistsParts, found, found', expect,
            bind, Except.bind]
    simp only [walk, bind_eq_ok_iff] at parsed
    obtain ⟨pattern, parsedPattern, conditions, parsedConditions, ⟨⟩⟩ := parsed
    rw [WhereCondition.Spelled, ExistsSubquery.Spelled]
    exact ⟨parsePattern_sound _ rfl (each _ List.mem_cons_self) pattern parsedPattern,
      clauses _
        (List.mem_cons_of_mem _ List.mem_cons_self) rfl conditions parsedConditions⟩

/-- Conditions, by induction on the tree: only a `NOT EXISTS` holds further
conditions. -/
theorem parseWhereCondition_sound : Sound size .whereCondition parseWhereCondition
    (WhereCondition.Spelled Literal.Legible) := by
  intro pair
  induction bound : sizeOf pair using Nat.strongRecOn generalizing pair with
  | _ n inductionHypothesis =>
      subst bound
      obtain ⟨_, text, children⟩ := pair
      rintro ⟨⟩ read condition parsed
      obtain ⟨⟨rule, text', children'⟩, rfl, kind⟩ :=
        @Grammar.only_child _ children conditionAlternatives
        (Grammar.shape_of_derived read.derived rfl (by decide) rfl)
      have inner := read.inner rfl _ List.mem_cons_self
      have alternative : parseConditionAlternative (.node rule text' children') =
          .ok condition :=
        parsed
      simp only [conditionAlternatives, Pair.asRule, List.mem_cons, List.not_mem_nil,
        or_false] at kind
      rcases kind with rfl | rfl | rfl | rfl
      · refine parseNotExists_sound inner
          (fun clause member isClause conditions found => ?_) alternative
        obtain ⟨_, text'', children''⟩ := clause
        cases isClause
        have outer := inner.inner rfl _ member
        have each := read_inner outer rfl [.whereCondition] (by decide) (by decide)
        refine parseWhereConditions_sound (fun other here condition' parsed' => ?_) found
        refine inductionHypothesis _ ?_ other rfl
          (List.mem_singleton.mp (each other here).1) (each other here).2
          condition' parsed'
        calc sizeOf other
            < sizeOf (Pair.node .whereClause text'' children'') :=
              Grammar.size_lt_of_mem here
          _ < sizeOf (Pair.node .notExistsClause text' children') :=
            Grammar.size_lt_of_mem member
          _ < sizeOf (Pair.node .whereCondition text
            [.node .notExistsClause text' children']) :=
              Grammar.size_lt_of_mem List.mem_cons_self
      · exact parsePropertyPropertyComparison_sound _ rfl inner condition alternative
      · exact parsePropertyCondition_sound _ rfl inner condition alternative
      · exact parseAliasComparison_sound _ rfl inner condition alternative

/-- The conditions that are parsed are spelled. -/
theorem parseWhereClause_sound :
    Sound size .whereClause parseWhereClause (AllSpelled Literal.Legible) := by
  rintro ⟨_, text, children⟩ ⟨⟩ read conditions parsed
  have each := read_inner read rfl [.whereCondition] (by decide) (by decide)
  refine parseWhereConditions_sound (fun pair member condition found => ?_) parsed
  exact parseWhereCondition_sound pair (List.mem_singleton.mp (each pair member).1)
    (each pair member).2 condition
    found

/-! ### The rest of a query -/

theorem parseReturnItem_sound : Sound size .returnItem parseReturnItem fun item =>
    isIdent item.aliasName ∧ ∀ property ∈ item.property, isIdent property := by
  rintro ⟨_, text, children⟩ ⟨⟩ read item parsed
  have shape : children.map Pair.asRule ∈ [[DslRule.ident], [.ident, .ident]] :=
    Grammar.shape_of_derived read.derived rfl (by decide) rfl
  have each := read.inner rfl
  simp only [List.mem_cons, List.not_mem_nil, or_false, List.map_eq_cons_iff,
    List.map_eq_nil_iff] at shape
  rcases shape with ⟨subject, _, rfl, isSubject, rfl⟩ |
    ⟨subject, _, rfl, isSubject, property, _, rfl, isProperty, rfl⟩
  · cases parsed
    refine ⟨isIdent_of_read isSubject (each subject List.mem_cons_self), ?_⟩
    intro property member
    cases member
  · cases parsed
    simp only [List.forall_mem_cons] at each
    refine ⟨isIdent_of_read isSubject each.1, ?_⟩
    intro name member
    cases member
    exact isIdent_of_read isProperty each.2.1

/-- There is an item to return, and all names are names. -/
theorem parseReturnClause_sound :
    Sound size .returnClause parseReturnClause fun items => items ≠ [] ∧
    ∀ item ∈ items, isIdent item.aliasName ∧ ∀ property ∈ item.property,
      isIdent property := by
  rintro ⟨_, text, children⟩ ⟨⟩ read items parsed
  have leaves : dslGrammar.Leaves (.sequence [.token "RETURN", .rule .returnItem,
      .star (.sequence [.token ",", .rule .returnItem])]) children :=
        Grammar.leaves_of_derived read.derived rfl
  rw [Grammar.leaves_sequence_token, Grammar.leaves_sequence_rule rfl] at leaves
  obtain ⟨first, rest, rfl, -⟩ := leaves
  constructor
  · intro none
    have walked : (first :: rest).mapM parseReturnItem = .ok items := parsed
    rw [none] at walked
    cases mapM_eq_ok_iff.mp walked
  · exact mapM_sound parseReturnItem_sound
      (read_inner read rfl _ (by decide) (by decide)) parsed

theorem parseOrderByClause_sound :
    Sound size .orderByClause parseOrderByClause fun orderBy =>
    isIdent orderBy.aliasName ∧ isIdent orderBy.property := by
  rintro ⟨_, text, children⟩ ⟨⟩ read orderBy parsed
  have shape : children.map Pair.asRule ∈
      [[DslRule.ident, .ident], [.ident, .ident, .sortDirection]] :=
    Grammar.shape_of_derived read.derived rfl (by decide) rfl
  have each := read.inner rfl
  simp only [List.mem_cons, List.not_mem_nil, or_false, List.map_eq_cons_iff,
    List.map_eq_nil_iff] at shape
  rcases shape with ⟨subject, _, rfl, isSubject, property, _, rfl, isProperty, rfl⟩ |
    ⟨subject, _, rfl, isSubject, property, _, rfl, isProperty, direction, _, rfl,
      isDirection, rfl⟩
  · cases parsed
    exact ⟨isIdent_of_read isSubject (each _ List.mem_cons_self),
      isIdent_of_read isProperty (each _ (List.mem_cons_of_mem _ List.mem_cons_self))⟩
  · simp only [List.forall_mem_cons] at each
    have walk : parseOrderByClause
        (.node .orderByClause text [subject, property, direction]) =
        parseSortDirection (some direction) >>= fun direction =>
          .ok { aliasName := subject.asStr, property := property.asStr,
                direction := direction } := rfl
    rw [walk, bind_eq_ok_iff] at parsed
    obtain ⟨_, -, ⟨⟩⟩ := parsed
    exact ⟨isIdent_of_read isSubject each.1, isIdent_of_read isProperty each.2.1⟩

/-- The limit fits. -/
theorem parseLimitClause_sound :
    Sound size .limitClause parseLimitClause (· < 2 ^ 64) := by
  rintro ⟨_, text, children⟩ ⟨⟩ read limit parsed
  obtain ⟨number, rfl, kind⟩ := @Grammar.only_child _ children [.number]
    (Grammar.shape_of_derived read.derived rfl (by decide) rfl)
  exact parseNumber_sound 64 number (List.mem_singleton.mp kind)
    (read.inner rfl _ List.mem_cons_self) limit parsed

/-- What the walk has found of a query so far is spelled. -/
structure PartsSpelled (parts : QueryParts) : Prop where
  pattern : ∀ pattern, parts.pattern = some pattern → pattern.Spelled Literal.Legible
  conditions : AllSpelled Literal.Legible parts.whereConditions
  returns : ∀ item ∈ parts.returns, isIdent item.aliasName ∧
    ∀ property ∈ item.property, isIdent property
  orderBy : ∀ orderBy ∈ parts.orderBy, isIdent orderBy.aliasName ∧
    isIdent orderBy.property
  limit : ∀ limit ∈ parts.limit, limit < 2 ^ 64

/-- Every clause leaves the query spelled. -/
theorem addQueryPart_sound {part : Pair DslRule} (read : part.Read dslGrammar size)
    {parts parts' : QueryParts} (added : addQueryPart parts part = .ok parts')
    (spelled : PartsSpelled parts) : PartsSpelled parts' := by
  unfold addQueryPart at added
  split at added
  case h_1 rule =>
      obtain ⟨pattern, parsed, rfl⟩ := map_eq_ok_iff.mp added
      refine { spelled with pattern := ?_ }
      intro _ same
      cases same
      exact parsePattern_sound part rule read pattern parsed
  case h_2 rule =>
      obtain ⟨conditions, parsed, rfl⟩ := map_eq_ok_iff.mp added
      exact { spelled with
        conditions := parseWhereClause_sound part rule read conditions parsed }
  case h_3 rule =>
      obtain ⟨items, parsed, rfl⟩ := map_eq_ok_iff.mp added
      exact { spelled with
                returns := (parseReturnClause_sound part rule read items parsed).2 }
  case h_4 rule =>
      obtain ⟨orderBy, parsed, rfl⟩ := map_eq_ok_iff.mp added
      refine { spelled with orderBy := ?_ }
      intro _ same
      cases same
      exact parseOrderByClause_sound part rule read orderBy parsed
  case h_5 rule =>
      obtain ⟨limit, parsed, rfl⟩ := map_eq_ok_iff.mp added
      refine { spelled with limit := ?_ }
      intro _ same
      cases same
      exact parseLimitClause_sound part rule read limit parsed
  case h_6 =>
      cases added
      exact spelled
  case h_7 => cases added

/-- The walk finds the return items and does not lose them. -/
theorem returns_found {part : Pair DslRule} (read : part.Read dslGrammar size)
    {parts parts' : QueryParts} (added : addQueryPart parts part = .ok parts')
    (found : part.asRule ≠ .returnClause → parts.returns ≠ []) :
    parts'.returns ≠ [] := by
  unfold addQueryPart at added
  split at added
  case h_3 rule =>
      obtain ⟨items, parsed, rfl⟩ := map_eq_ok_iff.mp added
      exact (parseReturnClause_sound part rule read items parsed).1
  case h_6 rule =>
      cases added
      exact found (by simp [rule])
  case h_7 => cases added
  all_goals
    rename_i rule
    obtain ⟨_, _, rfl⟩ := map_eq_ok_iff.mp added
    exact found (by simp [rule])

/-- A query that is parsed is spelled. -/
theorem parseQuery_sound :
    Sound size .query parseQuery (Query.Spelled Literal.Legible) := by
  rintro ⟨_, text, children⟩ ⟨⟩ read query parsed
  have each := read.inner rfl
  simp only [parseQuery, bind_eq_ok_iff] at parsed
  obtain ⟨parts, walked, pattern, found, ⟨⟩⟩ := parsed
  have spelled : PartsSpelled parts := by
    apply foldlM_keeps (fun part member _ _ added =>
      addQueryPart_sound (each part member) added) walked
    exact ⟨by simp, by rw [AllSpelled]; trivial, by simp, by simp, by simp⟩
  have someReturn : ∃ clause ∈ children, clause.asRule = .returnClause := by
    have shape : children.map Pair.asRule ∈ (DslRule.query.body.shapes).getD [] :=
      Grammar.shape_of_derived read.derived rfl (by decide) rfl
    have listed : ∀ rules ∈ (DslRule.query.body.shapes).getD [],
        DslRule.returnClause ∈ rules := by
      decide
    obtain ⟨clause, member, isReturn⟩ := List.mem_map.mp (listed _ shape)
    exact ⟨clause, member, isReturn⟩
  obtain ⟨clause, member, isReturn⟩ := someReturn
  have returnsSome : parts.returns ≠ [] := by
    refine foldlM_reaches (Q := fun parts => parts.returns ≠ []) ?_ member ?_ walked
    · exact fun part inChildren _ _ added kept =>
        returns_found (each part inChildren) added fun _ => kept
    · exact fun _ _ added => returns_found (each clause member) added fun other =>
        absurd isReturn other
  have isPattern : parts.pattern = some pattern := by
    cases inParts : parts.pattern with
    | none =>
        rw [inParts] at found
        cases found
    | some other =>
        rw [inParts] at found
        cases found
        rfl
  exact ⟨spelled.pattern pattern isPattern, spelled.conditions, returnsSome,
    spelled.returns, spelled.orderBy,
    spelled.limit⟩

end DslParser

/-! ### Whole texts -/

/-- Every query that is read from a text, whatever the text, is spelled with
identifiers and legible literals. -/
theorem parse_spelled {report : String → Nat × String} {source : String}
    {query : Query} (parsed : PestParser.parse report source = .ok (.ok query)) :
    query.Spelled Literal.Legible := by
  obtain ⟨pair, pairs, rest, outcome, walked⟩ := walked_of_parse parsed
  obtain ⟨_, ⟨⟩, rule, read⟩ := Grammar.read_of_parse dslGrammar_ranked rfl outcome
  exact DslParser.parseQuery_sound pair rule read query walked

end GraphEngine
