/-
Module: GraphEngine.Proofs.QueryText
Layer: Proofs
Purpose: The walk over a query's parse tree meets nothing it does not expect,
  except numbers that do not fit the types it reads them into.
Trusted boundary: none
Main exports: Overflows, parseQuery_returns, queryParse_returns_iff
-/
import GraphEngine.Model.DslParser
import GraphEngine.Proofs.Numerals

namespace GraphEngine

namespace DslParser

open Grammar (children_of_atomic entered_of_derived shape_of_derived only_child
  first_child size_lt_of_mem)

/-! ### Numbers that do not fit -/

/-- Somewhere in the tree stands a number too large for its place: 32 bits for a
hop count, 64 for a limit, 63 and a sign for an integer literal. -/
inductive Overflows : Pair DslRule → Prop where
  | hops {text : List Char} {children : List (Pair DslRule)} {number : Pair DslRule}
      (member : number ∈ children) (large : 2 ^ 32 ≤ digitsValue number.text) :
      Overflows (.node .hopRange text children)
  | limit {text : List Char} {children : List (Pair DslRule)} {number : Pair DslRule}
      (member : number ∈ children) (large : 2 ^ 64 ≤ digitsValue number.text) :
      Overflows (.node .limitClause text children)
  | integer {text : List Char} {children : List (Pair DslRule)}
      (outside : ¬ (-2 ^ 63 ≤ signedValue text ∧ signedValue text < 2 ^ 63)) :
      Overflows (.node .intLiteral text children)
  | inside {rule : DslRule} {text : List Char} {children : List (Pair DslRule)}
      {child : Pair DslRule}
      (member : child ∈ children) (overflows : Overflows child) :
        Overflows (.node rule text children)

/-- Elsewhere only the children count. -/
theorem overflows_iff {rule : DslRule} {text : List Char} {children : List (Pair DslRule)}
    (plain : rule ∉ [DslRule.hopRange, .limitClause, .intLiteral]) :
    ¬ Overflows (.node rule text children) ↔ ∀ child ∈ children, ¬ Overflows child := by
  constructor
  · intro fits child member overflows
    exact fits (.inside member overflows)
  · intro fit overflows
    cases overflows with
    | hops | limit | integer => simp at plain
    | inside member overflows => exact fit _ member overflows

/-- Leaves of the tree hold no numbers but integer literals. -/
theorem not_overflows_of_atomic {rule : DslRule} {text : List Char}
    {children : List (Pair DslRule)}
    (derived : (Pair.node rule text children).Derived dslGrammar)
    (atomic : rule.atomic = true) (plain : rule ≠ .intLiteral) :
    ¬ Overflows (.node rule text children) := by
  obtain rfl := children_of_atomic derived atomic
  intro overflows
  cases overflows with
  | hops | limit => simp [DslRule.atomic] at atomic
  | integer => exact plain rfl
  | inside member => cases member

/-! ### Literals and operators -/

theorem isNumeral_of_number {number : Pair DslRule} (derived : number.Derived dslGrammar)
    (rule : number.asRule = .number) : isNumeral number.text = true := by
  obtain ⟨_, text, children⟩ := number
  cases rule
  exact isNumeral_of_matches derived

theorem sign_of_matches {isAtomic : Bool} {text : List Char}
    {pairs : List (Pair DslRule)}
    (matched : dslGrammar.Matches isAtomic (.optional (.token "-")) text pairs) :
    text = [] ∨ text = ['-'] := by
  cases matched with
  | absent => exact .inl rfl
  | present matched => exact .inr (Grammar.text_of_literal matched)

theorem parseNumber_returns {bits : Nat} {number : Pair DslRule}
    (derived : number.Derived dslGrammar) (rule : number.asRule = .number) :
    Returns (parseNumber bits number) ↔ digitsValue number.text < 2 ^ bits := by
  rw [parseNumber, returns_expect,
    parseUnsigned_isSome (isNumeral_of_number derived rule)]

theorem parseComparisonOp_returns {pair : Pair DslRule}
    (derived : pair.Derived dslGrammar) (rule : pair.asRule = .comparisonOp) :
    Returns (parseComparisonOp pair) := by
  obtain ⟨_, text, children⟩ := pair
  cases rule
  obtain ⟨token, member, same⟩ :=
    @Grammar.text_of_tokens _ dslGrammar _ ["<=", ">=", "<>", "=", "<", ">"]
      (by simp) _ _ derived
  simp only [parseComparisonOp, Pair.asStr, Pair.text, same]
  simp only [List.mem_cons, List.not_mem_nil, or_false] at member
  rcases member with rfl | rfl | rfl | rfl | rfl | rfl <;> exact returns_ok _

theorem unquote_returns {text : List Char} {pairs : List (Pair DslRule)}
    (matched : dslGrammar.Matches true DslRule.stringLiteral.body text pairs) :
    Returns (unquote text) := by
  cases matched with
  | seq opening rest =>
      cases rest with
      | seq content closing =>
          have first := Grammar.text_of_literal opening
          have last := Grammar.text_of_literal closing
          subst first last
          rw [unquote, if_pos]
          · exact returns_ok _
          · simp

theorem float_isSome {text : List Char} {pairs : List (Pair DslRule)}
    (matched : dslGrammar.Matches true DslRule.floatLiteral.body text pairs) :
    (parseF64 text).isSome := by
  cases matched with
  | seq sign rest =>
      cases rest with
      | seq whole rest =>
          cases rest with
          | seq point fraction =>
              have dot := Grammar.text_of_literal point
              subst dot
              exact parseF64_isSome (sign_of_matches sign) (isNumeral_of_matches whole)
                (isNumeral_of_matches fraction)

theorem int_isSome {text : List Char} {pairs : List (Pair DslRule)}
    (matched : dslGrammar.Matches true DslRule.intLiteral.body text pairs) :
    (parseSigned 64 text).isSome ↔ -2 ^ 63 ≤ signedValue text ∧
      signedValue text < 2 ^ 63 := by
  cases matched with
  | seq sign digits =>
      exact parseSigned_isSome (sign_of_matches sign) (isNumeral_of_matches digits)

theorem parseLiteral_returns {pair : Pair DslRule} (derived : pair.Derived dslGrammar)
    (rule : pair.asRule = .literal) : Returns (parseLiteral pair) ↔ ¬ Overflows pair := by
  obtain ⟨_, text, children⟩ := pair
  cases rule
  obtain ⟨⟨rule, text', children'⟩, rfl, kind⟩ := @only_child _ children
    [.stringLiteral, .floatLiteral, .intLiteral, .boolLiteral]
    (shape_of_derived derived rfl (by decide) rfl)
  have inner := (entered_of_derived derived rfl
    [.stringLiteral, .floatLiteral, .intLiteral, .boolLiteral] (by decide)
    (by decide) _ List.mem_cons_self).2
  rw [overflows_iff (by decide), List.forall_mem_singleton]
  simp only [Pair.asRule, List.mem_cons, List.not_mem_nil, or_false] at kind
  rcases kind with rfl | rfl | rfl | rfl
  · have walk :
        parseLiteral (.node .literal text [.node .stringLiteral text' children']) =
        (unquote text').map .string := rfl
    have fits := not_overflows_of_atomic inner rfl (by decide)
    simp [walk, fits, unquote_returns inner]
  · have walk : parseLiteral (.node .literal text [.node .floatLiteral text' children']) =
        (expect "float_literal only matches valid floats" (parseF64 text')).map
          .float64 := rfl
    have fits := not_overflows_of_atomic inner rfl (by decide)
    simp [walk, fits, float_isSome inner]
  · have walk : parseLiteral (.node .literal text [.node .intLiteral text' children']) =
        (expect "int_literal only matches valid integers"
          (parseSigned 64 text')).map .int64 := rfl
    rw [walk, returns_map, returns_expect, int_isSome inner, children_of_atomic inner rfl]
    constructor
    · intro fits overflows
      cases overflows with
      | integer outside => exact outside fits
      | inside member => cases member
    · intro fits
      by_contra outside
      exact fits (.integer outside)
  · have walk : parseLiteral (.node .literal text [.node .boolLiteral text' children']) =
        .ok (.bool (decide (String.ofList text' = "true"))) := rfl
    have leaf : children' = [] := by
      simpa using shape_of_derived inner rfl (by decide) rfl
    rw [walk, leaf, overflows_iff (by decide)]
    simp

/-! ### Patterns -/

/-- A walk that returns for exactly the trees of a rule whose numbers fit. -/
def Total {α : Type} (rule : DslRule) (walk : Pair DslRule → Except PanicMessage α) :
    Prop :=
  ∀ pair : Pair DslRule, pair.asRule = rule → pair.Derived dslGrammar →
    (Returns (walk pair) ↔ ¬ Overflows pair)

/-- The trees of an identifier hold no numbers. -/
theorem ident_fits {pair : Pair DslRule} (rule : pair.asRule = .ident)
    (derived : pair.Derived dslGrammar) : ¬ Overflows pair := by
  obtain ⟨_, text, children⟩ := pair
  cases rule
  exact not_overflows_of_atomic derived rfl (by decide)

theorem number_fits {pair : Pair DslRule} (rule : pair.asRule = .number)
    (derived : pair.Derived dslGrammar) : ¬ Overflows pair := by
  obtain ⟨_, text, children⟩ := pair
  cases rule
  exact not_overflows_of_atomic derived rfl (by decide)

theorem parseLiteral_total : Total .literal parseLiteral :=
  fun _ rule derived => parseLiteral_returns derived rule

/-- A list of subtrees walked one by one. -/
theorem mapM_returns {α : Type} {rule : DslRule}
    {walk : Pair DslRule → Except PanicMessage α} (total : Total rule walk)
    {children : List (Pair DslRule)}
    (each : ∀ child ∈ children, child.asRule ∈ [rule] ∧ child.Derived dslGrammar) :
    Returns (children.mapM walk) ↔ ∀ child ∈ children, ¬ Overflows child := by
  rw [returns_mapM]
  refine forall_congr' fun child => imp_congr_right fun member => ?_
  exact total child (List.mem_singleton.mp (each child member).1) (each child member).2

theorem parsePropertyKv_total : Total .propertyKv parsePropertyKv := by
  rintro ⟨_, text, children⟩ ⟨⟩ derived
  have shape : children.map Pair.asRule ∈ [[DslRule.ident, .literal]] :=
    shape_of_derived derived rfl (by decide) rfl
  have each := entered_of_derived derived rfl [.ident, .literal] (by decide) (by decide)
  simp only [List.mem_singleton, List.map_eq_cons_iff, List.map_eq_nil_iff] at shape
  obtain ⟨key, _, rfl, isKey, value, _, rfl, isValue, rfl⟩ := shape
  simp only [List.forall_mem_cons] at each
  have walk : parsePropertyKv (.node .propertyKv text [key, value]) =
      parseLiteral value >>= fun value =>
        .ok { property := key.asStr, op := .eq, value := value } := rfl
  rw [walk, returns_bind_of_forall (fun _ => returns_ok _),
    parseLiteral_total value isValue each.2.1.2, overflows_iff (by decide)]
  simp [ident_fits isKey each.1.2]

theorem parsePropertyMap_total : Total .propertyMap parsePropertyMap := by
  rintro ⟨_, text, children⟩ ⟨⟩ derived
  rw [overflows_iff (by decide)]
  exact mapM_returns parsePropertyKv_total
    (entered_of_derived derived rfl _ (by decide) (by decide))

/-- One part of a node pattern, whatever came before. -/
theorem addNodePart_returns {part : Pair DslRule}
    (rule : part.asRule ∈ [DslRule.ident, .propertyMap])
    (derived : part.Derived dslGrammar) (node : NodePattern) :
    Returns (addNodePart node part) ↔ ¬ Overflows part := by
  simp only [List.mem_cons, List.not_mem_nil, or_false] at rule
  rcases rule with rule | rule
  · simp [addNodePart, rule, ident_fits rule derived]
  · rw [addNodePart, rule]
    exact returns_map.trans (parsePropertyMap_total part rule derived)

theorem parseNodePattern_total : Total .nodePattern parseNodePattern := by
  rintro ⟨_, text, children⟩ ⟨⟩ derived
  obtain ⟨aliasPair, rest, rfl, isAlias⟩ :=
    @first_child _ children _ DslRule.ident
      (shape_of_derived derived rfl (by decide) rfl) (by decide)
  obtain ⟨first, later⟩ := List.forall_mem_cons.mp
    (entered_of_derived derived rfl [.ident, .propertyMap] (by decide) (by decide))
  have walk : parseNodePattern (.node .nodePattern text (aliasPair :: rest)) =
      rest.foldlM addNodePart
        { aliasName := aliasPair.asStr, label := none, propertyFilters := [] } := rfl
  rw [walk, overflows_iff (by decide), List.forall_mem_cons,
    returns_foldlM fun part member node =>
      addNodePart_returns (later part member).1 (later part member).2 node]
  simp [ident_fits isAlias first.2]

theorem parseHopRange_total : Total .hopRange parseHopRange := by
  rintro ⟨_, text, children⟩ ⟨⟩ derived
  have shape : children.map Pair.asRule ∈ [[DslRule.number, .number]] :=
    shape_of_derived derived rfl (by decide) rfl
  have each := entered_of_derived derived rfl [.number] (by decide) (by decide)
  simp only [List.mem_singleton, List.map_eq_cons_iff, List.map_eq_nil_iff] at shape
  obtain ⟨low, _, rfl, isLow, high, _, rfl, isHigh, rfl⟩ := shape
  simp only [List.forall_mem_cons] at each
  have walk : parseHopRange (.node .hopRange text [low, high]) =
      parseNumber 32 low >>= fun low => parseNumber 32 high >>= fun high =>
        .ok { min := low, max := high } := rfl
  rw [walk, returns_bind_iff fun low => returns_bind_of_forall fun high => returns_ok _,
    parseNumber_returns each.1.2 isLow, parseNumber_returns each.2.1.2 isHigh]
  constructor
  · rintro ⟨lowFits, highFits⟩ overflows
    cases overflows with
    | hops member large =>
        simp only [List.mem_cons, List.not_mem_nil, or_false] at member
        rcases member with rfl | rfl <;> omega
    | inside member overflows =>
        simp only [List.mem_cons, List.not_mem_nil, or_false] at member
        rcases member with rfl | rfl
        · exact number_fits isLow each.1.2 overflows
        · exact number_fits isHigh each.2.1.2 overflows
  · intro fits
    constructor
    · by_contra large
      exact fits (.hops List.mem_cons_self (by omega))
    · by_contra large
      exact fits (.hops (List.mem_cons_of_mem _ List.mem_cons_self) (by omega))

/-- One part of an edge's brackets, whatever came before. -/
theorem addEdgePart_returns {part : Pair DslRule}
    (rule : part.asRule ∈ [DslRule.edgeAlias, .ident, .hopRange])
    (derived : part.Derived dslGrammar) (edge : EdgePattern) :
    Returns (addEdgePart edge part) ↔ ¬ Overflows part := by
  simp only [List.mem_cons, List.not_mem_nil, or_false] at rule
  rcases rule with rule | rule | rule
  · have fits : ¬ Overflows part := by
      obtain ⟨_, text, children⟩ := part
      cases rule
      exact not_overflows_of_atomic derived rfl (by decide)
    simp [addEdgePart, rule, fits]
  · simp [addEdgePart, rule, ident_fits rule derived]
  · rw [addEdgePart, rule]
    exact returns_map.trans (parseHopRange_total part rule derived)

theorem addEdgeDetail_returns {detail : Pair DslRule} (rule : detail.asRule = .edgeDetail)
    (derived : detail.Derived dslGrammar) (edge : EdgePattern) :
    Returns (addEdgeDetail edge detail) ↔ ¬ Overflows detail := by
  obtain ⟨_, text, children⟩ := detail
  cases rule
  have each := entered_of_derived derived rfl [.edgeAlias, .ident, .hopRange]
    (by decide) (by decide)
  have walk : addEdgeDetail edge (.node .edgeDetail text children) =
      children.foldlM addEdgePart edge :=
    rfl
  rw [walk, overflows_iff (by decide), returns_foldlM fun part member edge =>
    addEdgePart_returns (each part member).1 (each part member).2 edge]

/-- The loop over the brackets of a directed edge. -/
theorem addEdgeDetails_returns {rule : DslRule}
    (directed : rule ∈ [DslRule.outgoingEdge, .incomingEdge]) {text : List Char}
    {children : List (Pair DslRule)}
    (derived : (Pair.node rule text children).Derived dslGrammar)
    (edge : EdgePattern) :
    Returns (children.foldlM addEdgeDetail edge) ↔
      ¬ Overflows (.node rule text children) := by
  have each : ∀ detail ∈ children, detail.asRule ∈ [DslRule.edgeDetail] ∧
      detail.Derived dslGrammar := by
    simp only [List.mem_cons, List.not_mem_nil, or_false] at directed
    rcases directed with rfl | rfl
    · exact entered_of_derived derived rfl [.edgeDetail] (by decide) (by decide)
    · exact entered_of_derived derived rfl [.edgeDetail] (by decide) (by decide)
  have plain : rule ∉ [DslRule.hopRange, .limitClause, .intLiteral] := by
    simp only [List.mem_cons, List.not_mem_nil, or_false] at directed
    rcases directed with rfl | rfl <;> decide
  rw [overflows_iff plain,
    returns_foldlM fun detail member edge => addEdgeDetail_returns
      (List.mem_singleton.mp (each detail member).1) (each detail member).2 edge]

theorem parseEdgePattern_total : Total .edgePattern parseEdgePattern := by
  rintro ⟨_, text, children⟩ ⟨⟩ derived
  obtain ⟨⟨rule, text', children'⟩, rfl, kind⟩ :=
    @only_child _ children [.outgoingEdge, .incomingEdge]
    (shape_of_derived derived rfl (by decide) rfl)
  have inner := (entered_of_derived derived rfl [.outgoingEdge, .incomingEdge]
    (by decide) (by decide) _
    List.mem_cons_self).2
  rw [overflows_iff (by decide), List.forall_mem_singleton]
  have directed := addEdgeDetails_returns kind inner
  simp only [Pair.asRule, List.mem_cons, List.not_mem_nil, or_false] at kind
  rcases kind with rfl | rfl
  · exact directed { aliasName := none, edgeType := none, direction := .outgoing,
                     hops := { min := 1, max := 1 } }
  · exact directed { aliasName := none, edgeType := none, direction := .incoming,
                     hops := { min := 1, max := 1 } }

theorem parsePatternStep_returns {part : Pair DslRule}
    (rule : part.asRule ∈ [DslRule.nodePattern, .edgePattern])
    (derived : part.Derived dslGrammar) :
    Returns (parsePatternStep part) ↔ ¬ Overflows part := by
  simp only [List.mem_cons, List.not_mem_nil, or_false] at rule
  rcases rule with rule | rule
  · rw [parsePatternStep, rule]
    exact returns_map.trans (parseNodePattern_total part rule derived)
  · rw [parsePatternStep, rule]
    exact returns_map.trans (parseEdgePattern_total part rule derived)

theorem parsePattern_total : Total .pattern parsePattern := by
  rintro ⟨_, text, children⟩ ⟨⟩ derived
  have each := entered_of_derived derived rfl [.nodePattern, .edgePattern]
    (by decide) (by decide)
  have walk : parsePattern (.node .pattern text children) =
      (children.mapM parsePatternStep).map fun steps => { steps := steps } := rfl
  rw [walk, returns_map, returns_mapM, overflows_iff (by decide)]
  refine forall_congr' fun part => imp_congr_right fun member => ?_
  exact parsePatternStep_returns (each part member).1 (each part member).2

/-! ### Conditions -/

theorem comparisonOp_fits {pair : Pair DslRule} (rule : pair.asRule = .comparisonOp)
    (derived : pair.Derived dslGrammar) : ¬ Overflows pair := by
  obtain ⟨_, text, children⟩ := pair
  cases rule
  have shape : children.map Pair.asRule ∈ [[], [], [], [], [], []] :=
    shape_of_derived derived rfl (by decide) rfl
  rw [overflows_iff (by decide)]
  simp_all

theorem parsePropertyPropertyComparison_total :
    Total .propertyPropertyComparison parsePropertyPropertyComparison := by
  rintro ⟨_, text, children⟩ ⟨⟩ derived
  have shape : children.map Pair.asRule ∈
      [[DslRule.ident, .ident, .comparisonOp, .ident, .ident]] :=
    shape_of_derived derived rfl (by decide) rfl
  have each :=
    entered_of_derived derived rfl [.ident, .comparisonOp] (by decide) (by decide)
  simp only [List.mem_singleton, List.map_eq_cons_iff, List.map_eq_nil_iff] at shape
  obtain ⟨left, _, rfl, isLeft, leftProperty, _, rfl, isLeftProperty, op, _, rfl,
      isOp, right, _, rfl, isRight,
    rightProperty, _, rfl, isRightProperty, rfl⟩ := shape
  simp only [List.forall_mem_cons] at each
  have walk : parsePropertyPropertyComparison
      (.node .propertyPropertyComparison text [left, leftProperty, op, right,
          rightProperty]) =
      parseComparisonOp op >>= fun op =>
        .ok (.propertyComparison
          { aliasName := left.asStr, property := leftProperty.asStr } op
          { aliasName := right.asStr, property := rightProperty.asStr }) := rfl
  rw [walk, returns_bind_of_forall fun _ => returns_ok _, overflows_iff (by decide)]
  simp [parseComparisonOp_returns each.2.2.1.2 isOp,
    comparisonOp_fits isOp each.2.2.1.2, ident_fits isLeft each.1.2,
    ident_fits isLeftProperty each.2.1.2, ident_fits isRight each.2.2.2.1.2,
    ident_fits isRightProperty each.2.2.2.2.1.2]

theorem parsePropertyCondition_total :
    Total .propertyCondition parsePropertyCondition := by
  rintro ⟨_, text, children⟩ ⟨⟩ derived
  have shape : children.map Pair.asRule ∈
      [[DslRule.ident, .ident, .comparisonOp, .literal]] :=
    shape_of_derived derived rfl (by decide) rfl
  have each := entered_of_derived derived rfl [.ident, .comparisonOp, .literal]
    (by decide) (by decide)
  simp only [List.mem_singleton, List.map_eq_cons_iff, List.map_eq_nil_iff] at shape
  obtain ⟨subject, _, rfl, isSubject, property, _, rfl, isProperty, op, _, rfl, isOp,
      value, _, rfl, isValue,
    rfl⟩ := shape
  simp only [List.forall_mem_cons] at each
  have walk : parsePropertyCondition
      (.node .propertyCondition text [subject, property, op, value]) =
      parseComparisonOp op >>= fun op => parseLiteral value >>= fun value =>
        .ok (.property subject.asStr
          { property := property.asStr, op := op, value := value }) := rfl
  rw [walk, returns_bind_iff fun op => returns_bind_of_forall fun value => returns_ok _,
    parseLiteral_total value isValue each.2.2.2.1.2, overflows_iff (by decide)]
  simp [parseComparisonOp_returns each.2.2.1.2 isOp, comparisonOp_fits isOp each.2.2.1.2,
    ident_fits isSubject each.1.2, ident_fits isProperty each.2.1.2]

theorem parseAliasComparison_total : Total .aliasComparison parseAliasComparison := by
  rintro ⟨_, text, children⟩ ⟨⟩ derived
  have shape : children.map Pair.asRule ∈ [[DslRule.ident, .comparisonOp, .ident]] :=
    shape_of_derived derived rfl (by decide) rfl
  have each :=
    entered_of_derived derived rfl [.ident, .comparisonOp] (by decide) (by decide)
  simp only [List.mem_singleton, List.map_eq_cons_iff, List.map_eq_nil_iff] at shape
  obtain ⟨left, _, rfl, isLeft, op, _, rfl, isOp, right, _, rfl, isRight, rfl⟩ := shape
  simp only [List.forall_mem_cons] at each
  have walk : parseAliasComparison (.node .aliasComparison text [left, op, right]) =
      parseComparisonOp op >>= fun op =>
        .ok (.aliasComparison left.asStr op right.asStr) := rfl
  rw [walk, returns_bind_of_forall fun _ => returns_ok _, overflows_iff (by decide)]
  simp [parseComparisonOp_returns each.2.1.2 isOp, comparisonOp_fits isOp each.2.1.2,
    ident_fits isLeft each.1.2, ident_fits isRight each.2.2.1.2]

/-- The alternatives of a condition. -/
def conditionAlternatives : List DslRule :=
  [.notExistsClause, .propertyPropertyComparison, .propertyCondition, .aliasComparison]

/-- A list of conditions returns if each of them does. -/
theorem parseWhereConditions_returns {pairs : List (Pair DslRule)} :
    Returns (parseWhereConditions pairs) ↔
      ∀ pair ∈ pairs, Returns (parseWhereCondition pair) := by
  induction pairs with
  | nil => simp [parseWhereConditions]
  | cons pair pairs ih =>
      rw [parseWhereConditions,
        returns_bind_iff fun _ => returns_bind_of_forall fun _ => returns_ok _, ih,
        List.forall_mem_cons]

/-- The parts of a `NOT EXISTS` return if the pattern and the conditions do; the
pattern is then found. -/
theorem parseNotExists_returns {text : List Char} {children : List (Pair DslRule)}
    (derived : (Pair.node .notExistsClause text children).Derived dslGrammar)
    (conditions : ∀ clause ∈ children, clause.asRule = .whereClause →
      (Returns (parseWhereConditions clause.intoInner) ↔ ¬ Overflows clause)) :
    Returns (parseConditionAlternative (.node .notExistsClause text children)) ↔
      ∀ child ∈ children, ¬ Overflows child := by
  have shape : children.map Pair.asRule ∈ [[DslRule.pattern], [.pattern, .whereClause]] :=
    shape_of_derived derived rfl (by decide) rfl
  have each :=
    entered_of_derived derived rfl [.pattern, .whereClause] (by decide) (by decide)
  simp only [List.mem_cons, List.not_mem_nil, or_false, List.map_eq_cons_iff,
    List.map_eq_nil_iff] at shape
  rcases shape with ⟨⟨_, text', children'⟩, _, rfl, ⟨⟩, rfl⟩ |
    ⟨⟨_, text', children'⟩, _, rfl, ⟨⟩, ⟨_, text'', children''⟩, _, rfl, ⟨⟩, rfl⟩
  · have walk : parseConditionAlternative
        (.node .notExistsClause text [.node .pattern text' children']) =
        (parsePattern (.node .pattern text' children') >>= fun pattern =>
          .ok (some pattern, [])) >>=
          fun parts => expect "grammar requires a pattern after NOT EXISTS \x7b MATCH"
            parts.1 >>= fun pattern =>
            .ok (.notExists (.mk pattern parts.2)) := rfl
    rw [walk, bind_assoc, List.forall_mem_singleton]
    refine (returns_bind_of_forall fun pattern => ?_).trans
      (parsePattern_total _ rfl (each _ List.mem_cons_self).2)
    exact ⟨WhereCondition.notExists (.mk pattern []), rfl⟩
  · have walk : parseConditionAlternative
        (.node .notExistsClause text [.node .pattern text' children',
            .node .whereClause text'' children'']) =
        (parsePattern (.node .pattern text' children') >>= fun pattern =>
          parseWhereConditions children'' >>= fun conditions =>
            .ok (some pattern, conditions)) >>=
          fun parts => expect "grammar requires a pattern after NOT EXISTS \x7b MATCH"
            parts.1 >>= fun pattern =>
            .ok (.notExists (.mk pattern parts.2)) := rfl
    have clause := conditions _ (List.mem_cons_of_mem _ List.mem_cons_self) rfl
    have after : ∀ pattern,
        Returns ((parseWhereConditions children'' >>= fun conditions =>
        .ok (some pattern, conditions)) >>= fun parts =>
          expect "grammar requires a pattern after NOT EXISTS \x7b MATCH" parts.1 >>=
            fun pattern =>
            .ok (WhereCondition.notExists (.mk pattern parts.2))) ↔
        ¬ Overflows (.node .whereClause text'' children'') := by
      intro pattern
      rw [bind_assoc]
      refine (returns_bind_of_forall fun found => ?_).trans clause
      exact ⟨WhereCondition.notExists (.mk pattern found), rfl⟩
    rw [walk, bind_assoc, returns_bind_iff after,
      parsePattern_total _ rfl (each _ List.mem_cons_self).2, List.forall_mem_cons,
      List.forall_mem_singleton]

/-- Conditions, by induction on the tree: only a `NOT EXISTS` holds further
conditions. -/
theorem parseWhereCondition_total : Total .whereCondition parseWhereCondition := by
  intro pair
  induction size : sizeOf pair using Nat.strongRecOn generalizing pair with
  | _ n ih =>
      subst size
      obtain ⟨_, text, children⟩ := pair
      rintro ⟨⟩ derived
      obtain ⟨⟨rule, text', children'⟩, rfl, kind⟩ :=
        @only_child _ children conditionAlternatives
        (shape_of_derived derived rfl (by decide) rfl)
      have inner := (entered_of_derived derived rfl conditionAlternatives
        (by decide) (by decide) _
        List.mem_cons_self).2
      have walk : parseWhereCondition
          (.node .whereCondition text [.node rule text' children']) =
          parseConditionAlternative (.node rule text' children') := rfl
      rw [walk, overflows_iff (by decide), List.forall_mem_singleton]
      simp only [conditionAlternatives, Pair.asRule, List.mem_cons, List.not_mem_nil,
        or_false] at kind
      rcases kind with rfl | rfl | rfl | rfl
      · rw [overflows_iff (by decide)]
        refine parseNotExists_returns inner fun clause member isClause => ?_
        obtain ⟨_, text'', children''⟩ := clause
        cases isClause
        have outer := (entered_of_derived inner rfl [.pattern, .whereClause]
          (by decide) (by decide) _ member).2
        have each :=
          entered_of_derived outer rfl [.whereCondition] (by decide) (by decide)
        rw [parseWhereConditions_returns, overflows_iff (by decide)]
        refine forall_congr' fun condition => imp_congr_right fun here => ?_
        refine ih _ ?_ condition rfl (List.mem_singleton.mp (each condition here).1)
          (each condition here).2
        calc sizeOf condition
            < sizeOf (Pair.node .whereClause text'' children'') := size_lt_of_mem here
          _ < sizeOf (Pair.node .notExistsClause text' children') := size_lt_of_mem member
          _ < sizeOf (Pair.node .whereCondition text
            [.node .notExistsClause text' children']) :=
              size_lt_of_mem List.mem_cons_self
      · exact parsePropertyPropertyComparison_total _ rfl inner
      · exact parsePropertyCondition_total _ rfl inner
      · exact parseAliasComparison_total _ rfl inner

theorem parseWhereClause_total : Total .whereClause parseWhereClause := by
  rintro ⟨_, text, children⟩ ⟨⟩ derived
  have each := entered_of_derived derived rfl [.whereCondition] (by decide) (by decide)
  rw [overflows_iff (by decide)]
  refine parseWhereConditions_returns.trans ?_
  refine forall_congr' fun condition => imp_congr_right fun here => ?_
  exact parseWhereCondition_total condition
    (List.mem_singleton.mp (each condition here).1) (each condition here).2

/-! ### Whole queries -/

/-- The trees of a return item hold no numbers. -/
theorem parseReturnItem_total : Total .returnItem parseReturnItem := by
  rintro ⟨_, text, children⟩ ⟨⟩ derived
  obtain ⟨aliasPair, rest, rfl, isAlias⟩ :=
    @first_child _ children _ DslRule.ident
      (shape_of_derived derived rfl (by decide) rfl) (by decide)
  have each := entered_of_derived derived rfl [.ident] (by decide) (by decide)
  have walk : parseReturnItem (.node .returnItem text (aliasPair :: rest)) =
      .ok { aliasName := aliasPair.asStr, property := rest[0]?.map Pair.asStr } := rfl
  rw [walk, overflows_iff (by decide)]
  refine iff_of_true (returns_ok _) fun item member => ?_
  exact ident_fits (List.mem_singleton.mp (each item member).1) (each item member).2

theorem parseReturnClause_total : Total .returnClause parseReturnClause := by
  rintro ⟨_, text, children⟩ ⟨⟩ derived
  rw [overflows_iff (by decide)]
  exact mapM_returns parseReturnItem_total
    (entered_of_derived derived rfl _ (by decide) (by decide))

theorem parseSortDirection_returns {pair : Pair DslRule}
    (rule : pair.asRule = .sortDirection) (derived : pair.Derived dslGrammar) :
    Returns (parseSortDirection (some pair)) ∧ ¬ Overflows pair := by
  obtain ⟨_, text, children⟩ := pair
  cases rule
  constructor
  · obtain ⟨token, member, same⟩ :=
      @Grammar.text_of_tokens _ dslGrammar _ ["ASC", "DESC"] (by simp) _ _ derived
    simp only [parseSortDirection, Pair.asStr, Pair.text, same]
    simp only [List.mem_cons, List.not_mem_nil, or_false] at member
    rcases member with rfl | rfl <;> exact returns_ok _
  · have shape : children.map Pair.asRule ∈ [[], []] :=
      shape_of_derived derived rfl (by decide) rfl
    rw [overflows_iff (by decide)]
    simp_all

theorem parseOrderByClause_total : Total .orderByClause parseOrderByClause := by
  rintro ⟨_, text, children⟩ ⟨⟩ derived
  have shape : children.map Pair.asRule ∈
      [[DslRule.ident, .ident], [.ident, .ident, .sortDirection]] :=
    shape_of_derived derived rfl (by decide) rfl
  have each :=
    entered_of_derived derived rfl [.ident, .sortDirection] (by decide) (by decide)
  simp only [List.mem_cons, List.not_mem_nil, or_false, List.map_eq_cons_iff,
    List.map_eq_nil_iff] at shape
  have fits : ∀ child ∈ children, ¬ Overflows child := by
    intro child member
    obtain ⟨kind, inner⟩ := each child member
    simp only [List.mem_cons, List.not_mem_nil, or_false] at kind
    rcases kind with isIdent | isDirection
    · exact ident_fits isIdent inner
    · exact (parseSortDirection_returns isDirection inner).2
  rw [overflows_iff (by decide)]
  refine iff_of_true ?_ fits
  rcases shape with ⟨subject, _, rfl, _, property, _, rfl, _, rfl⟩ |
    ⟨subject, _, rfl, _, property, _, rfl, _, direction, _, rfl, isDirection, rfl⟩
  · exact ⟨_, rfl⟩
  · simp only [List.forall_mem_cons] at each
    have walk : parseOrderByClause
        (.node .orderByClause text [subject, property, direction]) =
        parseSortDirection (some direction) >>= fun direction =>
          .ok { aliasName := subject.asStr, property := property.asStr,
                direction := direction } := rfl
    rw [walk, returns_bind_of_forall fun _ => returns_ok _]
    exact (parseSortDirection_returns isDirection each.2.2.1.2).1

theorem parseLimitClause_total : Total .limitClause parseLimitClause := by
  rintro ⟨_, text, children⟩ ⟨⟩ derived
  obtain ⟨number, rfl, kind⟩ :=
    @only_child _ children [.number] (shape_of_derived derived rfl (by decide) rfl)
  have inner := (entered_of_derived derived rfl [.number] (by decide)
    (by decide) _ List.mem_cons_self).2
  have isNumber := List.mem_singleton.mp kind
  have walk : parseLimitClause (.node .limitClause text [number]) =
      parseNumber 64 number :=
    rfl
  rw [walk, parseNumber_returns inner isNumber]
  constructor
  · intro fits overflows
    cases overflows with
    | limit member large =>
        rw [List.mem_singleton.mp member] at large
        omega
    | inside member overflows =>
        rw [List.mem_singleton.mp member] at overflows
        exact number_fits isNumber inner overflows
  · intro fits
    by_contra large
    exact fits (.limit List.mem_cons_self (by omega))

/-- The parts of a query. -/
def queryParts : List DslRule :=
  [.pattern, .whereClause, .returnClause, .orderByClause, .limitClause, .endOfInput]

theorem addQueryPart_returns {part : Pair DslRule} (rule : part.asRule ∈ queryParts)
    (derived : part.Derived dslGrammar) (parts : QueryParts) :
    Returns (addQueryPart parts part) ↔ ¬ Overflows part := by
  simp only [queryParts, List.mem_cons, List.not_mem_nil, or_false] at rule
  rcases rule with rule | rule | rule | rule | rule | rule
  · rw [addQueryPart, rule]
    exact returns_map.trans (parsePattern_total part rule derived)
  · rw [addQueryPart, rule]
    exact returns_map.trans (parseWhereClause_total part rule derived)
  · rw [addQueryPart, rule]
    exact returns_map.trans (parseReturnClause_total part rule derived)
  · rw [addQueryPart, rule]
    exact returns_map.trans (parseOrderByClause_total part rule derived)
  · rw [addQueryPart, rule]
    exact returns_map.trans (parseLimitClause_total part rule derived)
  · rw [addQueryPart, rule]
    refine iff_of_true (returns_ok _) ?_
    obtain ⟨_, text, children⟩ := part
    cases rule
    have shape : children.map Pair.asRule ∈ [[]] :=
      shape_of_derived derived rfl (by decide) rfl
    rw [overflows_iff (by decide)]
    simp_all

/-- The walk finds the pattern and does not lose it. -/
theorem pattern_found {part : Pair DslRule} {parts parts' : QueryParts}
    (added : addQueryPart parts part = .ok parts')
    (found : part.asRule ≠ .pattern → parts.pattern.isSome) :
    parts'.pattern.isSome := by
  unfold addQueryPart at added
  split at added
  case h_1 =>
      obtain ⟨_, _, rfl⟩ := map_eq_ok_iff.mp added
      rfl
  case h_6 rule =>
      cases added
      exact found (by simp [rule])
  case h_7 => cases added
  all_goals
    rename_i rule
    obtain ⟨_, _, rfl⟩ := map_eq_ok_iff.mp added
    exact found (by simp [rule])

theorem parseQuery_total : Total .query parseQuery := by
  rintro ⟨_, text, children⟩ ⟨⟩ derived
  obtain ⟨first, rest, rfl, isPattern⟩ :=
    @first_child _ children _ DslRule.pattern
      (shape_of_derived derived rfl (by decide) rfl) (by decide)
  have each := entered_of_derived derived rfl queryParts (by decide) (by decide)
  let start : QueryParts :=
    { pattern := none, whereConditions := [], returns := [], orderBy := none,
      limit := none }
  have loop : Returns ((first :: rest).foldlM addQueryPart start) ↔
      ∀ part ∈ first :: rest, ¬ Overflows part :=
    returns_foldlM (fun part member parts =>
      addQueryPart_returns (each part member).1 (each part member).2 parts)
      start
  have walk : parseQuery (.node .query text (first :: rest)) =
      (first :: rest).foldlM addQueryPart start >>= fun parts =>
        expect "grammar requires a pattern after MATCH" parts.pattern >>= fun pattern =>
          .ok
            { pattern := pattern, whereConditions := parts.whereConditions,
              returns := parts.returns
              orderBy := parts.orderBy, limit := parts.limit } := rfl
  rw [overflows_iff (by decide), ← loop, walk]
  refine returns_bind_of_reached fun parts walked => ?_
  refine (returns_bind_of_forall fun _ => returns_ok _).mpr (returns_expect.mpr ?_)
  refine @foldlM_reaches _ _ _
    (fun parts => parts.pattern.isSome) _ ?_ first List.mem_cons_self ?_ _ _ walked
  · exact fun part _ parts parts' added found => pattern_found added fun _ => found
  · exact fun parts parts' added => pattern_found added fun other =>
      absurd isPattern other

end DslParser

/-- No number in the text is too large for its place. -/
def QueryNumbersFit (source : String) : Prop :=
  ∀ pairs rest, dslParse .query source.toList = some (pairs, rest) →
    ∀ pair ∈ pairs, ¬ DslParser.Overflows pair

/-- The parser returns, a query or a syntax error, on exactly the texts whose
numbers fit. -/
theorem queryParse_returns_iff (report : String → Nat × String) (source : String) :
    Returns (PestParser.parse report source) ↔ QueryNumbersFit source := by
  unfold PestParser.parse QueryNumbersFit
  cases parsed : dslParse .query source.toList with
  | none => simp
  | some outcome =>
      obtain ⟨pairs, rest⟩ := outcome
      obtain ⟨pair, rfl, rule, derived⟩ := Grammar.derived_of_parse rfl parsed
      have walk : (expect "query is the grammar's only top-level rule"
          [pair].head? >>= fun queryPair =>
          DslParser.parseQuery queryPair >>= fun query =>
            (.ok (.ok query) : Except PanicMessage (Except DslError Query))) =
          DslParser.parseQuery pair >>= fun query => .ok (.ok query) := rfl
      simp only [walk, returns_bind_of_forall fun _ => returns_ok _,
        DslParser.parseQuery_total pair rule derived]
      simp

end GraphEngine
