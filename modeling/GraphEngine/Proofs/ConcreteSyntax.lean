/-
Module: GraphEngine.Proofs.ConcreteSyntax
Layer: Proofs
Purpose: Every text of a query is parsed to that query, whichever names occur in
  it.  A choice commits to an alternative only where the tokens are those of
  that alternative, since the earlier ones are refused there.
Trusted boundary: none
Main exports: takes_condition, takes_query, parse_laidOut
-/
import GraphEngine.Proofs.PatternSyntax

namespace GraphEngine

open Grammar (Yields Takes Refuses Anything HeadIn Both Wraps headIn_cons)
open DslParser

/-! ### Conditions that are not there -/

/-- What comes after a condition. -/
def conditionEnds : List Token := [tok "AND", tok "RETURN", tok "\x7d"]

section Refused

variable {name property : String} {op : ComparisonOp} {next : Token} {ts : List Token}

theorem isIdentPart_of_mem (ident : isIdent name = true) :
    ∀ c ∈ tok name, isIdentPart c = true := by
  rw [isIdent] at ident
  split at ident
  case h_1 => cases ident
  case h_2 c rest characters =>
    rw [tok, characters]
    rw [Bool.and_eq_true, List.all_eq_true] at ident
    intro d member
    cases List.mem_cons.mp member with
    | inl same =>
        subst same
        have start := ident.1
        rw [isIdentStart, Bool.or_eq_true] at start
        rw [isIdentPart, Char.isAlphanum, Bool.or_eq_true, Bool.or_eq_true]
        exact start.imp_left .inl
    | inr later => exact ident.2 d later

/-- An identifier may begin with keywords, or be one; what comes after it is no
brace. -/
theorem refuses_notExists (ident : isIdent name = true)
    (apart : apartFrom "EXISTS" [next] = true)
    (apart' : apartFrom "\x7b" [next] = true) :
    Refuses dslLayout (.rule .notExistsClause) (tok name :: next :: ts) := by
  have closed {c : Char} (part : isIdentPart c = true) : opensGap c = false := by
    cases opens : opensGap c with
    | false => rfl
    | true =>
        have refused : isIdentPart c = false := refused_of_opensGap (by decide) opens
        rw [refused] at part
        cases part
  have characters := isIdentPart_of_mem ident
  have noBrace : Refuses dslLayout (.token "\x7b") (next :: ts) :=
    refuses_tok (headIn_cons (List.mem_singleton_self next) ts) apart'
  have noExists : Refuses dslLayout (.token "EXISTS") (next :: ts) :=
    refuses_tok (headIn_cons (List.mem_singleton_self next) ts) apart
  apply Refuses.rule rfl
  apply Refuses.after_literal (fun c member => closed (characters c member))
  · intro more _ split
    rw [split] at characters
    have characters' : ∀ c ∈ more, isIdentPart c = true :=
      fun c member => characters c (List.mem_append_right _ member)
    apply Refuses.after_literal (fun c member => closed (characters' c member))
    · intro more' nonempty split'
      rw [split'] at characters'
      apply Refuses.seq
      apply Refuses.token (by decide)
        (fun c member => Grammar.Layout.closed_of (by decide) member)
      rintro _ ⟨⟩ ⟨after, rfl⟩
      cases characters' '{' (List.mem_append_right _ List.mem_cons_self)
    · exact fun _ => noBrace.seq
    · decide
    · exact fun c member => Grammar.Layout.closed_of (by decide) member
  · exact fun _ => noExists.seq
  · decide
  · exact fun c member => Grammar.Layout.closed_of (by decide) member

/-- A property is compared with a property only where one comes after the
operator. -/
theorem refuses_propertyProperty (ident : isIdent name = true)
    (ident' : isIdent property = true)
    (other : Refuses dslLayout
      (.sequence [.rule .ident, .token ".", .rule .ident]) ts) :
    Refuses dslLayout (.rule .propertyPropertyComparison)
      (tok name :: tok "." :: tok property :: opToken op :: ts) := by
  have point : Takes dslLayout (.token ".") [tok "."] Anything (· = []) :=
    .token (solid_of rfl)
  have compared := Refuses.append (takes_comparisonOp op) trivial other
  have named := Refuses.append (takes_ident ident') trivial compared
  exact .rule rfl (.append (takes_ident ident) trivial (.append point trivial named))

/-- Where an operator comes after the first identifier, there is no property. -/
theorem refuses_property {rule : DslRule} {e : Peg DslRule}
    (plain : rule.atomic = false)
    (body : rule.body = .seq (.rule .ident) (.seq .trivia (.seq (.token ".") e)))
    (ident : isIdent name = true) :
    Refuses dslLayout (.rule rule) (tok name :: opToken op :: ts) := by
  have apart : apartFrom "." [opToken op] = true := by cases op <;> decide
  have noPoint : Refuses dslLayout (.seq (.token ".") e) (opToken op :: ts) :=
    .seq (refuses_tok (headIn_cons (List.mem_singleton_self _) ts) apart)
  apply Refuses.rule plain
  have refused := Refuses.append (takes_ident ident) trivial noPoint
  rw [← body] at refused
  exact refused

theorem not_isIdentStart_of_isDigit {c : Char} (digit : c.isDigit = true) :
    isIdentStart c = false := by
  have limit : c.toNat ≤ 57 := (Char.isDigit_iff_toNat.mp digit).2
  rw [Bool.eq_false_iff]
  intro start
  rw [isIdentStart, Bool.or_eq_true] at start
  cases start with
  | inl alpha =>
      have either : c.isUpper = true ∨ c.isLower = true := Bool.or_eq_true _ _ ▸ alpha
      cases either with
      | inl upper =>
          have bounds : 'A'.val ≤ c.val ∧ c.val ≤ 'Z'.val := of_decide_eq_true upper
          have least : 65 ≤ c.toNat := bounds.1
          omega
      | inr lower =>
          have bound : decide ('a'.val ≤ c.val) = true := (Bool.and_eq_true _ _ ▸ lower).1
          have least : 97 ≤ c.toNat := of_decide_eq_true bound
          omega
  | inr underscore =>
      rw [beq_iff_eq] at underscore
      subst underscore
      exact absurd limit (by decide)

/-- After a literal there is no property. -/
theorem refuses_propertyRef {value : Literal} {t : Token}
    (writable : value.Writable) (token : LiteralToken value t)
    (head : HeadIn conditionEnds ts) :
    Refuses dslLayout (.sequence [.rule .ident, .token ".", .rule .ident]) (t :: ts) := by
  cases value with
  | float64 => cases writable
  | string value =>
      cases token
      apply Refuses.seq
      apply refuses_ident
      rintro _ ⟨⟩ _ ⟨⟩
      decide
  | int64 value =>
      obtain ⟨digits, numeral, ⟨rfl, -⟩ | ⟨rfl, -⟩⟩ := token
      · obtain ⟨c, rest, rfl, digit⟩ := head_of_isNumeral numeral
        apply Refuses.seq
        apply refuses_ident
        rintro _ ⟨⟩ _ ⟨⟩
        exact not_isIdentStart_of_isDigit digit
      · apply Refuses.seq
        apply refuses_ident
        rintro _ ⟨⟩ _ ⟨⟩
        decide
  | bool value =>
      -- `true` and `false` are identifiers too
      cases token
      have name : isIdent (if value then "true" else "false") = true := by
        cases value <;> decide
      exact .append (takes_ident name) trivial (.seq (refuses_tok head (by decide)))

end Refused

/-! ### Conditions -/

section Conditions

variable {aliasName : String} {filter : PropertyFilter} {left right : PropertyRef}
variable {op : ComparisonOp} {t : Token}

/-- A property compared with a literal is taken and walked as such. -/
theorem takes_propertyCondition (ident : isIdent aliasName = true)
    (writable : filter.Writable) (token : LiteralToken filter.value t) :
    Takes dslLayout (.rule .whereCondition)
      [tok aliasName, tok ".", tok filter.property, opToken filter.op, t]
      (HeadIn conditionEnds)
      (Walked .whereCondition parseWhereCondition (.property aliasName filter)) := by
  have body : Takes dslLayout DslRule.propertyCondition.body
      ([tok aliasName] ++
        (tok "." :: ([tok filter.property] ++ ([opToken filter.op] ++ [t])))) Anything
      (Both (· = [.node .ident (tok aliasName) []])
        (Both (· = [.node .ident (tok filter.property) []])
        (Both (· = [.node .comparisonOp (opToken filter.op) []])
          (Walked .literal parseLiteral filter.value)))) :=
    .cons (takes_ident ident) (.token_cons (solid_of rfl) (.cons (takes_ident writable.1)
      (.append (takes_comparisonOp filter.op) (takes_literal writable.2 token)
        fun _ _ => trivial)
      fun _ _ => trivial)) fun _ _ => trivial
  have alternatives : Takes dslLayout DslRule.whereCondition.body
      [tok aliasName, tok ".", tok filter.property, opToken filter.op, t]
      (HeadIn conditionEnds)
      (Wraps .propertyCondition _) :=
    .choice_second (fun rest _ => refuses_notExists ident (by decide) (by decide))
      (.choice_second
        (fun rest head => refuses_propertyProperty ident writable.1
          (refuses_propertyRef writable.2 token head))
        (.choice_first ((Takes.rule rfl rfl body).before fun _ _ => trivial)))
  apply (Takes.rule rfl rfl alternatives).imp
  rintro pairs ⟨text, _, rfl, inner, _, rfl, _, _, rfl, rfl, _, _, rfl, rfl, _, _,
    rfl, rfl, value, children, rfl, walks⟩
  refine ⟨text, _, rfl, ?_⟩
  have walk : parsePropertyCondition
      (.node .propertyCondition inner [.node .ident (tok aliasName) [],
      .node .ident (tok filter.property) [],
        .node .comparisonOp (opToken filter.op) [], .node .literal value children]) =
        (parseComparisonOp (.node .comparisonOp (opToken filter.op) [])).bind fun op =>
          (parseLiteral (.node .literal value children)).bind fun value =>
            .ok (.property (Pair.node DslRule.ident (tok aliasName) []).asStr
              { property := (Pair.node DslRule.ident (tok filter.property) []).asStr,
                op := op, value := value }) := rfl
  rw [parseWhereCondition, List.singleton_append, List.singleton_append,
    List.singleton_append, parseConditionAlternative, walk, parseComparisonOp_opToken,
    walks, asStr_tok, asStr_tok]
  rfl

/-- Two properties compared are taken and walked as such. -/
theorem takes_propertyComparison (writable : left.Writable)
    (writable' : right.Writable) :
    Takes dslLayout (.rule .whereCondition)
      [tok left.aliasName, tok ".", tok left.property, opToken op,
        tok right.aliasName, tok ".", tok right.property]
      (HeadIn conditionEnds) (Walked .whereCondition parseWhereCondition
        (.propertyComparison left op right)) := by
  have body : Takes dslLayout DslRule.propertyPropertyComparison.body
      ([tok left.aliasName] ++
        (tok "." :: ([tok left.property] ++ ([opToken op] ++ ([tok right.aliasName] ++
        [tok ".", tok right.property]))))) Anything
      (Both (· = [.node .ident (tok left.aliasName) []])
        (Both (· = [.node .ident (tok left.property) []])
        (Both (· = [.node .comparisonOp (opToken op) []])
          (Both (· = [.node .ident (tok right.aliasName) []])
          (· = [.node .ident (tok right.property) []]))))) :=
    .cons (takes_ident writable.1)
      (.token_cons (solid_of rfl) (.cons (takes_ident writable.2)
      (.cons (takes_comparisonOp op)
        (.cons (takes_ident writable'.1) (.token_cons (solid_of rfl)
        (takes_ident writable'.2)) fun _ _ => trivial) fun _ _ => trivial)
          fun _ _ => trivial))
          fun _ _ =>
          trivial
  have alternatives : Takes dslLayout DslRule.whereCondition.body
      [tok left.aliasName, tok ".", tok left.property, opToken op,
        tok right.aliasName, tok ".", tok right.property]
      (HeadIn conditionEnds) (Wraps .propertyPropertyComparison _) :=
    .choice_second (fun rest _ => refuses_notExists writable.1 (by decide) (by decide))
      (.choice_first ((Takes.rule rfl rfl body).before fun _ _ => trivial))
  apply (Takes.rule rfl rfl alternatives).imp
  rintro pairs ⟨text, _, rfl, inner, _, rfl, _, _, rfl, rfl, _, _, rfl, rfl, _, _,
    rfl, rfl, _, _, rfl, rfl, rfl⟩
  refine ⟨text, _, rfl, ?_⟩
  have walk : parsePropertyPropertyComparison (.node .propertyPropertyComparison inner
      [.node .ident (tok left.aliasName) [], .node .ident (tok left.property) [],
        .node .comparisonOp (opToken op) [],
        .node .ident (tok right.aliasName) [], .node .ident (tok right.property) []]) =
      (parseComparisonOp (.node .comparisonOp (opToken op) [])).bind fun op =>
        .ok (.propertyComparison
          { aliasName := (Pair.node DslRule.ident (tok left.aliasName) []).asStr
            property := (Pair.node DslRule.ident (tok left.property) []).asStr } op
          { aliasName := (Pair.node DslRule.ident (tok right.aliasName) []).asStr
            property := (Pair.node DslRule.ident (tok right.property) []).asStr }) := rfl
  simp only [List.singleton_append]
  rw [parseWhereCondition, parseConditionAlternative, walk, parseComparisonOp_opToken,
    asStr_tok, asStr_tok, asStr_tok, asStr_tok]
  rfl

/-- Two aliases compared are taken and walked as such. -/
theorem takes_aliasComparison {left right : String} (ident : isIdent left = true)
    (ident' : isIdent right = true) :
    Takes dslLayout (.rule .whereCondition) [tok left, opToken op, tok right]
      (HeadIn conditionEnds)
      (Walked .whereCondition parseWhereCondition (.aliasComparison left op right)) := by
  have body : Takes dslLayout DslRule.aliasComparison.body
      ([tok left] ++ ([opToken op] ++ [tok right])) Anything
      (Both (· = [.node .ident (tok left) []])
        (Both (· = [.node .comparisonOp (opToken op) []])
        (· = [.node .ident (tok right) []]))) :=
    .cons (takes_ident ident) (.append (takes_comparisonOp op) (takes_ident ident')
      fun _ _ => trivial) fun _ _ => trivial
  have noKeyword : apartFrom "EXISTS" [opToken op] = true := by cases op <;> decide
  have noBrace : apartFrom "\x7b" [opToken op] = true := by cases op <;> decide
  have alternatives : Takes dslLayout DslRule.whereCondition.body
      [tok left, opToken op, tok right]
      (HeadIn conditionEnds) (Wraps .aliasComparison _) :=
    .choice_second (fun rest _ => refuses_notExists ident noKeyword noBrace)
      (.choice_second (fun rest _ => refuses_property rfl rfl ident)
        (.choice_second (fun rest _ => refuses_property rfl rfl ident)
          ((Takes.rule rfl rfl body).before fun _ _ => trivial)))
  apply (Takes.rule rfl rfl alternatives).imp
  rintro pairs ⟨text, _, rfl, inner, _, rfl, _, _, rfl, rfl, _, _, rfl, rfl, rfl⟩
  refine ⟨text, _, rfl, ?_⟩
  have walk :
      parseAliasComparison (.node .aliasComparison inner [.node .ident (tok left) [],
      .node .comparisonOp (opToken op) [], .node .ident (tok right) []]) =
        (parseComparisonOp (.node .comparisonOp (opToken op) [])).bind fun op =>
          .ok (.aliasComparison (Pair.node DslRule.ident (tok left) []).asStr op
            (Pair.node DslRule.ident (tok right) []).asStr) := rfl
  rw [parseWhereCondition, List.singleton_append, List.singleton_append,
    parseConditionAlternative, walk, parseComparisonOp_opToken, asStr_tok, asStr_tok]
  rfl

end Conditions

/-! ### Clauses of conditions -/

/-- What comes after a clause of conditions. -/
def clauseEnds : List Token := [tok "RETURN", tok "\x7d"]

/-- The tokens of the condition are parsed to it. -/
def TakesCondition (condition : WhereCondition) (ts : List Token) : Prop :=
  Takes dslLayout (.rule .whereCondition) ts (HeadIn conditionEnds)
    (Walked .whereCondition parseWhereCondition condition)

/-- The conditions are walked one by one. -/
theorem parseWhereConditions_eq_mapM (pairs : List (Pair DslRule)) :
    parseWhereConditions pairs = pairs.mapM parseWhereCondition := by
  induction pairs with
  | nil => rw [parseWhereConditions, List.mapM_nil]; rfl
  | cons pair pairs ih =>
      rw [parseWhereConditions, List.mapM_cons, ih]
      rfl

theorem headIn_whereTokens {rest : List Token} (parts : List (List Token))
    (head : HeadIn clauseEnds rest) :
    HeadIn (tok "WHERE" :: clauseEnds) (whereTokens parts ++ rest) := by
  cases parts with
  | nil => exact head.mono (List.subset_cons_self _ _)
  | cons part parts => exact headIn_cons List.mem_cons_self _

/-- A `WHERE` clause is taken, if its conditions are. -/
theorem takes_whereClause {conditions : List WhereCondition}
    {parts : List (List Token)}
    (each : List.Forall₂ TakesCondition conditions parts) :
    Takes dslLayout (.optional (.rule .whereClause)) (whereTokens parts)
      (HeadIn clauseEnds)
      (WalkedOr [] .whereClause parseWhereClause conditions) := by
  cases each with
  | nil =>
      exact takes_absent rfl rfl (by decide)
  | cons first later =>
      have ends (rest : List Token) (head : HeadIn clauseEnds rest) :
          HeadIn conditionEnds rest ∧ Refuses dslLayout (.token "AND") rest :=
        ⟨head.mono (List.subset_cons_self _ _), refuses_tok head (by decide)⟩
      have list := Takes.separated (solid_of rfl) first later
        (fun _ => headIn_cons List.mem_cons_self _) ends
      have body : Takes dslLayout DslRule.whereClause.body _ _ _ :=
        list.token_cons (solid_of rfl)
      apply (Takes.rule rfl rfl body).present.imp
      rintro pairs ⟨text, _, rfl, rounds, rfl, walked⟩
      refine .inr ⟨text, _, rfl, ?_⟩
      rw [parseWhereClause, Pair.intoInner, parseWhereConditions_eq_mapM]
      exact mapM_of_walked walked

/-- What the braces of a subquery contain. -/
def SubqueryParts (subquery : ExistsSubquery) : List (Pair DslRule) → Prop :=
  Both (Walked .pattern parsePattern subquery.pattern)
    (Both (WalkedOr [] .whereClause parseWhereClause subquery.whereConditions) (· = []))

/-- The parts of a subquery are put together. -/
theorem parseNotExistsParts_of_parts {subquery : ExistsSubquery}
    {children : List (Pair DslRule)} (parts : SubqueryParts subquery children) :
    parseNotExistsParts children none [] =
      .ok (some subquery.pattern, subquery.whereConditions) := by
  obtain ⟨_, _, rfl, ⟨text, inner, rfl, walks⟩, _, _, rfl, clause, rfl⟩ := parts
  rcases clause with ⟨rfl, none⟩ | ⟨text', inner', rfl, walks'⟩
  · rw [List.singleton_append, List.append_nil, parseNotExistsParts, walks, none]
    rfl
  · rw [parseWhereClause, Pair.intoInner] at walks'
    rw [List.singleton_append, List.append_nil, parseNotExistsParts, walks]
    have clause : parseNotExistsParts [.node .whereClause text' inner']
        (some subquery.pattern) [] =
        (parseWhereConditions inner').bind fun conditions =>
          .ok (some subquery.pattern, conditions) := by
      rw [parseNotExistsParts]
      rfl
    have walk : (Except.ok subquery.pattern >>= fun pattern =>
        parseNotExistsParts [.node .whereClause text' inner'] (some pattern) []) =
          parseNotExistsParts [.node .whereClause text' inner']
            (some subquery.pattern) [] := rfl
    rw [walk, clause, walks']
    rfl

/-- A subquery is taken as a condition, if what is inside its braces is. -/
theorem takes_notExists {subquery : ExistsSubquery} {inner : List Token}
    (takes : Takes dslLayout
      (.sequence [.rule .pattern, .optional (.rule .whereClause), .token "\x7d"])
      (inner ++ [tok "\x7d"]) Anything (SubqueryParts subquery)) :
    TakesCondition (.notExists subquery)
      (tok "NOT" :: tok "EXISTS" :: tok "\x7b" :: tok "MATCH" ::
        (inner ++ [tok "\x7d"])) := by
  have body : Takes dslLayout DslRule.notExistsClause.body _ _ _ :=
    .token_cons (solid_of rfl) (.token_cons (solid_of rfl) (.token_cons (solid_of rfl)
      (.token_cons (solid_of rfl) takes)))
  have alternatives : Takes dslLayout DslRule.whereCondition.body _
      (HeadIn conditionEnds) _ :=
    .choice_first ((Takes.rule rfl rfl body).before fun _ _ => trivial)
  apply (Takes.rule rfl rfl alternatives).imp
  rintro pairs ⟨text, _, rfl, text', children, rfl, parts⟩
  refine ⟨text, _, rfl, ?_⟩
  rw [parseWhereCondition, parseConditionAlternative, parseNotExistsParts_of_parts parts]
  cases subquery
  rfl

mutual

/-- A condition is parsed from its tokens, whatever its kind. -/
theorem takes_condition :
    ∀ {condition : WhereCondition} {ts : List Token}, condition.Writable →
    ConditionTokens condition ts → TakesCondition condition ts
  | .property _ _, _, writable, tokens => by
      obtain ⟨t, literal, rfl⟩ := tokens
      exact takes_propertyCondition writable.1 writable.2 literal
  | .aliasComparison _ _ _, _, writable, tokens => by
      cases tokens
      exact takes_aliasComparison writable.1 writable.2
  | .propertyComparison _ _ _, _, writable, tokens => by
      cases tokens
      exact takes_propertyComparison writable.1 writable.2
  | .notExists subquery, _, writable, tokens => by
      obtain ⟨inner, subqueryTokens, rfl⟩ := tokens
      exact takes_notExists (takes_subquery writable subqueryTokens)

/-- What is inside the braces is taken. -/
theorem takes_subquery :
    ∀ {subquery : ExistsSubquery} {inner : List Token}, subquery.Writable →
    SubqueryTokens subquery inner →
      Takes dslLayout
        (.sequence [.rule .pattern, .optional (.rule .whereClause), .token "\x7d"])
        (inner ++ [tok "\x7d"]) Anything (SubqueryParts subquery)
  | .mk _ _, _, writable, tokens => by
      obtain ⟨patternTokens, parts, chain, each, rfl⟩ := tokens
      have closing := takes_tok "\x7d" rfl
      have closes (rest : List Token) : HeadIn clauseEnds ([tok "\x7d"] ++ rest) :=
        headIn_cons (by decide) rest
      have clause := (takes_whereClause (takes_each writable.2 each)).cons closing
        fun rest _ => closes rest
      rw [List.append_assoc]
      have path : Takes dslLayout (.rule .pattern) patternTokens
          (HeadIn (tok "WHERE" :: clauseEnds)) _ :=
        takes_pattern writable.1 chain (by decide) (by decide)
      apply path.cons clause
      intro rest _
      rw [List.append_assoc]
      exact headIn_whereTokens parts (closes rest)

/-- All conditions are taken. -/
theorem takes_each :
    ∀ {conditions : List WhereCondition} {parts : List (List Token)},
      AllWritable conditions →
    EachTokens conditions parts → List.Forall₂ TakesCondition conditions parts
  | [], _, _, tokens => by
      cases tokens
      exact .nil
  | _ :: _, _, writable, tokens => by
      obtain ⟨first, rest, head, each, rfl⟩ := tokens
      exact .cons (takes_condition writable.1 head) (takes_each writable.2 each)

end

/-! ### The rest of a query -/

/-- What comes after an item of a `RETURN` clause. -/
def itemEnds : List Token := [tok ",", tok "ORDER", tok "LIMIT"]

/-- An item of the `RETURN` clause is taken. -/
theorem takes_returnItem {item : ReturnItem} (ident : isIdent item.aliasName = true)
    (ident' : ∀ property ∈ item.property, isIdent property = true) :
    Takes dslLayout (.rule .returnItem) (returnTokens item) (HeadIn itemEnds)
      (Walked .returnItem parseReturnItem item) := by
  obtain ⟨aliasName, property⟩ := item
  cases property with
  | none =>
      have absent : Takes dslLayout (.optional (.sequence [.token ".", .rule .ident]))
          [] (HeadIn itemEnds) (· = []) :=
        .absent fun rest head => .seq (refuses_tok head (by decide))
      have body : Takes dslLayout DslRule.returnItem.body ([tok aliasName] ++ [])
          (HeadIn itemEnds) _ :=
        (takes_ident ident).append absent fun _ _ => trivial
      apply (Takes.rule rfl rfl body).imp
      rintro pairs ⟨text, _, rfl, _, _, rfl, rfl, rfl⟩
      refine ⟨text, _, rfl, ?_⟩
      have walk :
          parseReturnItem (.node .returnItem text [.node .ident (tok aliasName) []]) =
          .ok { aliasName := (Pair.node DslRule.ident (tok aliasName) []).asStr,
                property := none } := rfl
      rw [List.append_nil, walk, asStr_tok]
  | some property =>
      have projected : Takes dslLayout (.sequence [.token ".", .rule .ident])
          [tok ".", tok property] Anything
          (· = [.node .ident (tok property) []]) :=
            .token_cons (solid_of rfl) (takes_ident (ident' property rfl))
      have body : Takes dslLayout DslRule.returnItem.body
          ([tok aliasName] ++ [tok ".", tok property])
          (HeadIn itemEnds) _ :=
        (takes_ident ident).append (projected.before fun _ _ => trivial).present
          fun _ _ => trivial
      apply (Takes.rule rfl rfl body).imp
      rintro pairs ⟨text, _, rfl, _, _, rfl, rfl, rfl⟩
      refine ⟨text, _, rfl, ?_⟩
      have walk : parseReturnItem (.node .returnItem text
          [.node .ident (tok aliasName) [], .node .ident (tok property) []]) =
            .ok { aliasName := (Pair.node DslRule.ident (tok aliasName) []).asStr
                  property :=
                    some (Pair.node DslRule.ident (tok property) []).asStr } := rfl
      rw [List.singleton_append, walk, asStr_tok, asStr_tok]

/-- A `RETURN` clause is taken. -/
theorem takes_returnClause {items : List ReturnItem} (nonempty : items ≠ [])
    (idents : ∀ item ∈ items, isIdent item.aliasName = true ∧
      ∀ property ∈ item.property, isIdent property = true) :
    Takes dslLayout (.rule .returnClause)
      (tok "RETURN" :: sepBy "," (items.map returnTokens))
      (HeadIn [tok "ORDER", tok "LIMIT"])
      (Walked .returnClause parseReturnClause items) := by
  have each : List.Forall₂
      (fun item part => Takes dslLayout (.rule .returnItem) part (HeadIn itemEnds)
      (Walked .returnItem parseReturnItem item)) items (items.map returnTokens) := by
    rw [List.forall₂_map_right_iff, List.forall₂_same]
    exact fun item member =>
      takes_returnItem (idents item member).1 (idents item member).2
  cases items with
  | nil => exact absurd rfl nonempty
  | cons item items =>
      cases each with
      | cons first later =>
          have ends (rest : List Token) (head : HeadIn [tok "ORDER", tok "LIMIT"] rest) :
              HeadIn itemEnds rest ∧ Refuses dslLayout (.token ",") rest :=
            ⟨head.mono (List.subset_cons_self _ _), refuses_tok head (by decide)⟩
          have list := Takes.separated (solid_of rfl) first later
            (fun _ => headIn_cons List.mem_cons_self _) ends
          have body : Takes dslLayout DslRule.returnClause.body _ _ _ :=
            list.token_cons (solid_of rfl)
          apply (Takes.rule rfl rfl body).imp
          rintro pairs ⟨text, _, rfl, rounds, rfl, walked⟩
          exact ⟨text, _, rfl, mapM_of_walked walked⟩

/-- The direction may be left out only where no other token of a direction
comes. -/
theorem takes_sortDirection {direction : SortDirection} {ts : List Token}
    (tokens : DirectionTokens direction ts) :
    Takes dslLayout (.optional (.rule .sortDirection)) ts (HeadIn [tok "LIMIT"])
      fun pairs => parseSortDirection pairs.head? = .ok direction := by
  have spelled (t : String) (found : ["ASC", "DESC"].find?
      (fun option => option.toList.isPrefixOf t.toList) = some t)
      (solid : ((tok t).head?.any fun c => !opensGap c) = true) :
      Takes dslLayout (.optional (.rule .sortDirection)) [tok t] (HeadIn [tok "LIMIT"])
        (· = [.node .sortDirection (tok t) []]) :=
    ((Takes.spelling rfl rfl found (by decide) solid).before fun _ _ => trivial).present
  cases direction with
  | asc =>
      cases tokens with
      | inl none =>
          subst none
          have absent : Takes dslLayout (.optional (.rule .sortDirection)) []
              (HeadIn [tok "LIMIT"]) (· = []) :=
            .absent fun rest head => .rule rfl
              (.choice (refuses_tok head (by decide)) (refuses_tok head (by decide)))
          apply absent.imp
          rintro _ rfl
          rfl
      | inr some =>
          subst some
          apply (spelled "ASC" (by decide) (by decide)).imp
          rintro _ rfl
          rfl
  | desc =>
      cases tokens
      apply (spelled "DESC" (by decide) (by decide)).imp
      rintro _ rfl
      rfl

/-- An `ORDER BY` clause is taken, also where it is left out. -/
theorem takes_orderByClause {orderBy : Option OrderBy} {ts : List Token}
    (idents : ∀ order ∈ orderBy, isIdent order.aliasName = true ∧
      isIdent order.property = true) (tokens : OrderTokens orderBy ts) :
    Takes dslLayout (.optional (.rule .orderByClause)) ts (HeadIn [tok "LIMIT"])
      (WalkedOr none .orderByClause
        (fun clause => (parseOrderByClause clause).map some) orderBy) := by
  cases orderBy with
  | none =>
      cases tokens
      exact takes_absent rfl rfl (by decide)
  | some orderBy =>
      obtain ⟨direction, spelled, rfl⟩ := tokens
      obtain ⟨ident, ident'⟩ := idents orderBy rfl
      have body : Takes dslLayout DslRule.orderByClause.body
          (tok "ORDER" :: tok "BY" :: ([tok orderBy.aliasName] ++
          (tok "." :: ([tok orderBy.property] ++ direction)))) (HeadIn [tok "LIMIT"])
          (Both (· = [.node .ident (tok orderBy.aliasName) []])
            (Both (· = [.node .ident (tok orderBy.property) []]) _)) :=
        .token_cons (solid_of rfl) (.token_cons (solid_of rfl)
          (.cons (takes_ident ident) (.token_cons (solid_of rfl)
          (.append (takes_ident ident') (takes_sortDirection spelled) fun _ _ =>
            trivial)) fun _ _ => trivial))
      apply (Takes.rule rfl rfl body).present.imp
      rintro pairs ⟨text, _, rfl, _, _, rfl, rfl, _, sorted, rfl, rfl, walks⟩
      refine .inr ⟨text, _, rfl, ?_⟩
      have walk : parseOrderByClause (.node .orderByClause text
          (.node .ident (tok orderBy.aliasName) [] ::
            .node .ident (tok orderBy.property) [] :: sorted)) =
            (parseSortDirection sorted[0]?).bind fun direction =>
              .ok { aliasName :=
                      (Pair.node DslRule.ident (tok orderBy.aliasName) []).asStr
                    property := (Pair.node DslRule.ident (tok orderBy.property) []).asStr
                    direction := direction } := rfl
      beta_reduce
      rw [List.singleton_append, List.singleton_append, walk,
        ← List.head?_eq_getElem?, walks, asStr_tok, asStr_tok]
      rfl

/-- A `LIMIT` clause is taken, also where it is left out. -/
theorem takes_limitClause {limit : Option Nat} {ts : List Token}
    (fits : ∀ count ∈ limit, count < 2 ^ 64) (tokens : LimitTokens limit ts) :
    Takes dslLayout (.optional (.rule .limitClause)) ts (HeadIn [])
      (WalkedOr none .limitClause
        (fun clause => (parseLimitClause clause).map some) limit) := by
  cases limit with
  | none =>
      cases tokens
      exact takes_absent rfl rfl (by decide)
  | some limit =>
      obtain ⟨t, number, rfl⟩ := tokens
      have body : Takes dslLayout DslRule.limitClause.body [tok "LIMIT", t] Anything
          (· = [.node .number t []]) :=
        .token_cons (solid_of rfl) (takes_number number.1)
      apply ((Takes.rule rfl rfl body).before fun _ _ => trivial).present.imp
      rintro pairs ⟨text, _, rfl, rfl⟩
      refine .inr ⟨text, _, rfl, ?_⟩
      have walk : parseLimitClause (.node .limitClause text [.node .number t []]) =
          parseNumber 64 (.node .number t []) := rfl
      beta_reduce
      rw [walk, parseNumber_token number (fits limit rfl)]
      rfl

/-! ### Queries -/

theorem headIn_orderTokens {orderBy : Option OrderBy} {ts rest : List Token}
    (tokens : OrderTokens orderBy ts) (head : HeadIn [tok "LIMIT"] rest) :
    HeadIn [tok "ORDER", tok "LIMIT"] (ts ++ rest) := by
  cases orderBy with
  | none =>
      cases tokens
      exact head.mono (List.subset_cons_self _ _)
  | some orderBy =>
      obtain ⟨direction, -, rfl⟩ := tokens
      exact headIn_cons List.mem_cons_self _

theorem headIn_limitTokens {limit : Option Nat} {ts rest : List Token}
    (tokens : LimitTokens limit ts) (head : HeadIn [] rest) :
    HeadIn [tok "LIMIT"] (ts ++ rest) := by
  cases limit with
  | none =>
      cases tokens
      exact head.mono (List.nil_subset _)
  | some limit =>
      obtain ⟨t, -, rfl⟩ := tokens
      exact headIn_cons List.mem_cons_self _

/-- What a query's pair contains. -/
def QueryChildren (query : Query) : List (Pair DslRule) → Prop :=
  Both (Walked .pattern parsePattern query.pattern)
    (Both (WalkedOr [] .whereClause parseWhereClause query.whereConditions)
      (Both (Walked .returnClause parseReturnClause query.returns)
        (Both (WalkedOr none .orderByClause
            (fun clause => (parseOrderByClause clause).map some) query.orderBy)
          (Both (WalkedOr none .limitClause
              (fun clause => (parseLimitClause clause).map some) query.limit)
            (· = [.node .endOfInput [] []])))))

/-- A query is parsed from its tokens, after the start of the input. -/
theorem takes_query {query : Query} {ts : List Token} (writable : query.Writable)
    (tokens : QueryTokens query ts) :
    Takes dslLayout (.sequence [.token "MATCH", .rule .pattern,
        .optional (.rule .whereClause), .rule .returnClause,
      .optional (.rule .orderByClause), .optional (.rule .limitClause),
        .rule .endOfInput]) ts (HeadIn [])
      (QueryChildren query) := by
  obtain ⟨patternTokens, parts, order, limit, chain, each, ordered, limited, rfl⟩ :=
    tokens
  have ends : Takes dslLayout (.rule .endOfInput) [] (HeadIn []) _ := .endOfInput rfl rfl
  have limit' := (takes_limitClause writable.limit limited).append ends fun _ head => head
  rw [List.append_nil] at limit'
  have order' :=
    (takes_orderByClause writable.orderBy ordered).append limit' fun _ head =>
    headIn_limitTokens limited head
  have orderNext (rest : List Token) (head : HeadIn [] rest) :
      HeadIn [tok "ORDER", tok "LIMIT"] (order ++ limit ++ rest) := by
    rw [List.append_assoc]
    exact headIn_orderTokens ordered (headIn_limitTokens limited head)
  have returns' :=
    (takes_returnClause writable.returnsSome writable.returns).append order' orderNext
  have clause' := (takes_whereClause (takes_each writable.conditions each)).append
    returns' fun _ _ =>
    headIn_cons List.mem_cons_self _
  have path : Takes dslLayout (.rule .pattern) patternTokens
      (HeadIn (tok "WHERE" :: clauseEnds)) _ :=
    takes_pattern writable.pattern chain (by decide) (by decide)
  have pathNext (rest : List Token) (_ : HeadIn [] rest) :
      HeadIn (tok "WHERE" :: clauseEnds)
      (whereTokens parts ++ (tok "RETURN" :: sepBy ","
          (query.returns.map returnTokens) ++ (order ++ limit)) ++ rest) := by
    rw [List.append_assoc]
    exact headIn_whereTokens parts (headIn_cons List.mem_cons_self _)
  have path' := path.append clause' pathNext
  exact .token_cons (solid_of rfl) path'

/-- The clauses of a query are put together. -/
theorem parseQuery_of_children {query : Query} {text : List Char}
    {children : List (Pair DslRule)} (parsed : QueryChildren query children) :
    parseQuery (.node .query text children) = .ok query := by
  have parts : children.foldlM addQueryPart
      { pattern := none, whereConditions := [], returns := [], orderBy := none,
        limit := none } =
        .ok { pattern := some query.pattern, whereConditions := query.whereConditions,
              returns := query.returns,
              orderBy := query.orderBy, limit := query.limit } := by
    apply parsed.foldlM
    · intro front walked
      exact walked.foldlM (f := fun pattern =>
        QueryParts.mk (some pattern) [] [] none none) fun _ _ => rfl
    intro later parsed
    apply parsed.foldlM
    · intro front walked
      exact walked.foldlM (f := fun conditions =>
        QueryParts.mk (some query.pattern) conditions [] none none)
        fun _ _ => rfl
    intro later parsed
    apply parsed.foldlM
    · intro front walked
      exact walked.foldlM
        (f := fun returns => QueryParts.mk
          (some query.pattern) query.whereConditions returns none none) fun _ _ => rfl
    intro later parsed
    apply parsed.foldlM
    · intro front walked
      exact walked.foldlM_some
        (f := fun orderBy => QueryParts.mk
          (some query.pattern) query.whereConditions query.returns orderBy none)
        fun _ _ => rfl
    intro later parsed
    apply parsed.foldlM
    · intro front walked
      exact walked.foldlM_some
        (f := fun limit => QueryParts.mk (some query.pattern) query.whereConditions
          query.returns query.orderBy limit)
        fun _ _ => rfl
    · rintro _ rfl
      rfl
  have walk : parseQuery (.node .query text children) =
      (children.foldlM addQueryPart
        { pattern := none, whereConditions := [], returns := [], orderBy := none,
          limit := none }).bind fun parts =>
          (expect "grammar requires a pattern after MATCH" parts.pattern).bind
            fun pattern =>
            .ok { pattern := pattern, whereConditions := parts.whereConditions,
                  returns := parts.returns,
                  orderBy := parts.orderBy, limit := parts.limit } := rfl
  rw [walk, parts]
  rfl

/-- Every text of a query is parsed to that query.

* `writable`: the query is one the grammar can spell, with names that are names
  and numbers that fit; keywords are names too;
* `tokens`: these are its tokens, in any of the spellings that a literal or a
  default has;
* `laidOut`: the text has them in order, with white space and comments between
  any two of them, and none needed where they cannot run together. -/
theorem parse_laidOut {query : Query} {ts : List Token} {source : String}
    (report : String → Nat × String) (writable : query.Writable)
    (tokens : QueryTokens query ts) (laidOut : LaidOut ts source.toList) :
    PestParser.parse report source = .ok (.ok query) := by
  have takes := takes_query writable tokens
  obtain ⟨before, rest, same, blank, spaced⟩ := laidOut
  have gap : before = [] ∨ Gap before := or_iff_not_imp_left.mpr fun nonempty =>
    ⟨nonempty, blank⟩
  have ahead : dslLayout.Ahead ts source.toList :=
    ⟨before, rest, same, gap, takes.solid, spaced⟩
  obtain ⟨text, skipped, starts⟩ := ahead.skip source.toList.length
  rw [← List.append_nil ts] at starts
  obtain ⟨children, text', yields, -, parsed⟩ :=
    takes.takes source.toList.length [] text nofun starts
  have body : Yields dslGrammar source.toList.length (dslGrammar.atomic .query)
      (dslGrammar.body .query) source.toList
      (some (children, text')) := .seq .startOfInput (.seq skipped yields)
  obtain ⟨taken, matched⟩ := Yields.exists_rule rfl body
  have outcome := matched.unique ⟨_, dslParse_run .query source.toList⟩
  have walk : PestParser.parse report source =
      (parseQuery (.node .query taken children)).bind fun query => .ok (.ok query) := by
    rw [PestParser.parse, ← outcome]
    rfl
  rw [walk, parseQuery_of_children parsed]
  rfl

/-- A query whose names are keywords and literals. -/
def keywordQuery : Query where
  pattern := { steps :=
    [.node { aliasName := "NOT", label := none,
             propertyFilters :=
               [{ property := "true", op := .eq, value := .bool true }] },
     .edge { aliasName := some "WHERE", edgeType := none, direction := .outgoing,
             hops := { min := 1, max := 1 } },
     .node { aliasName := "b", label := none, propertyFilters := [] }] }
  whereConditions :=
    [.notExists (.mk
      { steps := [.node { aliasName := "a", label := none, propertyFilters := [] }] } []),
     .property "NOT" { property := "EXISTS", op := .eq, value := .bool true }]
  returns := [{ aliasName := "AND", property := some "NOT" }]
  orderBy := none
  limit := none

/-- A query may use keywords for names. -/
theorem keywordQuery_writable : keywordQuery.Writable := by
  have plain {name : String} (ident : isIdent name = true) :
      NodePattern.Writable
        { aliasName := name, label := none, propertyFilters := [] } :=
    ⟨ident, nofun, nofun⟩
  have alone : Pattern.Writable
      { steps := [.node { aliasName := "a", label := none, propertyFilters := [] }] } := by
    refine ⟨.single _, fun node member => ?_, fun edge member => ?_⟩
    · cases List.mem_singleton.mp member
      exact plain (by decide)
    · cases List.mem_singleton.mp member
  have path : keywordQuery.pattern.Writable := by
    refine ⟨.step _ _ (.single _), fun node member => ?_, fun edge member => ?_⟩
    · simp only [keywordQuery, List.mem_cons, PatternStep.node.injEq, reduceCtorEq,
        List.not_mem_nil, or_false, false_or] at member
      rcases member with rfl | rfl
      · refine ⟨by decide, nofun, fun filter member => ?_⟩
        cases List.mem_singleton.mp member
        exact ⟨by decide, trivial⟩
      · exact plain (by decide)
    · simp only [keywordQuery, List.mem_cons, PatternStep.edge.injEq, reduceCtorEq,
        List.not_mem_nil, or_false, false_or] at member
      subst member
      refine ⟨?_, nofun, by decide, by decide⟩
      rintro _ ⟨⟩
      decide
  refine ⟨path, ⟨⟨alone, trivial⟩, ⟨by decide, by decide, trivial⟩, trivial⟩, nofun,
    ?_, nofun, nofun⟩
  intro item member
  cases List.mem_singleton.mp member
  refine ⟨by decide, ?_⟩
  rintro _ ⟨⟩
  decide

/-- The tokens of that query. -/
def keywordTokens : List Token :=
  ["MATCH", "(", "NOT", "\x7b", "true", ":", "true", "\x7d", ")", "-", "[", "WHERE",
    "]", "->", "(", "b", ")", "WHERE",
   "NOT", "EXISTS", "\x7b", "MATCH", "(", "a", ")", "\x7d", "AND", "NOT", ".",
     "EXISTS", "=", "true", "RETURN", "AND",
   ".", "NOT"].map tok

/-- The tokens laid out with comments and little white space. -/
def keywordText : String :=
  "MATCH // all\n( NOT \x7b true : true \x7d ) - [ WHERE ] -> ( b ) " ++
    "WHERE NOT EXISTS \x7b MATCH ( a ) \x7d AND NOT . EXISTS = true RETURN AND . NOT"

theorem keywordQuery_tokens : QueryTokens keywordQuery keywordTokens := by
  have path : PatternTokens keywordQuery.pattern _ :=
    ⟨_, .cons ⟨_, .inr ⟨_, .cons ⟨rfl, _, rfl, rfl⟩ .nil, rfl⟩, rfl⟩
      (.cons ⟨_, .inr ⟨_, .inl ⟨rfl, rfl⟩, rfl⟩, rfl⟩
        (.cons ⟨_, .inl ⟨rfl, rfl⟩, rfl⟩ .nil)), rfl⟩
  have alone : PatternTokens
      { steps := [.node { aliasName := "a", label := none, propertyFilters := [] }] }
      _ :=
    ⟨_, .cons ⟨_, .inl ⟨rfl, rfl⟩, rfl⟩ .nil, rfl⟩
  have conditions : EachTokens keywordQuery.whereConditions _ :=
    ⟨_, _, ⟨_, ⟨_, _, alone, rfl, rfl⟩, rfl⟩, ⟨_, _, ⟨_, rfl, rfl⟩, rfl, rfl⟩, rfl⟩
  exact ⟨_, _, _, _, path, conditions, rfl, rfl, rfl⟩

theorem keywordText_laidOut : LaidOut keywordTokens keywordText.toList := by
  have remark : Blank ('/' :: '/' :: ([' ', 'a', 'l', 'l'] ++ '\n' :: [])) :=
    .comment (by decide) .none
  have gap : Gap (' ' :: '/' :: '/' :: ([' ', 'a', 'l', 'l'] ++ '\n' :: [])) :=
    ⟨List.cons_ne_nil _ _, .space rfl remark⟩
  have space : Gap [' '] := ⟨List.cons_ne_nil _ _, .space rfl .none⟩
  have text : keywordText.toList = tok "MATCH" ++
      (' ' :: '/' :: '/' :: ([' ', 'a', 'l', 'l'] ++ '\n' :: []) ++
        [' '].intercalate keywordTokens.tail) := by
    decide +kernel
  exact ⟨[], _, text, .none, _, _, rfl, .inl gap,
    spaced_intercalate space keywordTokens.tail⟩

/-- Keywords and literals are names too. -/
theorem parse_keywordText :
    PestParser.parse (fun _ => (0, "")) keywordText = .ok (.ok keywordQuery) :=
  parse_laidOut _ keywordQuery_writable keywordQuery_tokens keywordText_laidOut

end GraphEngine
