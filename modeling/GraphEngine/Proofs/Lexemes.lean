/-
Module: GraphEngine.Proofs.Lexemes
Layer: Proofs
Purpose: What the grammar of the traversal language does with gaps and with
  single tokens: identifiers, numbers, operators and literals.
Trusted boundary: none
Main exports: dslLayout, takes_ident, takes_number, takes_comparisonOp,
  takes_literal
-/
import GraphEngine.Model.DslParser
import GraphEngine.Proofs.CommonSyntax

namespace GraphEngine

open Grammar (Yields Layout Takes Refuses Anything)

/-! ### Gaps -/

theorem dslTrivia : BlankTrivia dslGrammar .whitespace .comment where
  whitespaceBody := rfl
  commentBody := rfl
  triviaBody := rfl

/-- The layout of query texts. -/
def dslLayout : Layout dslGrammar where
  gap := Gap
  opens := opensGap
  opens_of_gap := opensGap_of_gap
  skips gap solid :=
    dslTrivia.skip_gap (gap.elim (fun none => none ▸ .none) And.right) solid

/-! ### Tokens of one spelling -/

theorem solid_of {t : Token} (solid : (t.head?.any fun c => !opensGap c) = true) :
    dslLayout.Solid t :=
  Layout.solid_of solid

/-- A comparison is taken in its longest spelling. -/
theorem takes_comparisonOp (op : ComparisonOp) :
    Takes dslLayout (.rule .comparisonOp) [opToken op] Anything
      (· = [.node .comparisonOp (opToken op) []]) := by
  have spelled (t : String) (found : ["<=", ">=", "<>", "=", "<", ">"].find?
      (fun option => option.toList.isPrefixOf t.toList) = some t)
      (solid : ((tok t).head?.any fun c => !opensGap c) = true) :
      Takes dslLayout (.rule .comparisonOp) [tok t] Anything
        (· = [.node .comparisonOp (tok t) []]) :=
    .spelling rfl rfl found (by decide) solid
  cases op <;> exact spelled _ (by decide) (by decide)

theorem parseComparisonOp_opToken (op : ComparisonOp) :
    DslParser.parseComparisonOp (.node .comparisonOp (opToken op) []) = .ok op := by
  cases op <;> rfl

/-! ### Identifiers and numbers -/

section Names

variable {name : String}

theorem solid_ident (ident : isIdent name = true) : dslLayout.Solid (tok name) := by
  obtain ⟨c, rest, characters, begins, -⟩ := isIdent_cons ident
  rw [characters]
  refine ⟨List.cons_ne_nil c rest, fun d head => ?_⟩
  cases head
  exact not_opensGap_of_accepted (by decide) begins

/-- A name in front of a gap ends there. -/
theorem lexes_ident (ident : isIdent name = true) (size : Nat) {after : List Char}
    (opens : ∀ c ∈ after.head?, opensGap c = true) :
    Yields dslGrammar size true DslRule.ident.body (tok name ++ after)
      (some ([], after)) := by
  obtain ⟨c, rest, characters, begins, continues⟩ := isIdent_cons ident
  rw [characters]
  have ends : ∀ d ∈ after.head?, isIdentPart d = false := fun d head =>
    refused_of_opensGap (by decide) (opens d head)
  exact .seq (.char begins _) (.many_char continues ends)

/-- A name is taken to its end. -/
theorem takes_ident (ident : isIdent name = true) :
    Takes dslLayout (.rule .ident) [tok name] Anything
      (· = [.node .ident (tok name) []]) :=
  .lexeme rfl (solid_ident ident) fun size _ opens => lexes_ident ident size opens

/-- The alias of an edge is taken to its end. -/
theorem takes_edgeAlias (ident : isIdent name = true) :
    Takes dslLayout (.rule .edgeAlias) [tok name] Anything
      (· = [.node .edgeAlias (tok name) []]) :=
  .lexeme rfl (solid_ident ident) fun size _ opens =>
    .rule_silent rfl (lexes_ident ident size opens)

end Names

section Numerals

variable {t : Token}

theorem solid_number (numeral : isNumeral t = true) : dslLayout.Solid t := by
  obtain ⟨c, rest, rfl, digit⟩ := head_of_isNumeral numeral
  refine ⟨List.cons_ne_nil c rest, fun d head => ?_⟩
  cases head
  exact not_opensGap_of_accepted (by decide) digit

/-- Digits in front of a gap end there. -/
theorem lexes_digits (numeral : isNumeral t = true) (size : Nat) {after : List Char}
    (opens : ∀ c ∈ after.head?, opensGap c = true) :
    Yields dslGrammar size true (.atLeastOnce (.char Char.isDigit)) (t ++ after)
      (some ([], after)) :=
  .atLeastOnce_char (isNumeral_iff.mp numeral).2
    (isNumeral_iff.mp numeral).1 fun c head =>
    refused_of_opensGap (by decide) (opens c head)

/-- A numeral is taken to its end. -/
theorem takes_number (numeral : isNumeral t = true) :
    Takes dslLayout (.rule .number) [t] Anything (· = [.node .number t []]) :=
  .lexeme rfl (solid_number numeral) fun size _ opens => lexes_digits numeral size opens

/-- A number in range is read as its value. -/
theorem parseNumber_token {value bits : Nat} (number : NumberToken value t)
    (fits : value < 2 ^ bits) :
    DslParser.parseNumber bits (.node .number t []) = .ok value := by
  rw [DslParser.parseNumber, Pair.text, parseUnsigned_token number fits]
  rfl

end Numerals

/-! ### Literals -/

/-- One pair of a rule, from which the walk over the tree reads a value. -/
def Walked {α : Type} (rule : DslRule) (walk : Pair DslRule → Except PanicMessage α)
    (a : α) (pairs : List (Pair DslRule)) : Prop :=
  ∃ text children, pairs = [.node rule text children] ∧
    walk (.node rule text children) = .ok a

section Refused

variable {ts : List Token}

theorem not_prefix_of_head {text : List Char} {c : Char}
    (head : ∀ d ∈ text.head?, d ≠ c) : ¬ [c] <+: text := by
  rintro ⟨after, rfl⟩
  exact head c rfl rfl

theorem refuses_stringLiteral (head : ∀ t ∈ ts.head?, ∀ c ∈ t.head?, c ≠ '"') :
    Refuses dslLayout (.rule .stringLiteral) ts :=
  fun _ _ starts =>
    .rule_none (.seq_none (.literal_none (not_prefix_of_head (starts.head head))))

/-- A number begins with a sign or a digit. -/
theorem refuses_numbers
    (head : ∀ t ∈ ts.head?, ∀ c ∈ t.head?, c ≠ '-' ∧ c.isDigit = false) :
    Refuses dslLayout (.rule .floatLiteral) ts ∧
      Refuses dslLayout (.rule .intLiteral) ts := by
  have parts {size : Nat} {text : List Char} (starts : dslLayout.Starts ts text) :
      Yields dslGrammar size true (.optional (.token "-")) text (some ([], text)) ∧
        Yields dslGrammar size true (.atLeastOnce (.char Char.isDigit)) text none := by
    have first := starts.head head
    constructor
    · exact .optional_absent
        (.literal_none (not_prefix_of_head fun c member => (first c member).1))
    · exact .seq_none (.char_none fun c member => (first c member).2)
  constructor
  · intro size text starts
    exact .rule_none (.seq_none_later (parts starts).1 (.seq_none (parts starts).2))
  · intro size text starts
    exact .rule_none (.seq_none_later (parts starts).1 (parts starts).2)

end Refused

section Integers

variable {value : Int} {t : Token}

/-- The sign of an integer is optional. -/
theorem sign_of_intToken (token : IntToken value t) :
    ∃ digits, isNumeral digits = true ∧
    ∀ size isAtomic after,
      Yields dslGrammar size isAtomic (.optional (.token "-")) (t ++ after)
      (some ([], digits ++ after)) := by
  obtain ⟨digits, numeral, ⟨rfl, -⟩ | ⟨rfl, -⟩⟩ := token
  · refine ⟨t, numeral, fun size isAtomic after => .optional_absent (.literal_none ?_)⟩
    obtain ⟨c, rest, rfl, digit⟩ := head_of_isNumeral numeral
    apply not_prefix_of_head
    rintro _ ⟨⟩ rfl
    cases digit
  · exact ⟨digits, numeral, fun size isAtomic after => .optional (.literal ['-'] _)⟩

/-- A whole number does not begin like a gap. -/
theorem solid_int (token : IntToken value t) : dslLayout.Solid t := by
  obtain ⟨digits, numeral, ⟨rfl, -⟩ | ⟨rfl, -⟩⟩ := token
  · exact solid_number numeral
  · exact solid_of rfl

/-- A whole number is taken with its sign. -/
theorem takes_intLiteral (token : IntToken value t) :
    Takes dslLayout (.rule .intLiteral) [t] Anything (· = [.node .intLiteral t []]) := by
  obtain ⟨digits, numeral, sign⟩ := sign_of_intToken token
  exact .lexeme rfl (solid_int token) fun size after opens =>
    .seq (sign size true after) (lexes_digits numeral size opens)

/-- An integer has no point. -/
theorem refuses_floatLiteral (token : IntToken value t) (rest : List Token) :
    Refuses dslLayout (.rule .floatLiteral) (t :: rest) := by
  intro size text starts
  obtain ⟨digits, numeral, sign⟩ := sign_of_intToken token
  obtain ⟨after, rfl, opens, -⟩ := starts.cons
  have noPoint : Yields dslGrammar size true (.token ".") after none := by
    apply Yields.literal_none
    apply not_prefix_of_head
    rintro _ head rfl
    cases opens _ head
  exact .rule_none (.seq_none_later (sign size true after)
    (.seq_none_later (lexes_digits numeral size opens) (.seq_none noPoint)))

theorem head_of_intToken (token : IntToken value t) : ∀ c ∈ t.head?, c ≠ '"' := by
  obtain ⟨digits, numeral, ⟨rfl, -⟩ | ⟨rfl, -⟩⟩ := token
  · obtain ⟨c, rest, rfl, digit⟩ := head_of_isNumeral numeral
    rintro _ ⟨⟩ rfl
    cases digit
  · rintro _ ⟨⟩
    decide

/-- The spelling of a whole number that fits is read back. -/
theorem parseSigned_token (token : IntToken value t)
    (fits : -2 ^ 63 ≤ value ∧ value < 2 ^ 63) : parseSigned 64 t = some value := by
  obtain ⟨digits, numeral, ⟨rfl, rfl⟩ | ⟨rfl, rfl⟩⟩ := token
  · obtain ⟨c, rest, rfl, digit⟩ := head_of_isNumeral numeral
    have notMinus : ¬ (c :: rest).head? = some '-' := by
      rintro ⟨⟩
      cases digit
    have notPlus : ¬ (c :: rest).head? = some '+' := by
      rintro ⟨⟩
      cases digit
    simp only [parseSigned, notMinus, notPlus, or_self, if_false]
    exact if_pos ⟨numeral, fits⟩
  · simp only [parseSigned, List.head?_cons, true_or, if_true, List.tail_cons]
    exact if_pos ⟨numeral, fits⟩

end Integers

/-- A text is taken to its closing quote. -/
theorem takes_stringLiteral {value : String} (noQuote : '"' ∉ value.toList) :
    Takes dslLayout (.rule .stringLiteral) ['"' :: (value.toList ++ ['"'])] Anything
      (· = [.node .stringLiteral ('"' :: (value.toList ++ ['"'])) []]) := by
  apply Takes.lexeme rfl (solid_of rfl)
  intro size after _
  have same : '"' :: (value.toList ++ ['"']) ++ after = ['"'] ++
      (value.toList ++ (['"'] ++ after)) := by simp
  rw [same]
  exact .seq (.literal ['"'] _) (.seq (.many_until noQuote rfl) (.literal ['"'] _))

/-- `true` and `false` are taken. -/
theorem takes_boolLiteral (value : Bool) :
    Takes dslLayout (.rule .boolLiteral)
      [tok (if value then "true" else "false")] Anything
      (· = [.node .boolLiteral (tok (if value then "true" else "false")) []]) := by
  have spelled (t : String) (found : ["true", "false"].find?
      (fun option => option.toList.isPrefixOf t.toList) = some t)
      (solid : ((tok t).head?.any fun c => !opensGap c) = true) :
      Takes dslLayout (.rule .boolLiteral) [tok t] Anything
        (· = [.node .boolLiteral (tok t) []]) :=
    .spelling rfl rfl found (by decide) solid
  cases value <;> exact spelled _ (by decide) (by decide)

/-- A literal is read as the kind that it is spelled as. -/
theorem takes_literal {value : Literal} {t : Token} (writable : value.Writable)
    (token : LiteralToken value t) :
    Takes dslLayout (.rule .literal) [t] Anything
      (Walked .literal DslParser.parseLiteral value) := by
  cases value with
  | float64 => cases writable
  | string value =>
      cases token
      apply (Takes.rule rfl rfl (.choice_first (takes_stringLiteral writable))).imp
      rintro pairs ⟨text, children, rfl, rfl⟩
      refine ⟨text, _, rfl, ?_⟩
      have walk : DslParser.parseLiteral
          (.node .literal text
            [.node .stringLiteral ('"' :: (value.toList ++ ['"'])) []]) =
            (DslParser.unquote ('"' :: (value.toList ++ ['"']))).map .string := rfl
      have long : 2 ≤ ('"' :: (value.toList ++ ['"'])).length := by simp
      rw [walk, DslParser.unquote, if_pos long, List.drop_one, List.tail_cons,
        List.dropLast_concat, String.ofList_toList]
      rfl
  | int64 value =>
      have noString (rest : List Token) : Refuses dslLayout (.rule .stringLiteral)
          (t :: rest) := by
        apply refuses_stringLiteral
        rintro _ ⟨⟩
        exact head_of_intToken token
      have alternatives : Takes dslLayout DslRule.literal.body [t] Anything
          (· = [.node .intLiteral t []]) :=
        .choice_second (fun rest _ => noString rest)
          (.choice_second (fun rest _ => refuses_floatLiteral token rest)
            (.choice_first (takes_intLiteral token)))
      apply (Takes.rule rfl rfl alternatives).imp
      rintro pairs ⟨text, children, rfl, rfl⟩
      refine ⟨text, _, rfl, ?_⟩
      have walk : DslParser.parseLiteral (.node .literal text [.node .intLiteral t []]) =
          (expect "int_literal only matches valid integers"
            (parseSigned 64 t)).map .int64 := rfl
      rw [walk, parseSigned_token token writable]
      rfl
  | bool value =>
      cases token
      have head (rest : List Token) :
          ∀ t ∈ (tok (if value then "true" else "false") :: rest).head?,
          ∀ c ∈ t.head?,
          c ≠ '"' ∧ c ≠ '-' ∧ c.isDigit = false := by
        rintro _ ⟨⟩
        cases value <;> (rintro _ ⟨⟩; decide)
      have noString (rest : List Token) :=
        refuses_stringLiteral fun t next c begins => (head rest t next c begins).1
      have noNumber (rest : List Token) := refuses_numbers fun t next c begins =>
        (head rest t next c begins).2
      have alternatives : Takes dslLayout DslRule.literal.body
          [tok (if value then "true" else "false")] Anything
          (· = [.node .boolLiteral (tok (if value then "true" else "false")) []]) :=
        .choice_second (fun rest _ => noString rest)
          (.choice_second (fun rest _ => (noNumber rest).1)
            (.choice_second (fun rest _ => (noNumber rest).2) (takes_boolLiteral value)))
      apply (Takes.rule rfl rfl alternatives).imp
      rintro pairs ⟨text, children, rfl, rfl⟩
      refine ⟨text, _, rfl, ?_⟩
      cases value <;> rfl

end GraphEngine
