/-
Module: GraphEngine.Model.DslGrammar
Layer: Model
Purpose: The grammar of the traversal language, rule by rule as in `dsl.pest`.
Trusted boundary: none
Main exports: DslRule, dslGrammar, dslParse, dslParse_run
-/
import GraphEngine.Lib.PegTrees

namespace GraphEngine

/-- The rules of `dsl.pest`, under its names; `skip` is the trivia between
tokens. -/
inductive DslRule where
  | query | pattern | nodePattern | propertyMap | propertyKv | edgePattern
  | outgoingEdge | incomingEdge | edgeDetail | edgeAlias | hopRange | whereClause
  | whereCondition | propertyCondition | propertyPropertyComparison | aliasComparison
  | notExistsClause | comparisonOp | returnClause | returnItem | orderByClause
  | sortDirection | limitClause | literal | stringLiteral | floatLiteral | intLiteral
  | boolLiteral | ident | number | whitespace | comment | endOfInput | skip
deriving DecidableEq, Repr

namespace DslRule

open Peg (token sequence choices star atLeastOnce)

/-- Any character up to the first `stop`. -/
def untilChar (stop : Char) : Peg DslRule :=
  .many (.seq (.notAhead (.literal [stop])) (.char fun _ => true))

/-- The right-hand side of every rule. -/
def body : DslRule → Peg DslRule
  | query =>
      sequence [.startOfInput, token "MATCH", .rule pattern,
        .optional (.rule whereClause),
        .rule returnClause, .optional (.rule orderByClause),
          .optional (.rule limitClause), .rule endOfInput]
  | pattern =>
      sequence [.rule nodePattern, star (sequence [.rule edgePattern, .rule nodePattern])]
  | nodePattern =>
      sequence [token "(", .rule ident, .optional (sequence [token ":", .rule ident]),
        .optional (.rule propertyMap), token ")"]
  | propertyMap =>
      sequence [token "\x7b",
        .optional (sequence [.rule propertyKv,
            star (sequence [token ",", .rule propertyKv])]), token "\x7d"]
  | propertyKv => sequence [.rule ident, token ":", .rule literal]
  | edgePattern => choices [.rule outgoingEdge, .rule incomingEdge]
  | outgoingEdge => sequence [token "-", .optional (.rule edgeDetail), token "->"]
  | incomingEdge => sequence [token "<-", .optional (.rule edgeDetail), token "-"]
  | edgeDetail =>
      sequence [token "[", .optional (.rule edgeAlias),
        .optional (sequence [token ":", .rule ident]),
        .optional (.rule hopRange), token "]"]
  | edgeAlias => .rule ident
  | hopRange => sequence [token "*", .rule number, token "..", .rule number]
  | whereClause =>
      sequence [token "WHERE", .rule whereCondition,
        star (sequence [token "AND", .rule whereCondition])]
  | whereCondition =>
      choices [.rule notExistsClause, .rule propertyPropertyComparison,
        .rule propertyCondition,
        .rule aliasComparison]
  | propertyCondition =>
      sequence [.rule ident, token ".", .rule ident, .rule comparisonOp, .rule literal]
  | propertyPropertyComparison =>
      sequence [.rule ident, token ".", .rule ident, .rule comparisonOp, .rule ident,
        token ".", .rule ident]
  | aliasComparison => sequence [.rule ident, .rule comparisonOp, .rule ident]
  | notExistsClause =>
      sequence [token "NOT", token "EXISTS", token "\x7b", token "MATCH", .rule pattern,
        .optional (.rule whereClause), token "\x7d"]
  | comparisonOp =>
      choices [token "<=", token ">=", token "<>", token "=", token "<", token ">"]
  | returnClause =>
      sequence [token "RETURN", .rule returnItem,
        star (sequence [token ",", .rule returnItem])]
  | returnItem => sequence [.rule ident, .optional (sequence [token ".", .rule ident])]
  | orderByClause =>
      sequence [token "ORDER", token "BY", .rule ident, token ".", .rule ident,
        .optional (.rule sortDirection)]
  | sortDirection => choices [token "ASC", token "DESC"]
  | limitClause => sequence [token "LIMIT", .rule number]
  | literal =>
      choices [.rule stringLiteral, .rule floatLiteral, .rule intLiteral,
        .rule boolLiteral]
  | stringLiteral => .seq (token "\"") (.seq (untilChar '"') (token "\""))
  | floatLiteral =>
      .seq (.optional (token "-"))
        (.seq (atLeastOnce (.char Char.isDigit))
          (.seq (token ".") (atLeastOnce (.char Char.isDigit))))
  | intLiteral => .seq (.optional (token "-")) (atLeastOnce (.char Char.isDigit))
  | boolLiteral => choices [token "true", token "false"]
  | ident =>
      .seq (.char fun c => c.isAlpha || c == '_')
        (.many (.char fun c => c.isAlphanum || c == '_'))
  | number => atLeastOnce (.char Char.isDigit)
  | whitespace => .char fun c => c == ' ' || c == '\t' || c == '\n' || c == '\r'
  | comment => .seq (token "//") (untilChar '\n')
  | endOfInput => .endOfInput
  -- what pest matches between tokens when a grammar defines both kinds of trivia
  | skip =>
      .seq (.many (.rule whitespace))
        (.many (.seq (.rule comment) (.many (.rule whitespace))))

/-- `_{ ... }`. -/
def silent : DslRule → Bool
  | whitespace | comment | skip => true
  | _ => false

/-- `@{ ... }`, and the trivia itself. -/
def atomic : DslRule → Bool
  | edgeAlias | stringLiteral | floatLiteral | intLiteral | ident | number
  | whitespace | comment | skip => true
  | _ => false

/-! ### Termination -/

/-- Rules that take at least one character. -/
def solid : DslRule → Bool
  | endOfInput | skip => false
  | _ => true

/-- A rule enters only rules of a lower rank before it takes a character. -/
def rank : DslRule → Nat
  | whitespace | comment | endOfInput => 0
  | skip => 1
  | whereCondition => 4
  | query | edgePattern | propertyKv | returnItem | propertyCondition
  | propertyPropertyComparison | aliasComparison | literal | pattern | edgeAlias => 3
  | _ => 2

end DslRule

/-- `DslGrammar`. -/
def dslGrammar : Grammar DslRule where
  body := DslRule.body
  silent := DslRule.silent
  atomic := DslRule.atomic
  trivia := .skip

/-- The ranks witness that no rule comes back to itself before it takes a
character, so that a match of every text ends. -/
theorem dslGrammar_ranked : dslGrammar.Ranked DslRule.solid DslRule.rank 5 64 where
  consumes name := by cases name <;> decide
  progressive name := by cases name <;> decide
  leftBelow name := by cases name <;> decide
  below name := by cases name <;> decide
  depth_le name := by cases name <;> decide

/-- `DslGrammar::parse`. -/
def dslParse (rule : DslRule) (source : List Char) : Grammar.Outcome DslRule :=
  dslGrammar.parse 5 64 rule source

/-- The grammar's interpreter ends on every text. -/
theorem dslParse_run (rule : DslRule) (source : List Char) :
    dslGrammar.run source.length (Grammar.fuelFor 5 64 source.length 5 1 + 1) false
      (.rule rule) source =
      some (dslParse rule source) :=
  Grammar.parse_run dslGrammar_ranked rule source

end GraphEngine
