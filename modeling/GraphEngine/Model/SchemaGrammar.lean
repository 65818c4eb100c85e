/-
Module: GraphEngine.Model.SchemaGrammar
Layer: Model
Purpose: The grammar of the schema language, rule by rule as in `schema.pest`.
Trusted boundary: none
Main exports: SchemaRule, schemaGrammar, schemaParse, schemaParse_run
-/
import GraphEngine.Lib.PegTrees

namespace GraphEngine

/-- The rules of `schema.pest`, under its names; `skip` is the trivia between
tokens. -/
inductive SchemaRule where
  | schemaFile | schemaDecl | typeDecl | nodeDecl | edgeDecl | idField | fromField
  | toField | propertyDecl | indexedMarker | optionalMarker | scalarType | simpleType
  | listType | vectorType | ident | number | whitespace | comment | endOfInput | skip
deriving DecidableEq, Repr

namespace SchemaRule

open Peg (token sequence choices star atLeastOnce)

/-- The right-hand side of every rule. -/
def body : SchemaRule → Peg SchemaRule
  | schemaFile => sequence [.startOfInput, .rule schemaDecl, .rule endOfInput]
  | schemaDecl =>
      sequence [token "schema", .rule ident, token "\x7b",
        star (.rule typeDecl), token "\x7d"]
  | typeDecl => choices [.rule nodeDecl, .rule edgeDecl]
  | nodeDecl =>
      sequence [token "node", .rule ident, token "\x7b", .rule idField,
        star (.rule propertyDecl), token "\x7d"]
  | edgeDecl =>
      sequence [token "edge", .rule ident, token "\x7b", .rule fromField, .rule toField,
        star (.rule propertyDecl), token "\x7d"]
  | idField => sequence [token "id", token ":", token "NodeId"]
  | fromField => sequence [token "from", token ":", .rule ident]
  | toField => sequence [token "to", token ":", .rule ident]
  | propertyDecl =>
      sequence [.optional (.rule indexedMarker), .rule ident, token ":", .rule scalarType,
        .optional (.rule optionalMarker)]
  | indexedMarker => token "@indexed"
  | optionalMarker => token "?"
  | scalarType => choices [.rule listType, .rule vectorType, .rule simpleType]
  | simpleType =>
      choices [token "Int64", token "Float64", token "Bool", token "String",
        token "Timestamp", token "Bytes"]
  | listType => sequence [token "List", token "<", .rule scalarType, token ">"]
  | vectorType =>
      sequence [token "Vector", token "<", token "Float32", token ",",
        .rule number, token ">"]
  | ident =>
      .seq (.char fun c => c.isAlpha || c == '_')
        (.many (.char fun c => c.isAlphanum || c == '_'))
  | number => atLeastOnce (.char Char.isDigit)
  | whitespace => .char fun c => c == ' ' || c == '\t' || c == '\n' || c == '\r'
  | comment =>
      .seq (token "//") (.many (.seq (.notAhead (token "\n")) (.char fun _ => true)))
  | endOfInput => .endOfInput
  | skip =>
      .seq (.many (.rule whitespace))
        (.many (.seq (.rule comment) (.many (.rule whitespace))))

/-- `_{ ... }`. -/
def silent : SchemaRule → Bool
  | typeDecl | whitespace | comment | skip => true
  | _ => false

/-- `@{ ... }`, and the trivia itself. -/
def atomic : SchemaRule → Bool
  | ident | number | whitespace | comment | skip => true
  | _ => false

/-! ### Termination -/

/-- Rules that take at least one character. -/
def solid : SchemaRule → Bool
  | endOfInput | skip => false
  | _ => true

/-- A rule enters only rules of a lower rank before it takes a character. -/
def rank : SchemaRule → Nat
  | whitespace | comment | endOfInput => 0
  | skip => 1
  | schemaFile => 4
  | typeDecl | scalarType | propertyDecl => 3
  | _ => 2

end SchemaRule

/-- `SchemaGrammar`. -/
def schemaGrammar : Grammar SchemaRule where
  body := SchemaRule.body
  silent := SchemaRule.silent
  atomic := SchemaRule.atomic
  trivia := .skip

/-- The ranks witness that no rule comes back to itself before it takes a
character, so that a match of every text ends. -/
theorem schemaGrammar_ranked :
    schemaGrammar.Ranked SchemaRule.solid SchemaRule.rank 5 64 where
  consumes name := by cases name <;> decide
  progressive name := by cases name <;> decide
  leftBelow name := by cases name <;> decide
  below name := by cases name <;> decide
  depth_le name := by cases name <;> decide

/-- `SchemaGrammar::parse`. -/
def schemaParse (rule : SchemaRule) (source : List Char) : Grammar.Outcome SchemaRule :=
  schemaGrammar.parse 5 64 rule source

/-- The grammar's interpreter ends on every text. -/
theorem schemaParse_run (rule : SchemaRule) (source : List Char) :
    schemaGrammar.run source.length (Grammar.fuelFor 5 64 source.length 5 1 + 1) false
      (.rule rule) source =
      some (schemaParse rule source) :=
  Grammar.parse_run schemaGrammar_ranked rule source

end GraphEngine
