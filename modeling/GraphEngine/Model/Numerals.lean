/-
Module: GraphEngine.Model.Numerals
Layer: Model
Purpose: What the parsers use of the standard library: panics, and the
  conversions from decimal text to bounded integers and floats.
Trusted boundary: the conversions follow their documentation; of the float
  notations only the one with a decimal point is modelled, no other reaches it
Main exports: PanicMessage, expect, parseUnsigned, parseSigned, parseF64
-/
import GraphEngine.Model.Storage
import Mathlib.Algebra.Group.Nat.Defs
import Mathlib.Algebra.Ring.Int.Defs

namespace GraphEngine

/-- The message of a panic. -/
abbrev PanicMessage := String

/-- `Option::expect`, and `Result::expect` without the error it appends. -/
def expect {α : Type} (message : PanicMessage) : Option α → Except PanicMessage α
  | some a => .ok a
  | none => .error message

/-! ### Integers -/

/-- The value of a digit. -/
def digitValue (c : Char) : Nat := c.toNat - '0'.toNat

/-- The number that a list of digits denotes. -/
def digitsValue (digits : List Char) : Nat :=
  digits.foldl (fun value c => 10 * value + digitValue c) 0

/-- At least one character, and nothing but digits. -/
def isNumeral (text : List Char) : Bool := !text.isEmpty && text.all Char.isDigit

/-- `str::parse` to an unsigned integer of `bits` bits. -/
def parseUnsigned (bits : Nat) (text : List Char) : Option Nat :=
  let digits := if text.head? = some '+' then text.tail else text
  if isNumeral digits ∧
    digitsValue digits < 2 ^ bits then some (digitsValue digits) else none

/-- `str::parse` to a signed integer of `bits` bits. -/
def parseSigned (bits : Nat) (text : List Char) : Option Int :=
  let negative := text.head? = some '-'
  let digits := if negative ∨ text.head? = some '+' then text.tail else text
  let value : Int := if negative then -digitsValue digits else digitsValue digits
  if isNumeral digits ∧ -2 ^ (bits - 1) ≤ value ∧
    value < 2 ^ (bits - 1) then some value else none

/-! ### Floats -/

namespace F64

/-- The quotient, rounded to the nearest integer, ties to even. -/
def roundDiv (numerator denominator : Nat) : Nat :=
  let quotient := numerator / denominator
  let remainder := numerator % denominator
  if 2 * remainder < denominator then quotient
  else if denominator < 2 * remainder then quotient + 1
  else quotient + quotient % 2

/-- The magnitude of the float nearest to `numerator / denominator`: the
fraction is rounded at the place of the last bit that fits, and a carry runs on
into the exponent. -/
def magnitudeOfRatio (numerator denominator : Nat) : Nat :=
  -- `place` is the weight's exponent of the last bit, above that of the least
  -- subnormal
  let leading : Int := (Nat.log2 numerator : Int) - Nat.log2 denominator
  let atLeast : Bool :=
    if 0 ≤ leading then decide (denominator * 2 ^ leading.toNat ≤ numerator)
    else decide (denominator ≤ numerator * 2 ^ (-leading).toNat)
  let exponent : Int := if atLeast then leading else leading - 1
  let place : Nat := (exponent - 52 + 1074).toNat
  let fraction :=
    if 1074 ≤ place then roundDiv numerator (denominator * 2 ^ (place - 1074))
    else roundDiv (numerator * 2 ^ (1074 - place)) denominator
  min (place * 2 ^ 52 + fraction) 0x7FF0000000000000

/-- The float nearest to a decimal with `scale` digits after the point. -/
def ofDecimal (negative : Bool) (digits scale : Nat) : F64 :=
  let magnitude := if digits = 0 then 0 else magnitudeOfRatio digits (10 ^ scale)
  ⟨BitVec.ofNat 64 (if negative then 0x8000000000000000 + magnitude else magnitude)⟩

example : ofDecimal false 15 1 = ⟨0x3FF8000000000000⟩ := by decide +kernel

end F64

/-- `str::parse` to `f64`, of a decimal with a point. -/
def parseF64 (text : List Char) : Option F64 :=
  let negative := text.head? = some '-'
  let unsigned := if negative then text.tail else text
  let whole := unsigned.takeWhile Char.isDigit
  match unsigned.dropWhile Char.isDigit with
  | '.' :: fraction =>
      if isNumeral whole ∧ isNumeral fraction then
        some (F64.ofDecimal negative (digitsValue (whole ++ fraction)) fraction.length)
      else none
  | _ => none

end GraphEngine
