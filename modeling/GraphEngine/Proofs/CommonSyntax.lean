/-
Module: GraphEngine.Proofs.CommonSyntax
Layer: Proofs
Purpose: What the two grammars of the engine share: names, numerals, and the
  white space and line comments between tokens, which both skip with the same
  three rules.
Trusted boundary: none
Main exports: opensGap, isIdent_cons, head_of_isNumeral, BlankTrivia,
  BlankTrivia.skip_gap
-/
import GraphEngine.Lib.PegLexemes
import GraphEngine.Proofs.Numerals
import GraphEngine.Spec.ConcreteSyntax

namespace GraphEngine

open Grammar (Yields Layout)

/-- The characters that gaps begin with. -/
def opensGap (c : Char) : Bool := isSpace c || c == '/'

/-- A gap begins with one of the characters that open one. -/
theorem opensGap_of_gap {text : List Char} (gap : Gap text) :
    ∃ c rest, text = c :: rest ∧ opensGap c = true := by
  obtain ⟨nonempty, blank⟩ := gap
  cases blank with
  | none => exact absurd rfl nonempty
  | @space c rest white => exact ⟨c, rest, rfl, by rw [opensGap, white, Bool.true_or]⟩
  | comment => exact ⟨'/', _, rfl, rfl⟩

/-- A character that opens a gap belongs to no class of characters that has none
of these. -/
theorem refused_of_opensGap {accepts : Char → Bool}
    (refuses : ([' ', '\t', '\n', '\r', '/'].any accepts) = false) {c : Char}
    (opens : opensGap c = true) : accepts c = false := by
  simp only [List.any_cons, List.any_nil, Bool.or_false, Bool.or_eq_false_iff] at refuses
  simp only [opensGap, isSpace, Bool.or_eq_true, beq_iff_eq] at opens
  obtain ⟨space, tab, newline, carriage, slash⟩ := refuses
  rcases opens with (((rfl | rfl) | rfl) | rfl) | rfl <;> assumption

theorem not_opensGap_of_accepted {accepts : Char → Bool}
    (refuses : ([' ', '\t', '\n', '\r', '/'].any accepts) = false) {c : Char}
    (accepted : accepts c = true) : opensGap c = false := by
  cases opens : opensGap c with
  | false => rfl
  | true =>
      rw [refused_of_opensGap refuses opens] at accepted
      cases accepted

/-! ### Names and numerals -/

/-- A name is a first character and others behind it. -/
theorem isIdent_cons {name : String} (ident : isIdent name = true) :
    ∃ c rest, tok name = c :: rest ∧ isIdentStart c = true ∧
      ∀ d ∈ rest, isIdentPart d = true := by
  rw [isIdent] at ident
  split at ident
  case h_1 => cases ident
  case h_2 c rest characters =>
    rw [Bool.and_eq_true, List.all_eq_true] at ident
    exact ⟨c, rest, characters, ident⟩

/-- A numeral begins with a digit. -/
theorem head_of_isNumeral {t : Token} (numeral : isNumeral t = true) :
    ∃ c rest, t = c :: rest ∧ c.isDigit = true := by
  obtain ⟨nonempty, digits⟩ := isNumeral_iff.mp numeral
  cases t with
  | nil => exact absurd rfl nonempty
  | cons c rest => exact ⟨c, rest, rfl, digits c List.mem_cons_self⟩

/-- A number in range is read as its value. -/
theorem parseUnsigned_token {value bits : Nat} {t : Token}
    (number : NumberToken value t) (fits : value < 2 ^ bits) :
    parseUnsigned bits t = some value := by
  obtain ⟨numeral, rfl⟩ := number
  obtain ⟨c, rest, rfl, digit⟩ := head_of_isNumeral numeral
  have unsigned : (c :: rest).head? ≠ some '+' := by
    rintro ⟨⟩
    cases digit
  rw [parseUnsigned, if_neg unsigned]
  exact if_pos ⟨numeral, fits⟩

/-- Every number has a numeral. -/
theorem exists_numberToken (value : Nat) : ∃ t, NumberToken value t := by
  have digit (c : Char) (member : c ∈ Nat.toDigits 10 value) : c.isDigit = true :=
    Nat.isDigit_of_mem_toDigits (by decide) (by decide) member
  have value' : digitsValue (Nat.toDigits 10 value) = value := by
    have decimal : Nat.ofDigitChars 10 (Nat.toDigits 10 value) 0 = value :=
      Nat.ofDigitChars_ten_toDigits
    rw [Nat.ofDigitChars_eq_foldl] at decimal
    exact decimal
  exact ⟨Nat.toDigits 10 value, isNumeral_iff.mpr ⟨Nat.toDigits_ne_nil, digit⟩, value'⟩

/-- The text of an identifier rule is an identifier. -/
theorem isIdent_of_matches {ρ : Type} {g : Grammar ρ} {isAtomic : Bool}
    {text : List Char} {pairs : List (Pair ρ)}
    (matched : g.Matches isAtomic
      (.seq (.char isIdentStart) (.many (.char isIdentPart))) text pairs) :
    isIdent (String.ofList text) = true := by
  cases matched with
  | seq head tail =>
      obtain ⟨c, first, rfl⟩ := Grammar.text_of_char head
      have later := Grammar.text_of_many_char tail
      simp only [isIdent, String.toList_ofList, List.cons_append, List.nil_append,
        Bool.and_eq_true, List.all_eq_true]
      exact ⟨first, later⟩

/-! ### Tokens that are not there -/

/-- None of these tokens begins with the spelling. -/
def apartFrom (spelling : String) (others : List Token) : Bool :=
  !spelling.toList.isEmpty && (spelling.toList.all fun c => !opensGap c) &&
    others.all fun other => !spelling.toList.isPrefixOf other

/-! ### Skipping -/

/-- The rules with which a grammar skips white space and comments. -/
structure BlankTrivia {ρ : Type} (g : Grammar ρ) (whitespace comment : ρ) : Prop where
  whitespaceBody : g.body whitespace = .char isSpace
  commentBody :
    g.body comment = .seq (.literal ['/', '/'])
      (.many (.seq (.notAhead (.literal ['\n'])) (.char fun _ => true)))
  triviaBody :
    g.body g.trivia = .seq (.many (.rule whitespace))
      (.many (.seq (.rule comment) (.many (.rule whitespace))))

namespace BlankTrivia

variable {ρ : Type} {g : Grammar ρ} {whitespace comment : ρ}
variable (trivia : BlankTrivia g whitespace comment)
variable {size : Nat} {rest : List Char}

include trivia

/-- What is no white space is not skipped as such. -/
theorem whitespace_none (head : ∀ c ∈ rest.head?, isSpace c = false) :
    g.Yields size true (.rule whitespace) rest none := by
  apply Yields.rule_none
  rw [trivia.whitespaceBody]
  exact .char_none head

/-- One character of white space is skipped. -/
theorem whitespace_char {c : Char} (white : isSpace c = true) (rest : List Char) :
    g.Yields size true (.rule whitespace) (c :: rest) (some ([], rest)) := by
  apply Yields.rule_silent rfl
  rw [trivia.whitespaceBody]
  exact .char white rest

/-- What does not begin with a slash is no comment. -/
theorem comment_none (head : ∀ c ∈ rest.head?, c ≠ '/') :
    g.Yields size true (.rule comment) rest none := by
  apply Yields.rule_none
  rw [trivia.commentBody]
  apply Yields.seq_none
  apply Yields.literal_none
  rintro ⟨after, rfl⟩
  exact head '/' rfl rfl

/-- A comment goes to the end of its line. -/
theorem comment_line {words : List Char} (oneLine : '\n' ∉ words) (rest : List Char) :
    g.Yields size true (.rule comment) (['/', '/'] ++ (words ++ '\n' :: rest))
      (some ([], '\n' :: rest)) := by
  apply Yields.rule_silent rfl
  rw [trivia.commentBody]
  exact .seq (.literal ['/', '/'] _) (.many_until oneLine rfl)

/-- White space is skipped up to the next comment, and comments with the white
space after them up to the next token. -/
theorem skip_blank {blank : List Char} (blanks : Blank blank)
    (solid : ∀ c ∈ rest.head?, opensGap c = false) :
    ∃ middle, g.Yields size true (.many (.rule whitespace)) (blank ++ rest)
      (some ([], middle)) ∧
      g.Yields size true (.many (.seq (.rule comment) (.many (.rule whitespace))))
        middle (some ([], rest)) := by
  induction blanks with
  | none =>
      have closed (c : Char) (head : c ∈ rest.head?) :=
        Bool.or_eq_false_iff.mp (solid c head)
      refine ⟨rest, .many_done (trivia.whitespace_none fun c head => (closed c head).1),
        .many_done (.seq_none (trivia.comment_none fun c head => ?_))⟩
      exact beq_eq_false_iff_ne.mp (closed c head).2
  | space white _ inductionHypothesis =>
      obtain ⟨middle, spaces, comments⟩ := inductionHypothesis
      exact ⟨middle, .many_more (trivia.whitespace_char white _) spaces, comments⟩
  | @comment words later oneLine _ inductionHypothesis =>
      obtain ⟨middle, spaces, comments⟩ := inductionHypothesis
      have same : '/' :: '/' :: (words ++ '\n' :: later) ++ rest = ['/', '/'] ++
          (words ++ '\n' :: (later ++ rest)) := by
        simp
      rw [same]
      refine ⟨_, .many_done (trivia.whitespace_none ?_),
        .many_more (.seq (trivia.comment_line oneLine _)
          (.many_more (trivia.whitespace_char rfl _) spaces)) comments⟩
      intro c head
      cases head
      rfl

/-- Everything between two tokens is skipped at once. -/
theorem skip_gap {between : List Char} (blank : Blank between)
    (solid : ∀ c ∈ rest.head?, opensGap c = false) :
    g.Yields size true (.rule g.trivia) (between ++ rest) (some ([], rest)) := by
  obtain ⟨middle, spaces, comments⟩ := @skip_blank _ _ _ _ trivia size _ _ blank solid
  apply Yields.rule_silent rfl
  rw [trivia.triviaBody]
  exact .seq spaces comments

end BlankTrivia

end GraphEngine
