/-
Module: GraphEngine.Lib.Peg
Layer: Lib
Purpose: Parsing expression grammars with tokens, implicit trivia between the
  parts of a sequence, and atomic rules inside which neither exists: an
  interpreter, and what the trees it builds look like.
Trusted boundary: the operators follow the documented behaviour of pest
Main exports: Peg, Grammar, Grammar.run, Grammar.Matches,
  Grammar.matches_of_run, Grammar.run_isSome
-/
import Mathlib.Data.List.Basic
import Mathlib.Tactic.Linarith

namespace GraphEngine

/-- Parsing expressions over the rules `ρ`.  `trivia` stands where white space
and comments may. -/
inductive Peg (ρ : Type) where
  | literal (text : List Char)
  | char (accepts : Char → Bool)
  | startOfInput
  | endOfInput
  | trivia
  | rule (name : ρ)
  | seq (first second : Peg ρ)
  | choice (first second : Peg ρ)
  | optional (body : Peg ρ)
  | many (body : Peg ρ)
  | notAhead (body : Peg ρ)

/-- A matched rule: the text it covers and the rules matched inside. -/
inductive Pair (ρ : Type) where
  | node (rule : ρ) (text : List Char) (children : List (Pair ρ))

namespace Pair

variable {ρ : Type}

/-- `Pair::as_rule`. -/
def asRule : Pair ρ → ρ
  | .node rule _ _ => rule

/-- The text that a pair spans. -/
def text : Pair ρ → List Char
  | .node _ text _ => text

/-- `Pair::as_str`. -/
def asStr (pair : Pair ρ) : String := String.ofList pair.text

/-- `Pair::into_inner`. -/
def intoInner : Pair ρ → List (Pair ρ)
  | .node _ _ children => children

end Pair

/-- A body for every rule.  A silent rule leaves no pair of its own; inside an
atomic rule there are no pairs and no trivia. -/
structure Grammar (ρ : Type) where
  body : ρ → Peg ρ
  silent : ρ → Bool
  atomic : ρ → Bool
  trivia : ρ

namespace Peg

variable {ρ : Type}

/-- `a ~ b ~ ...` in a rule that is not atomic. -/
def sequence : List (Peg ρ) → Peg ρ
  | [] => .literal []
  | [e] => e
  | e :: es => .seq e (.seq .trivia (sequence es))

/-- `e*` in a rule that is not atomic. -/
def star (e : Peg ρ) : Peg ρ := .optional (.seq e (.many (.seq .trivia e)))

/-- `a | b | ...`. -/
def choices : List (Peg ρ) → Peg ρ
  | [] => .notAhead (.literal [])
  | [e] => e
  | e :: es => .choice e (choices es)

/-- A literal token. -/
def token (text : String) : Peg ρ := .literal text.toList

/-- `e+` in an atomic rule. -/
def atLeastOnce (e : Peg ρ) : Peg ρ := .seq e (.many e)

end Peg

/-- The rest of the input after `text`, if it starts with it. -/
def stripText : List Char → List Char → Option (List Char)
  | [], rest => some rest
  | _ :: _, [] => none
  | c :: text, d :: rest => if c = d then stripText text rest else none

/-- What is left once a prefix is taken off. -/
theorem stripText_eq_some {text rest rest' : List Char} :
    stripText text rest = some rest' ↔ rest = text ++ rest' := by
  induction text generalizing rest with
  | nil => simp [stripText]
  | cons c text ih =>
      cases rest with
      | nil => simp [stripText]
      | cons d rest =>
          rw [stripText, List.cons_append, List.cons.injEq]
          split
          case isTrue same => rw [ih]; simp [same]
          case isFalse other => simp [Ne.symm other]

namespace Grammar

variable {ρ : Type}

/-- The pairs matched and the rest of the input, or `none` for no match. -/
abbrev Outcome (ρ : Type) := Option (List (Pair ρ) × List Char)

/-- One match at the front of `rest`, the tail of an input of `size` characters;
`none` when the fuel runs out. -/
def run (g : Grammar ρ) (size : Nat) : Nat → Bool → Peg ρ → List Char → Option (Outcome ρ)
  | 0, _, _, _ => none
  | _ + 1, _, .literal text, rest =>
      some ((stripText text rest).map fun rest' => ([], rest'))
  | _ + 1, _, .char _, [] => some none
  | _ + 1, _, .char accepts, c :: rest =>
      some (if accepts c then some ([], rest) else none)
  | _ + 1, _, .startOfInput, rest =>
      some (if rest.length = size then some ([], rest) else none)
  | _ + 1, _, .endOfInput, rest => some (if rest = [] then some ([], rest) else none)
  | fuel + 1, isAtomic, .trivia, rest =>
      if isAtomic then some (some ([], rest))
        else run g size fuel true (.rule g.trivia) rest
  | fuel + 1, isAtomic, .rule name, rest =>
      (run g size fuel (isAtomic || g.atomic name) (g.body name) rest).map fun outcome =>
        outcome.map fun matched =>
          let text := rest.take (rest.length - matched.2.length)
          (if isAtomic || g.silent name then matched.1
            else [.node name text matched.1], matched.2)
  | fuel + 1, isAtomic, .seq first second, rest =>
      (run g size fuel isAtomic first rest).bind fun outcome =>
        match outcome with
        | none => some none
        | some (pairs, rest') =>
            (run g size fuel isAtomic second rest').map fun outcome =>
              outcome.map fun matched => (pairs ++ matched.1, matched.2)
  | fuel + 1, isAtomic, .choice first second, rest =>
      (run g size fuel isAtomic first rest).bind fun outcome =>
        match outcome with
        | none => run g size fuel isAtomic second rest
        | some matched => some (some matched)
  | fuel + 1, isAtomic, .optional body, rest =>
      (run g size fuel isAtomic body rest).map fun outcome =>
        some (outcome.getD ([], rest))
  | fuel + 1, isAtomic, .many body, rest =>
      (run g size fuel isAtomic body rest).bind fun outcome =>
        match outcome with
        | none => some (some ([], rest))
        | some (pairs, rest') =>
            (run g size fuel isAtomic (.many body) rest').map fun outcome =>
              outcome.map fun matched => (pairs ++ matched.1, matched.2)
  | fuel + 1, isAtomic, .notAhead body, rest =>
      (run g size fuel isAtomic body rest).map fun outcome =>
        if outcome.isNone then some ([], rest) else none

/-! ### Derivations -/

/-- The texts an expression matches, with the pairs left behind.  What a match
must not be followed by is not recorded. -/
inductive Matches (g : Grammar ρ) : Bool → Peg ρ → List Char → List (Pair ρ) → Prop where
  | literal {isAtomic : Bool} (text : List Char)
      : Matches g isAtomic (.literal text) text []
  | char {isAtomic : Bool} {accepts : Char → Bool} {c : Char} (accepted : accepts c) :
      Matches g isAtomic (.char accepts) [c] []
  | startOfInput {isAtomic : Bool} : Matches g isAtomic .startOfInput [] []
  | endOfInput {isAtomic : Bool} : Matches g isAtomic .endOfInput [] []
  | trivia {isAtomic : Bool} (text : List Char) : Matches g isAtomic .trivia text []
  | rule {isAtomic : Bool} {name : ρ} {text : List Char} {pairs : List (Pair ρ)}
      (body : Matches g (isAtomic || g.atomic name) (g.body name) text pairs) :
      Matches g isAtomic (.rule name) text
        (if isAtomic || g.silent name then pairs else [.node name text pairs])
  | seq {isAtomic : Bool} {first second : Peg ρ} {text text' : List Char}
      {pairs pairs' : List (Pair ρ)}
      (head : Matches g isAtomic first text pairs)
      (tail : Matches g isAtomic second text' pairs') :
      Matches g isAtomic (.seq first second) (text ++ text') (pairs ++ pairs')
  | choiceFirst {isAtomic : Bool} {first second : Peg ρ} {text : List Char}
      {pairs : List (Pair ρ)}
      (chosen : Matches g isAtomic first text pairs) :
        Matches g isAtomic (.choice first second) text pairs
  | choiceSecond {isAtomic : Bool} {first second : Peg ρ} {text : List Char}
      {pairs : List (Pair ρ)}
      (chosen : Matches g isAtomic second text pairs) :
        Matches g isAtomic (.choice first second) text pairs
  | absent {isAtomic : Bool} {body : Peg ρ} : Matches g isAtomic (.optional body) [] []
  | present {isAtomic : Bool} {body : Peg ρ} {text : List Char} {pairs : List (Pair ρ)}
      (matched : Matches g isAtomic body text pairs) :
        Matches g isAtomic (.optional body) text pairs
  | done {isAtomic : Bool} {body : Peg ρ} : Matches g isAtomic (.many body) [] []
  | more {isAtomic : Bool} {body : Peg ρ} {text text' : List Char}
      {pairs pairs' : List (Pair ρ)}
      (head : Matches g isAtomic body text pairs)
      (tail : Matches g isAtomic (.many body) text' pairs') :
      Matches g isAtomic (.many body) (text ++ text') (pairs ++ pairs')
  | notAhead {isAtomic : Bool} {body : Peg ρ} : Matches g isAtomic (.notAhead body) [] []

variable {g : Grammar ρ} {size : Nat}

/-- There are no pairs inside an atomic rule. -/
theorem Matches.pairs_eq_nil {e : Peg ρ} {text : List Char} {pairs : List (Pair ρ)}
    (matched : Matches g true e text pairs) : pairs = [] := by
  generalize inside : true = isAtomic at matched
  induction matched with
  | literal | char | startOfInput | endOfInput | trivia | absent | done | notAhead => rfl
  | rule _ ih =>
      subst inside
      simpa using ih (by simp)
  | seq _ _ ihHead ihTail | more _ _ ihHead ihTail =>
      rw [ihHead inside, ihTail inside, List.append_nil]
  | choiceFirst _ ih | choiceSecond _ ih | present _ ih => exact ih inside

/-- With so much fuel, whatever the interpreter matches is derivable, and it
matches a front part of the input. -/
def Derives (g : Grammar ρ) (size fuel : Nat) : Prop :=
  ∀ {isAtomic : Bool} {e : Peg ρ} {rest rest' : List Char} {pairs : List (Pair ρ)},
    run g size fuel isAtomic e rest = some (some (pairs, rest')) →
      ∃ text, rest = text ++ rest' ∧ Matches g isAtomic e text pairs

section Operators

variable {fuel : Nat} {isAtomic : Bool} {first second body : Peg ρ} {name : ρ}
variable {rest rest' : List Char}
variable {pairs : List (Pair ρ)}

/-- A run of a character class that succeeds is a match. -/
theorem matches_char {accepts : Char → Bool}
    (ran : run g size (fuel + 1) isAtomic (.char accepts) rest =
      some (some (pairs, rest'))) :
    ∃ text, rest = text ++ rest' ∧ Matches g isAtomic (.char accepts) text pairs := by
  cases rest with
  | nil => simp [run] at ran
  | cons c rest =>
      simp only [run, Option.some.injEq] at ran
      split at ran
      case isTrue accepted =>
          cases ran
          exact ⟨[c], rfl, .char accepted⟩
      case isFalse => cases ran

/-- A sequence succeeds exactly where its parts do, one behind the other. -/
theorem run_seq_iff :
    run g size (fuel + 1) isAtomic (.seq first second) rest = some (some (pairs, rest')) ↔
      ∃ between front back,
        run g size fuel isAtomic first rest = some (some (front, between)) ∧
        run g size fuel isAtomic second between = some (some (back, rest')) ∧
        front ++ back = pairs := by
  change (run g size fuel isAtomic first rest).bind _ = _ ↔ _
  rw [Option.bind_eq_some_iff]
  constructor
  · rintro ⟨_ | ⟨front, between⟩, head, ran⟩
    · cases ran
    · simp only [Option.map_eq_some_iff, Prod.mk.injEq] at ran
      obtain ⟨_, tail, ⟨back, _⟩, rfl, joined, rfl⟩ := ran
      exact ⟨between, front, back, head, tail, joined⟩
  · rintro ⟨between, front, back, head, tail, rfl⟩
    exact ⟨_, head, by simp only [tail, Option.map_some]⟩

/-- A choice succeeds exactly where its first alternative does, or the second
where the first fails. -/
theorem run_choice_iff :
    run g size (fuel + 1) isAtomic (.choice first second) rest =
        some (some (pairs, rest')) ↔
      run g size fuel isAtomic first rest = some (some (pairs, rest')) ∨
        run g size fuel isAtomic first rest = some none ∧
          run g size fuel isAtomic second rest = some (some (pairs, rest')) := by
  change (run g size fuel isAtomic first rest).bind _ = _ ↔ _
  rw [Option.bind_eq_some_iff]
  constructor
  · rintro ⟨_ | matched, head, ran⟩
    · exact .inr ⟨head, ran⟩
    · cases ran
      exact .inl head
  · rintro (head | ⟨head, other⟩)
    · exact ⟨_, head, rfl⟩
    · exact ⟨_, head, other⟩

/-- An option takes what its body takes, or nothing where the body fails. -/
theorem run_optional_iff :
    run g size (fuel + 1) isAtomic (.optional body) rest = some (some (pairs, rest')) ↔
      run g size fuel isAtomic body rest = some (some (pairs, rest')) ∨
        run g size fuel isAtomic body rest = some none ∧ pairs = [] ∧ rest' = rest := by
  change (run g size fuel isAtomic body rest).map _ = _ ↔ _
  rw [Option.map_eq_some_iff]
  constructor
  · rintro ⟨_ | matched, inner, found⟩
    · cases found
      exact .inr ⟨inner, rfl, rfl⟩
    · cases found
      exact .inl inner
  · rintro (inner | ⟨inner, rfl, rfl⟩)
    · exact ⟨_, inner, rfl⟩
    · exact ⟨_, inner, rfl⟩

/-- A repetition is at its end, or takes one more round. -/
theorem run_many_iff :
    run g size (fuel + 1) isAtomic (.many body) rest = some (some (pairs, rest')) ↔
      run g size fuel isAtomic body rest = some none ∧ pairs = [] ∧ rest' = rest ∨
        ∃ between front back,
          run g size fuel isAtomic body rest = some (some (front, between)) ∧
          run g size fuel isAtomic (.many body) between = some (some (back, rest')) ∧
          front ++ back = pairs := by
  change (run g size fuel isAtomic body rest).bind _ = _ ↔ _
  rw [Option.bind_eq_some_iff]
  constructor
  · rintro ⟨_ | ⟨front, between⟩, head, ran⟩
    · cases ran
      exact .inl ⟨head, rfl, rfl⟩
    · simp only [Option.map_eq_some_iff, Prod.mk.injEq] at ran
      obtain ⟨_, tail, ⟨back, _⟩, rfl, joined, rfl⟩ := ran
      exact .inr ⟨between, front, back, head, tail, joined⟩
  · rintro (⟨head, rfl, rfl⟩ | ⟨between, front, back, head, tail, rfl⟩)
    · exact ⟨_, head, rfl⟩
    · exact ⟨_, head, by simp only [tail, Option.map_some]⟩

/-- A rule succeeds exactly where its body does; unless it is silent, it wraps
the pairs of the body into one, over the text that the body took. -/
theorem run_rule_iff :
    run g size (fuel + 1) isAtomic (.rule name) rest = some (some (pairs, rest')) ↔
      ∃ inner, run g size fuel (isAtomic || g.atomic name) (g.body name) rest =
          some (some (inner, rest')) ∧
        (if isAtomic || g.silent name then inner
          else [.node name (rest.take (rest.length - rest'.length)) inner]) = pairs := by
  change (run g size fuel (isAtomic || g.atomic name) (g.body name) rest).map _ = _ ↔ _
  simp only [Option.map_eq_some_iff, Prod.mk.injEq]
  constructor
  · rintro ⟨_, ran, ⟨inner, _⟩, rfl, wrapped, rfl⟩
    exact ⟨inner, ran, wrapped⟩
  · rintro ⟨inner, ran, wrapped⟩
    exact ⟨_, ran, _, rfl, wrapped, rfl⟩

/-- What is in front of a rest. -/
theorem take_front (text rest' : List Char) :
    (text ++ rest').take ((text ++ rest').length - rest'.length) = text := by
  simp

namespace Derives

variable (derives : Derives g size fuel)

include derives

/-- Trivia leave no pairs. -/
theorem trivia
    (ran : run g size (fuel + 1) isAtomic .trivia rest = some (some (pairs, rest'))) :
    ∃ text, rest = text ++ rest' ∧ Matches g isAtomic .trivia text pairs := by
  simp only [run] at ran
  split at ran
  case isTrue =>
      cases ran
      exact ⟨[], rfl, .trivia []⟩
  case isFalse =>
      obtain ⟨text, split, skipped⟩ := derives ran
      obtain rfl := skipped.pairs_eq_nil
      exact ⟨text, split, .trivia text⟩

/-- A rule covers the text of its body. -/
theorem rule
    (ran : run g size (fuel + 1) isAtomic (.rule name) rest =
      some (some (pairs, rest'))) :
    ∃ text, rest = text ++ rest' ∧ Matches g isAtomic (.rule name) text pairs := by
  obtain ⟨inner, entered, rfl⟩ := run_rule_iff.mp ran
  obtain ⟨text, rfl, body⟩ := derives entered
  rw [take_front]
  exact ⟨text, rfl, .rule body⟩

/-- A run of a sequence that succeeds is a match, if those of its parts are. -/
theorem seq
    (ran : run g size (fuel + 1) isAtomic (.seq first second) rest =
      some (some (pairs, rest'))) :
    ∃ text, rest = text ++ rest' ∧ Matches g isAtomic (.seq first second) text pairs := by
  obtain ⟨between, front, back, head, tail, rfl⟩ := run_seq_iff.mp ran
  obtain ⟨text, rfl, first⟩ := derives head
  obtain ⟨text', split, second⟩ := derives tail
  exact ⟨text ++ text', by rw [split, List.append_assoc], .seq first second⟩

/-- A run of a choice that succeeds is a match, if those of its alternatives
are. -/
theorem choice
    (ran : run g size (fuel + 1) isAtomic (.choice first second) rest =
      some (some (pairs, rest'))) :
    ∃ text, rest = text ++ rest' ∧
      Matches g isAtomic (.choice first second) text pairs := by
  rcases run_choice_iff.mp ran with head | ⟨-, other⟩
  · obtain ⟨text, split, chosen⟩ := derives head
    exact ⟨text, split, .choiceFirst chosen⟩
  · obtain ⟨text, split, chosen⟩ := derives other
    exact ⟨text, split, .choiceSecond chosen⟩

/-- A run of an option that succeeds is a match, if that of its body is. -/
theorem optional
    (ran : run g size (fuel + 1) isAtomic (.optional body) rest =
      some (some (pairs, rest'))) :
    ∃ text, rest = text ++ rest' ∧ Matches g isAtomic (.optional body) text pairs := by
  rcases run_optional_iff.mp ran with inner | ⟨-, rfl, rfl⟩
  · obtain ⟨text, split, matched⟩ := derives inner
    exact ⟨text, split, .present matched⟩
  · exact ⟨[], rfl, .absent⟩

/-- One round, and the rounds after it. -/
theorem many
    (ran : run g size (fuel + 1) isAtomic (.many body) rest =
      some (some (pairs, rest'))) :
    ∃ text, rest = text ++ rest' ∧ Matches g isAtomic (.many body) text pairs := by
  rcases run_many_iff.mp ran with ⟨-, rfl, rfl⟩ | ⟨between, front, back, head, tail, rfl⟩
  · exact ⟨[], rfl, .done⟩
  · obtain ⟨text, rfl, first⟩ := derives head
    obtain ⟨text', split, later⟩ := derives tail
    exact ⟨text ++ text', by rw [split, List.append_assoc], .more first later⟩

end Derives

end Operators

/-- Whatever the fuel, what the interpreter matches is derivable. -/
theorem derives_of_fuel (fuel : Nat) : Derives g size fuel := by
  induction fuel with
  | zero =>
      intro _ _ _ _ _ ran
      simp [run] at ran
  | succ fuel derives =>
      intro _ e _ _ _ ran
      cases e with
      | literal text =>
          simp only [run, Option.some.injEq, Option.map_eq_some_iff, Prod.mk.injEq] at ran
          obtain ⟨tail, stripped, rfl, rfl⟩ := ran
          exact ⟨text, stripText_eq_some.mp stripped, .literal text⟩
      | char accepts => exact matches_char ran
      | startOfInput =>
          simp only [run, Option.some.injEq] at ran
          split at ran <;> cases ran
          exact ⟨[], rfl, .startOfInput⟩
      | endOfInput =>
          simp only [run, Option.some.injEq] at ran
          split at ran <;> cases ran
          exact ⟨[], rfl, .endOfInput⟩
      | trivia => exact derives.trivia ran
      | rule name => exact derives.rule ran
      | seq first second => exact derives.seq ran
      | choice first second => exact derives.choice ran
      | optional body => exact derives.optional ran
      | many body => exact derives.many ran
      | notAhead body =>
          simp only [run, Option.map_eq_some_iff] at ran
          obtain ⟨outcome, inner, found⟩ := ran
          split at found <;> cases found
          exact ⟨[], rfl, .notAhead⟩

/-- Whatever the interpreter matches is derivable, and it matches a front part
of the input. -/
theorem matches_of_run {fuel : Nat} {isAtomic : Bool} {e : Peg ρ}
    {rest rest' : List Char} {pairs : List (Pair ρ)}
    (ran : run g size fuel isAtomic e rest = some (some (pairs, rest'))) :
    ∃ text, rest = text ++ rest' ∧ Matches g isAtomic e text pairs :=
  derives_of_fuel fuel ran

/-! ### Termination -/

end Grammar

namespace Peg

variable {ρ : Type}

/-- Every match takes at least one character, given the rules of which this is
known. -/
def consumes (solid : ρ → Bool) : Peg ρ → Bool
  | .literal text => !text.isEmpty
  | .char _ => true
  | .rule name => solid name
  | .seq first second => first.consumes solid || second.consumes solid
  | .choice first second => first.consumes solid && second.consumes solid
  | .startOfInput | .endOfInput | .trivia | .optional _ | .many _ | .notAhead _ => false

/-- Every repetition makes progress. -/
def progressive (solid : ρ → Bool) : Peg ρ → Bool
  | .seq first second | .choice first second =>
      first.progressive solid && second.progressive solid
  | .many body => body.consumes solid && body.progressive solid
  | .optional body | .notAhead body => body.progressive solid
  | _ => true

/-- Every rule that can be entered before a character is taken has a rank below
`bound`. -/
def leftBelow (solid : ρ → Bool) (rank : ρ → Nat) (trivia : ρ) (bound : Nat) :
    Peg ρ → Bool
  | .rule name => decide (rank name < bound)
  | .trivia => decide (rank trivia < bound)
  | .seq first second =>
      first.leftBelow solid rank trivia bound &&
        (first.consumes solid || second.leftBelow solid rank trivia bound)
  | .choice first second =>
      first.leftBelow solid rank trivia bound && second.leftBelow solid rank trivia bound
  | .optional body | .many body | .notAhead body => body.leftBelow solid rank trivia bound
  | _ => true

/-- The number of operators. -/
def depth : Peg ρ → Nat
  | .seq first second | .choice first second => first.depth + second.depth + 1
  | .optional body | .many body | .notAhead body => body.depth + 1
  | .trivia => 2
  | _ => 1

end Peg

namespace Grammar

variable {ρ : Type} {g : Grammar ρ} {size : Nat}

/-- No left recursion and no repetition of the empty text, by way of a rank for
every rule. -/
structure Ranked (g : Grammar ρ) (solid : ρ → Bool) (rank : ρ → Nat)
    (top maxDepth : Nat) : Prop where
  consumes : ∀ name, solid name → (g.body name).consumes solid
  progressive : ∀ name, (g.body name).progressive solid
  leftBelow : ∀ name, (g.body name).leftBelow solid rank g.trivia (rank name)
  below : ∀ name, rank name < top
  depth_le : ∀ name, (g.body name).depth ≤ maxDepth

variable {solid : ρ → Bool} {rank : ρ → Nat} {top maxDepth : Nat}

/-- An expression that consumes takes at least one character. -/
theorem Matches.ne_nil (ranked : g.Ranked solid rank top maxDepth) {isAtomic : Bool}
    {e : Peg ρ} {text : List Char} {pairs : List (Pair ρ)}
    (matched : Matches g isAtomic e text pairs) (consumes : e.consumes solid = true) :
    text ≠ [] := by
  induction matched with
  | literal text => simpa [Peg.consumes] using consumes
  | char => simp
  | rule _ ih => exact ih (ranked.consumes _ consumes)
  | seq _ _ ihHead ihTail =>
      simp only [Peg.consumes, Bool.or_eq_true] at consumes
      rw [ne_eq, List.append_eq_nil_iff, not_and_or]
      exact consumes.imp ihHead ihTail
  | choiceFirst _ ih =>
      simp only [Peg.consumes, Bool.and_eq_true] at consumes
      exact ih consumes.1
  | choiceSecond _ ih =>
      simp only [Peg.consumes, Bool.and_eq_true] at consumes
      exact ih consumes.2
  | startOfInput | endOfInput | trivia | absent | present | done | more | notAhead =>
      simp [Peg.consumes] at consumes

/-- Every rule may be entered once a character is taken. -/
theorem Ranked.leftBelow_top (ranked : g.Ranked solid rank top maxDepth) (e : Peg ρ) :
    e.leftBelow solid rank g.trivia top = true := by
  induction e with
  | literal | char | startOfInput | endOfInput => rfl
  | rule name => simpa [Peg.leftBelow] using ranked.below name
  | trivia => simpa [Peg.leftBelow] using ranked.below g.trivia
  | seq _ _ ihFirst ihSecond | choice _ _ ihFirst ihSecond =>
      simp [Peg.leftBelow, ihFirst, ihSecond]
  | optional _ ih | many _ ih | notAhead _ ih => simpa [Peg.leftBelow] using ih

/-- The fuel that a match needs: it may enter every rule once before it takes
the next character. -/
def fuelFor (top maxDepth : Nat) (length bound depth : Nat) : Nat :=
  length * ((top + 1) * (maxDepth + 2)) + bound * (maxDepth + 2) + depth

/-- The fuel for a shorter rest is less, from any rule. -/
theorem fuelFor_shorter {length length' bound depth : Nat}
    (shorter : length' < length) :
    fuelFor top maxDepth length' top depth + 2 ≤
      fuelFor top maxDepth length bound depth := by
  have places : length' * ((top + 1) * (maxDepth + 2)) + (top + 1) * (maxDepth + 2) ≤
      length * ((top + 1) * (maxDepth + 2)) := by
    rw [← Nat.succ_mul]
    exact Nat.mul_le_mul_right _ shorter
  simp only [fuelFor, Nat.add_mul, Nat.one_mul] at places ⊢
  omega

/-- The fuel for a rule of lower rank is less on the same rest. -/
theorem fuelFor_enter {length rank bound depth depth' : Nat} (below : rank < bound)
    (small : depth' ≤ maxDepth) :
    fuelFor top maxDepth length rank depth' + 2 ≤
      fuelFor top maxDepth length bound depth := by
  have ranks : rank * (maxDepth + 2) + (maxDepth + 2) ≤ bound * (maxDepth + 2) := by
    rw [← Nat.succ_mul]
    exact Nat.mul_le_mul_right _ below
  simp only [fuelFor]
  omega

/-- The fuel for a part of an expression is less. -/
theorem fuelFor_deeper {length bound depth depth' : Nat} (inside : depth' < depth) :
    fuelFor top maxDepth length bound depth' + 1 ≤
      fuelFor top maxDepth length bound depth := by
  simp only [fuelFor]
  omega

/-- Further on in the input there is fuel for every expression of the same
depth. -/
theorem fuelFor_further {length length' bound depth depth' : Nat}
    (shorter : length' < length) (small : depth' ≤ depth) :
    fuelFor top maxDepth length' top depth' + 2 ≤
      fuelFor top maxDepth length bound depth := by
  have enough := @fuelFor_shorter top maxDepth _ _ bound depth shorter
  simp only [fuelFor] at enough ⊢
  omega

section Operators

variable {fuel : Nat} {isAtomic : Bool} {first second body : Peg ρ} {rest : List Char}

/-- A sequence ends if its parts do, the second one wherever the first leaves
off. -/
theorem run_seq_isSome (head : (run g size fuel isAtomic first rest).isSome)
    (tail : ∀ text rest' pairs, rest = text ++ rest' → Matches g isAtomic first text
      pairs → (run g size fuel isAtomic second rest').isSome) :
    (run g size (fuel + 1) isAtomic (.seq first second) rest).isSome := by
  obtain ⟨outcome, ran⟩ := Option.isSome_iff_exists.mp head
  simp only [run, ran, Option.bind_some]
  cases outcome with
  | none => rfl
  | some matched =>
      obtain ⟨text, split, derived⟩ := matches_of_run ran
      rw [Option.isSome_map]
      exact tail text _ _ split derived

/-- A choice ends if its alternatives do. -/
theorem run_choice_isSome (head : (run g size fuel isAtomic first rest).isSome)
    (other : (run g size fuel isAtomic second rest).isSome) :
    (run g size (fuel + 1) isAtomic (.choice first second) rest).isSome := by
  obtain ⟨outcome, ran⟩ := Option.isSome_iff_exists.mp head
  simp only [run, ran, Option.bind_some]
  cases outcome with
  | none => exact other
  | some matched => rfl

/-- A repetition ends if its body does and so does the repetition behind every
round. -/
theorem run_many_isSome (head : (run g size fuel isAtomic body rest).isSome)
    (later : ∀ text rest' pairs, rest = text ++ rest' → Matches g isAtomic body text
      pairs → (run g size fuel isAtomic (.many body) rest').isSome) :
    (run g size (fuel + 1) isAtomic (.many body) rest).isSome := by
  obtain ⟨outcome, ran⟩ := Option.isSome_iff_exists.mp head
  simp only [run, ran, Option.bind_some]
  cases outcome with
  | none => rfl
  | some matched =>
      obtain ⟨text, split, derived⟩ := matches_of_run ran
      rw [Option.isSome_map]
      exact later text _ _ split derived

end Operators

/-- The interpreter never runs out of fuel. -/
theorem run_isSome (ranked : g.Ranked solid rank top maxDepth) {fuel : Nat}
    {isAtomic : Bool} {e : Peg ρ} {rest : List Char} {bound : Nat}
    (progressive : e.progressive solid = true)
    (left : e.leftBelow solid rank g.trivia bound = true)
    (enough : fuelFor top maxDepth rest.length bound e.depth < fuel) :
    (run g size fuel isAtomic e rest).isSome := by
  induction fuel generalizing isAtomic e rest bound with
  | zero => exact absurd enough (Nat.not_lt_zero _)
  | succ fuel ih =>
      -- the parts of an expression, at the same place
      have inside {e' : Peg ρ} (progressive' : e'.progressive solid = true)
          (left' : e'.leftBelow solid rank g.trivia bound = true)
          (smaller : e'.depth < e.depth) :
          (run g size fuel isAtomic e' rest).isSome := by
        have := @fuelFor_deeper top maxDepth rest.length bound _ _ smaller
        exact ih progressive' left' (by omega)
      -- and further on in the input
      have further {e' : Peg ρ} {text rest' : List Char}
          (split : rest = text ++ rest') (taken : text ≠ [])
          (progressive' : e'.progressive solid = true) (small : e'.depth ≤ e.depth) :
          (run g size fuel isAtomic e' rest').isSome := by
        have shorter : rest'.length < rest.length := by
          rw [split, List.length_append]
          exact Nat.lt_add_of_pos_left (List.length_pos_iff.mpr taken)
        have := @fuelFor_further top maxDepth _ _ bound _ _ shorter small
        exact ih progressive' (ranked.leftBelow_top e') (by omega)
      cases e with
      | literal | startOfInput | endOfInput => rfl
      | char => cases rest <;> rfl
      | trivia =>
          have below : rank g.trivia < bound := by simpa [Peg.leftBelow] using left
          simp only [run]
          split
          · rfl
          · have := @fuelFor_deeper top maxDepth rest.length bound 2 1 (by omega)
            refine ih rfl (by simpa [Peg.leftBelow] using below) ?_
            simp only [Peg.depth] at enough ⊢
            omega
      | rule name =>
          have below : rank name < bound := by simpa [Peg.leftBelow] using left
          have := @fuelFor_enter top maxDepth rest.length _ _ 1 _ below
            (ranked.depth_le name)
          simp only [Peg.depth] at enough
          simp only [run, Option.isSome_map]
          exact ih (ranked.progressive name) (ranked.leftBelow name) (by omega)
      | seq first second =>
          simp only [Peg.progressive, Peg.leftBelow, Bool.and_eq_true,
            Bool.or_eq_true] at progressive left
          apply run_seq_isSome
            (inside progressive.1 left.1 (by simp only [Peg.depth]; omega))
          intro text rest' pairs split derived
          rcases List.eq_nil_or_concat text with rfl | ⟨_, _, rfl⟩
          · have entered := left.2.resolve_left fun consumes =>
              derived.ne_nil ranked consumes rfl
            rw [List.nil_append] at split
            exact split ▸ inside progressive.2 entered (by simp only [Peg.depth]; omega)
          · exact further split (by simp) progressive.2 (by simp only [Peg.depth]; omega)
      | choice first second =>
          simp only [Peg.progressive, Peg.leftBelow, Bool.and_eq_true] at progressive left
          exact run_choice_isSome
            (inside progressive.1 left.1 (by simp only [Peg.depth]; omega))
            (inside progressive.2 left.2 (by simp only [Peg.depth]; omega))
      | optional body =>
          simp only [run, Option.isSome_map]
          exact inside progressive left (by simp only [Peg.depth]; omega)
      | many body =>
          have whole := progressive
          simp only [Peg.progressive, Bool.and_eq_true] at progressive
          apply run_many_isSome
            (inside progressive.2 left (by simp only [Peg.depth]; omega))
          intro text rest' pairs split derived
          exact further split (derived.ne_nil ranked progressive.1) whole le_rfl
      | notAhead body =>
          simp only [run, Option.isSome_map]
          exact inside progressive left (by simp only [Peg.depth]; omega)

end Grammar

end GraphEngine
