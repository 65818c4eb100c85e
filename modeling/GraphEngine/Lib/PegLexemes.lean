/-
Module: GraphEngine.Lib.PegLexemes
Layer: Lib
Purpose: Single tokens of a grammar with gaps: literals, alternatives of
  literals, and words made of characters of a class.  The side conditions on
  fixed tokens are decidable.
Trusted boundary: none
Main exports: Layout.solid_of, Takes.spelling, Takes.word, Refuses.word,
  Refuses.token_of_headIn
-/
import GraphEngine.Lib.PegTokens

namespace GraphEngine

namespace Grammar

variable {ρ : Type} {g : Grammar ρ} {layout : g.Layout} {ts : List Token}

namespace Layout

/-- A decidable form of `Layout.Solid`. -/
theorem solid_of {t : Token} (solid : (t.head?.any fun c => !layout.opens c) = true) :
    layout.Solid t := by
  cases t with
  | nil => cases solid
  | cons c t =>
      refine ⟨List.cons_ne_nil c t, fun d head => ?_⟩
      cases head
      exact Bool.not_eq_true' _ ▸ solid

/-- A closed token has no character that a gap begins with. -/
theorem closed_of {t : Token} (closed : (t.all fun c => !layout.opens c) = true)
    {c : Char} (member : c ∈ t) : layout.opens c = false := by
  have each := List.all_eq_true.mp closed c member
  rwa [Bool.not_eq_true'] at each

/-- What holds of the first character of the next token holds of that of the
text. -/
theorem Starts.head {text : List Char} {P : Char → Prop} (starts : layout.Starts ts text)
    (head : ∀ t ∈ ts.head?, ∀ c ∈ t.head?, P c) : ∀ c ∈ text.head?, P c := by
  rw [starts.head?]
  intro c member
  obtain ⟨t, next, begins⟩ := Option.bind_eq_some_iff.mp member
  exact head t next c begins

end Layout

/-! ### Alternatives of literals -/

/-- A rule with a few spellings, none of which is found in front of another that
comes before it. -/
theorem Takes.spelling {name : ρ} {options : List String} {t : String}
    (visible : g.silent name = false)
    (body : g.body name = .choices (options.map Peg.token))
    (found : options.find?
      (fun option => option.toList.isPrefixOf t.toList) = some t)
    (closed : (options.all fun option => option.toList.all fun c =>
        !layout.opens c) = true)
    (solid : (t.toList.head?.any fun c => !layout.opens c) = true) :
    Takes layout (.rule name) [t.toList] Anything (· = [.node name t.toList []]) := by
  apply Takes.lexeme visible (Layout.solid_of solid)
  intro size after opens
  have closed' : ∀ option ∈ options, ∀ c ∈ option.toList, layout.opens c = false :=
    fun option member c inside =>
    Layout.closed_of (List.all_eq_true.mp closed option member) inside
  have choices : g.Yields size (g.atomic name) (.choices (options.map Peg.token))
      (t.toList ++ after)
      (some ([], after)) := .choices found closed' opens
  rwa [← body] at choices

/-- A literal is refused where another token is next. -/
theorem Refuses.token_of_headIn {spelling : String} {allowed : List Token}
    (head : HeadIn allowed ts)
    (apart : (!spelling.toList.isEmpty &&
        (spelling.toList.all fun c => !layout.opens c) && allowed.all fun other =>
        !spelling.toList.isPrefixOf other) = true) :
    Refuses layout (.token spelling) ts := by
  rw [Bool.and_eq_true, Bool.and_eq_true] at apart
  obtain ⟨⟨nonempty, closed⟩, others⟩ := apart
  apply Refuses.token
  · rw [Bool.not_eq_true', List.isEmpty_eq_false_iff] at nonempty
    exact nonempty
  · exact fun c member => Layout.closed_of closed member
  · intro next member begins
    have other := List.all_eq_true.mp others next (head next member)
    rw [Bool.not_eq_true', ← Bool.not_eq_true, List.isPrefixOf_iff_prefix] at other
    exact other begins

/-- A literal is refused where the next token begins with another character. -/
theorem Refuses.literal_of_head {c : Char} {more : List Char}
    (head : ∀ t ∈ ts.head?, ∀ d ∈ t.head?, d ≠ c) :
    Refuses layout (.literal (c :: more)) ts := by
  intro size text starts
  apply Yields.literal_none
  rintro ⟨after, rfl⟩
  exact starts.head head c rfl rfl

/-! ### Words -/

section Words

variable {name : ρ} {first later : Char → Bool}

/-- A word ends where a gap opens. -/
theorem Takes.word {c : Char} {rest : List Char} (visible : g.silent name = false)
    (body : g.body name = .seq (.char first) (.many (.char later)))
    (begins : first c = true) (continues : ∀ d ∈ rest, later d = true)
    (solid : layout.opens c = false)
    (ends : ∀ d, layout.opens d = true → later d = false) :
    Takes layout (.rule name) [c :: rest] Anything (· = [.node name (c :: rest) []]) := by
  apply Takes.lexeme visible
  · refine ⟨List.cons_ne_nil c rest, fun d head => ?_⟩
    cases head
    exact solid
  · intro size after opens
    rw [body]
    exact .seq (.char begins _) (.many_char continues fun d head => ends d (opens d head))

/-- A word is refused where the next token does not begin like one. -/
theorem Refuses.word (body : g.body name = .seq (.char first) (.many (.char later)))
    (head : ∀ t ∈ ts.head?, ∀ c ∈ t.head?, first c = false) :
    Refuses layout (.rule name) ts := by
  intro size text starts
  apply Yields.rule_none
  rw [body]
  exact .seq_none (.char_none (starts.head head))

end Words

end Grammar

end GraphEngine
