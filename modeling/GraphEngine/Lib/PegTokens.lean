/-
Module: GraphEngine.Lib.PegTokens
Layer: Lib
Purpose: Parsing texts that are given token by token with gaps between.  An
  expression `Takes` a list of tokens if it matches exactly these in front of
  every admissible rest, and `Refuses` one if it fails there; the operators
  compose both.
Trusted boundary: none
Main exports: Spaced, Grammar.Layout, Takes, Refuses, Takes.cons, Takes.star,
  Takes.rule, Refuses.token
-/
import GraphEngine.Lib.PegRuns
import Mathlib.Data.List.Forall2

namespace GraphEngine

/-- A token by its characters. -/
abbrev Token := List Char

/-- The text has these tokens, with a gap between any two of them; another one
may stand at the end. -/
def Spaced (gap : List Char → Prop) : List Token → List Char → Prop
  | [], text => text = []
  | t :: ts, text =>
      ∃ between rest, text = t ++ (between ++ rest) ∧
        (gap between ∨ between = [] ∧ ts = []) ∧
      Spaced gap ts rest

/-- Tokens with the same gap between any two of them. -/
theorem spaced_intercalate {gap : List Char → Prop} {between : List Char}
    (isGap : gap between) (ts : List Token) :
    Spaced gap ts (between.intercalate ts) := by
  induction ts with
  | nil => rfl
  | cons t ts ih =>
      cases ts with
      | nil =>
          refine ⟨[], [], ?_, .inr ⟨rfl, rfl⟩, rfl⟩
          rw [List.intercalate_singleton, List.append_nil, List.append_nil]
      | cons next ts =>
          refine ⟨between, _, ?_, .inl isGap, ih⟩
          rw [List.intercalate_cons_cons, List.append_assoc]

namespace Grammar

variable {ρ : Type}

/-- What may stand between the tokens of a grammar's texts: `opens` are the
characters that gaps begin with. -/
structure Layout (g : Grammar ρ) where
  gap : List Char → Prop
  opens : Char → Bool
  opens_of_gap : ∀ {text}, gap text → ∃ c rest, text = c :: rest ∧ opens c = true
  skips : ∀ {size between rest}, between = [] ∨ gap between →
    (∀ c ∈ rest.head?, opens c = false) →
    g.Yields size true (.rule g.trivia) (between ++ rest) (some ([], rest))

variable {g : Grammar ρ} (layout : g.Layout)

namespace Layout

/-- A token cannot be taken for a gap. -/
def Solid (t : Token) : Prop := t ≠ [] ∧ ∀ c ∈ t.head?, layout.opens c = false

/-- The text begins with the first of the tokens. -/
def Starts (ts : List Token) (text : List Char) : Prop :=
  (∀ t ∈ ts, layout.Solid t) ∧ Spaced layout.gap ts text

/-- The tokens are what comes next, perhaps after a gap. -/
def Ahead (ts : List Token) (text : List Char) : Prop :=
  ∃ between rest, text = between ++ rest ∧ (between = [] ∨ layout.gap between) ∧
    layout.Starts ts rest

variable {layout} {ts : List Token} {text : List Char}

/-- A text that starts with tokens has them ahead without a gap. -/
theorem Starts.ahead (starts : layout.Starts ts text) : layout.Ahead ts text :=
  ⟨[], text, rfl, .inl rfl, starts⟩

/-- The first token, and what comes after it. -/
theorem Starts.cons {t : Token} (starts : layout.Starts (t :: ts) text) :
    ∃ after, text = t ++ after ∧ (∀ c ∈ after.head?, layout.opens c = true) ∧
      layout.Ahead ts after := by
  obtain ⟨solid, between, rest, rfl, apart, spaced⟩ := starts
  refine ⟨between ++ rest, rfl, ?_, between, rest, rfl, ?_,
    (fun t' member => solid t' (List.mem_cons_of_mem t member)),
    spaced⟩
  · rcases apart with gap | ⟨rfl, rfl⟩
    · obtain ⟨c, tail, rfl, opens⟩ := layout.opens_of_gap gap
      intro d member
      cases member
      exact opens
    · obtain rfl : rest = [] := spaced
      intro c member
      cases member
  · exact apart.elim .inr fun none => .inl none.1

/-- A text starts with the first character of its first token. -/
theorem Starts.head? (starts : layout.Starts ts text) :
    text.head? = ts.head?.bind List.head? := by
  cases ts with
  | nil =>
      obtain rfl : text = [] := starts.2
      rfl
  | cons t ts =>
      obtain ⟨after, rfl, -⟩ := starts.cons
      have nonempty := (starts.1 t List.mem_cons_self).1
      cases t with
      | nil => exact absurd rfl nonempty
      | cons c t => rfl

/-- The gap before the next token is skipped. -/
theorem Ahead.skip (ahead : layout.Ahead ts text) (size : Nat) :
    ∃ rest, g.Yields size false .trivia text (some ([], rest)) ∧
      layout.Starts ts rest := by
  obtain ⟨between, rest, rfl, gap, starts⟩ := ahead
  refine ⟨rest, .trivia (layout.skips gap ?_), starts⟩
  rw [starts.head?]
  intro c member
  obtain ⟨t, first, head⟩ := Option.bind_eq_some_iff.mp member
  exact (starts.1 t (List.mem_of_mem_head? first)).2 c head

end Layout

/-! ### Contracts -/

/-- The expression matches these tokens, in front of every rest that may follow,
and leaves pairs as described. -/
structure Takes (e : Peg ρ) (ts : List Token) (follow : List Token → Prop)
    (result : List (Pair ρ) → Prop) : Prop where
  solid : ∀ t ∈ ts, layout.Solid t
  takes : ∀ size rest text, follow rest → layout.Starts (ts ++ rest) text → ∃ pairs text',
    g.Yields size false e text (some (pairs, text')) ∧
      layout.Ahead rest text' ∧ result pairs

/-- The expression fails in front of these tokens. -/
def Refuses (e : Peg ρ) (ts : List Token) : Prop :=
  ∀ size text, layout.Starts ts text → g.Yields size false e text none

/-- Nothing follows, or one of these tokens. -/
def HeadIn (allowed : List Token) (rest : List Token) : Prop :=
  ∀ t ∈ rest.head?, t ∈ allowed

/-- Anything may follow. -/
def Anything (_ : List Token) : Prop := True

/-- The pairs are those of two matches, one after the other. -/
def Both (first second : List (Pair ρ) → Prop) (pairs : List (Pair ρ)) : Prop :=
  ∃ front back, pairs = front ++ back ∧ first front ∧ second back

/-- One pair of a rule, with children as described. -/
def Wraps (name : ρ) (inside : List (Pair ρ) → Prop) (pairs : List (Pair ρ)) : Prop :=
  ∃ text children, pairs = [.node name text children] ∧ inside children

/-- A list of tokens begins with its head. -/
theorem headIn_cons {allowed : List Token} {t : Token} (member : t ∈ allowed)
    (ts : List Token) : HeadIn allowed (t :: ts) := by
  rintro _ ⟨⟩
  exact member

/-- More heads may be allowed. -/
theorem HeadIn.mono {allowed allowed' : List Token} {ts : List Token}
    (head : HeadIn allowed ts) (subset : allowed ⊆ allowed') : HeadIn allowed' ts :=
  fun t member => subset (head t member)

variable {layout} {e e' : Peg ρ} {ts ts' : List Token}
variable {follow follow' : List Token → Prop}
variable {result result' : List (Pair ρ) → Prop}

/-- A walk over the pairs of two matches. -/
theorem Both.foldlM {ε σ : Type} {step : σ → Pair ρ → Except ε σ} {a b c : σ}
    {pairs : List (Pair ρ)} (both : Both result result' pairs)
    (walk : ∀ front, result front → front.foldlM step a = .ok b)
    (walk' : ∀ back, result' back → back.foldlM step b = .ok c) :
    pairs.foldlM step a = .ok c := by
  obtain ⟨front, back, rfl, holds, holds'⟩ := both
  rw [List.foldlM_append, walk front holds]
  exact walk' back holds'

namespace Takes

/-- Less may be said of the pairs. -/
theorem imp (takes : Takes layout e ts follow result)
    (weaker : ∀ pairs, result pairs → result' pairs) :
    Takes layout e ts follow result' where
  solid := takes.solid
  takes size rest text follows starts := by
    obtain ⟨pairs, text', yields, ahead, holds⟩ :=
      takes.takes size rest text follows starts
    exact ⟨pairs, text', yields, ahead, weaker pairs holds⟩

/-- Fewer rests may be admitted. -/
theorem before (takes : Takes layout e ts follow result)
    (admissible : ∀ rest, follow' rest → follow rest) :
    Takes layout e ts follow' result where
  solid := takes.solid
  takes size rest text follows := takes.takes size rest text (admissible rest follows)

/-- A literal takes its token. -/
theorem token {t : Token} (solid : layout.Solid t) :
    Takes layout (.literal t) [t] Anything (· = []) where
  solid := List.forall_mem_singleton.mpr solid
  takes size rest text _ starts := by
    obtain ⟨after, rfl, -, ahead⟩ := starts.cons
    exact ⟨[], after, .literal t after, ahead, rfl⟩

/-- Two parts of a rule that is not atomic, with trivia between. -/
theorem append (first : Takes layout e ts follow result)
    (second : Takes layout e' ts' follow' result')
    (admissible : ∀ rest, follow' rest → follow (ts' ++ rest)) :
    Takes layout (.seq e (.seq .trivia e')) (ts ++ ts') follow'
      (Both result result') where
  solid := List.forall_mem_append.mpr ⟨first.solid, second.solid⟩
  takes size rest text follows starts := by
    rw [List.append_assoc] at starts
    obtain ⟨front, text', yields, ahead, holds⟩ :=
      first.takes size _ text (admissible rest follows) starts
    obtain ⟨text'', skipped, starts'⟩ := ahead.skip size
    obtain ⟨back, text₃, yields', ahead', holds'⟩ :=
      second.takes size rest text'' follows starts'
    exact ⟨front ++ back, text₃, .seq yields (.seq skipped yields'), ahead', front,
      back, rfl, holds, holds'⟩

/-- A sequence of more than one part. -/
theorem cons {es : List (Peg ρ)} (first : Takes layout e ts follow result)
    (later : Takes layout (.sequence (e' :: es)) ts' follow' result')
    (admissible : ∀ rest, follow' rest → follow (ts' ++ rest)) :
    Takes layout (.sequence (e :: e' :: es)) (ts ++ ts') follow' (Both result result') :=
  first.append later admissible

/-- A sequence that begins with a token. -/
theorem token_cons {t : String} {es : List (Peg ρ)} (solid : layout.Solid t.toList)
    (later : Takes layout (.sequence (e' :: es)) ts' follow' result') :
    Takes layout (.sequence (.token t :: e' :: es))
      (t.toList :: ts') follow' result' := by
  apply ((token solid).append later fun _ _ => trivial).imp
  rintro pairs ⟨front, back, rfl, rfl, holds⟩
  exact holds

/-- An option takes what its body takes. -/
theorem present (takes : Takes layout e ts follow result) :
    Takes layout (.optional e) ts follow result where
  solid := takes.solid
  takes size rest text follows starts := by
    obtain ⟨pairs, text', yields, ahead, holds⟩ :=
      takes.takes size rest text follows starts
    exact ⟨pairs, text', .optional yields, ahead, holds⟩

/-- An option takes nothing in front of what its body refuses. -/
theorem absent (refuses : ∀ rest, follow rest → Refuses layout e rest) :
    Takes layout (.optional e) [] follow (· = []) where
  solid := nofun
  takes size rest text follows starts :=
    ⟨[], text, .optional_absent (refuses rest follows size text starts),
      starts.ahead, rfl⟩

/-- A choice takes what its first alternative takes. -/
theorem choice_first (takes : Takes layout e ts follow result) :
    Takes layout (.choice e e') ts follow result where
  solid := takes.solid
  takes size rest text follows starts := by
    obtain ⟨pairs, text', yields, ahead, holds⟩ :=
      takes.takes size rest text follows starts
    exact ⟨pairs, text', .choice_first yields, ahead, holds⟩

/-- A choice takes what its second alternative takes where the first refuses. -/
theorem choice_second
    (refuses : ∀ rest, follow rest → Refuses layout e (ts ++ rest))
    (takes : Takes layout e' ts follow result) :
    Takes layout (.choice e e') ts follow result where
  solid := takes.solid
  takes size rest text follows starts := by
    obtain ⟨pairs, text', yields, ahead, holds⟩ :=
      takes.takes size rest text follows starts
    exact ⟨pairs, text',
      .choice_second (refuses rest follows size text starts) yields, ahead, holds⟩

/-- A rule that is not atomic. -/
theorem rule {name : ρ} (visible : g.silent name = false) (plain : g.atomic name = false)
    (body : Takes layout (g.body name) ts follow result) :
    Takes layout (.rule name) ts follow (Wraps name result) where
  solid := body.solid
  takes size rest text follows starts := by
    obtain ⟨pairs, text', yields, ahead, holds⟩ :=
      body.takes size rest text follows starts
    rw [← plain] at yields
    obtain ⟨taken, matched⟩ := Yields.exists_rule visible yields
    exact ⟨_, text', matched, ahead, taken, pairs, rfl, holds⟩

/-- A rule that is not atomic and leaves no pair of its own. -/
theorem rule_silent {name : ρ} (silent : g.silent name = true)
    (plain : g.atomic name = false)
    (body : Takes layout (g.body name) ts follow result) :
    Takes layout (.rule name) ts follow result where
  solid := body.solid
  takes size rest text follows starts := by
    obtain ⟨pairs, text', yields, ahead, holds⟩ :=
      body.takes size rest text follows starts
    rw [← plain] at yields
    exact ⟨pairs, text', .rule_silent silent yields, ahead, holds⟩

/-- A rule that matches one token, up to where a gap opens. -/
theorem lexeme {name : ρ} {t : Token} {inner : List (Pair ρ)}
    (visible : g.silent name = false) (solid : layout.Solid t)
    (lexes : ∀ size after, (∀ c ∈ after.head?, layout.opens c = true) → g.Yields
      size (g.atomic name) (g.body name) (t ++ after) (some (inner, after))) :
    Takes layout (.rule name) [t] Anything (· = [.node name t inner]) where
  solid := List.forall_mem_singleton.mpr solid
  takes size rest text _ starts := by
    obtain ⟨after, rfl, opens, ahead⟩ := starts.cons
    exact ⟨_, after, .rule visible (lexes size after opens), ahead, rfl⟩

/-- The rule that matches the end of the input, with nothing after it. -/
theorem endOfInput {name : ρ} (visible : g.silent name = false)
    (body : g.body name = .endOfInput) :
    Takes layout (.rule name) [] (HeadIn []) (· = [.node name [] []]) where
  solid := nofun
  takes size rest text head starts := by
    cases rest with
    | cons t rest => cases head t rfl
    | nil =>
        obtain rfl : text = [] := starts.2
        have ends : g.Yields size (g.atomic name) (g.body name) ([] ++ [])
            (some ([], [])) := by
          rw [body]
          exact .endOfInput
        exact ⟨_, [], .rule visible ends, starts.ahead, rfl⟩

section Repetition

variable {α : Type} {items : List α} {parts : List (List Token)}
variable {results : α → List (Pair ρ) → Prop}

/-- The rounds of a repetition, after the first. -/
theorem many
    (each : List.Forall₂
      (fun a part => Takes layout e part follow (results a)) items parts)
    (between : ∀ part ∈ parts, ∀ more, follow (part ++ more)) (size : Nat)
    {rest : List Token} (last : follow rest) (ends : Refuses layout e rest)
    {text : List Char} (ahead : layout.Ahead (parts.flatten ++ rest) text) :
    ∃ pairs text',
      g.Yields size false (.many (.seq .trivia e)) text (some (pairs, text')) ∧
        layout.Ahead rest text' ∧
        ∃ rounds, pairs = rounds.flatten ∧ List.Forall₂ results items rounds := by
  induction each generalizing text with
  | nil =>
      obtain ⟨text', skipped, starts⟩ := ahead.skip size
      exact ⟨[], text, .many_done (.seq_none_later skipped (ends size text' starts)),
        ahead, [], rfl, .nil⟩
  | @cons a part items parts first _ ih =>
      obtain ⟨text', skipped, starts⟩ := ahead.skip size
      rw [List.flatten_cons, List.append_assoc] at starts
      have follows : follow (parts.flatten ++ rest) := by
        cases parts with
        | nil => exact last
        | cons next parts =>
            rw [List.flatten_cons, List.append_assoc]
            exact between next (List.mem_cons_of_mem _ List.mem_cons_self) _
      obtain ⟨front, text'', yields, ahead', holds⟩ :=
        first.takes size _ text' follows starts
      obtain ⟨back, text₃, yields', ahead'', rounds, rfl, later⟩ :=
        ih (fun other member => between other (List.mem_cons_of_mem _ member)) ahead'
      exact ⟨front ++ rounds.flatten, text₃, .many_more (.seq skipped yields) yields',
        ahead'', front :: rounds, rfl,
        .cons holds later⟩

/-- A repetition takes part after part, and stops where another is refused. -/
theorem star
    (each : List.Forall₂
      (fun a part => Takes layout e part follow (results a)) items parts)
    (between : ∀ part ∈ parts, ∀ more, follow (part ++ more))
    (ends : ∀ rest, follow' rest → follow rest ∧ Refuses layout e rest) :
    Takes layout (.star e) parts.flatten follow'
      fun pairs => ∃ rounds, pairs = rounds.flatten ∧
        List.Forall₂ results items rounds where
  solid := by
    intro t member
    obtain ⟨part, listed, inPart⟩ := List.mem_flatten.mp member
    clear between
    induction each with
    | nil => cases listed
    | cons first _ ih =>
        cases List.mem_cons.mp listed with
        | inl same => exact first.solid t (same ▸ inPart)
        | inr later => exact ih (List.mem_flatten_of_mem later inPart) later
  takes size rest text follows starts := by
    obtain ⟨last, refuses⟩ := ends rest follows
    cases each with
    | nil =>
        exact ⟨[], text, .optional_absent (.seq_none (refuses size text starts)),
          starts.ahead, [], rfl, .nil⟩
    | @cons a part items parts first each =>
        rw [List.flatten_cons, List.append_assoc] at starts
        have following : follow (parts.flatten ++ rest) := by
          cases parts with
          | nil => exact last
          | cons next parts =>
              rw [List.flatten_cons, List.append_assoc]
              exact between next (List.mem_cons_of_mem _ List.mem_cons_self) _
        obtain ⟨front, text', yields, ahead, holds⟩ :=
          first.takes size _ text following starts
        obtain ⟨back, text'', yields', ahead', rounds, rfl, later⟩ :=
          many each (fun other member =>
            between other (List.mem_cons_of_mem _ member)) size last refuses ahead
        exact ⟨front ++ rounds.flatten, text'', .optional (.seq yields yields'),
          ahead', front :: rounds, rfl,
          .cons holds later⟩

/-- Items with a separator between them. -/
theorem separated {sep : String} {a : α} {part : List Token}
    (solid : layout.Solid sep.toList)
    (first : Takes layout e part follow (results a))
    (each : List.Forall₂
      (fun a part => Takes layout e part follow (results a)) items parts)
    (between : ∀ more, follow (sep.toList :: more))
    (ends : ∀ rest, follow' rest → follow rest ∧ Refuses layout (.token sep) rest) :
    Takes layout (.sequence [e, .star (.sequence [.token sep, e])])
      (part ++ (parts.map fun part => sep.toList :: part).flatten) follow'
      fun pairs => ∃ rounds, pairs = rounds.flatten ∧
        List.Forall₂ results (a :: items) rounds := by
  have more : Takes layout (.star (.sequence [.token sep, e]))
      (parts.map fun part => sep.toList :: part).flatten follow'
      fun pairs => ∃ rounds, pairs = rounds.flatten ∧
        List.Forall₂ results items rounds := by
    apply star
    · rw [List.forall₂_map_right_iff]
      exact each.imp fun _ _ takes => token_cons solid takes
    · intro part member more
      obtain ⟨inner, -, rfl⟩ := List.mem_map.mp member
      exact between _
    · intro rest follows
      exact ⟨(ends rest follows).1, fun size text starts =>
        .seq_none ((ends rest follows).2 size text starts)⟩
  apply (first.append more ?_).imp
  · rintro pairs ⟨front, back, rfl, holds, rounds, rfl, later⟩
    exact ⟨front :: rounds, rfl, .cons holds later⟩
  · intro rest follows
    cases parts with
    | nil => exact (ends rest follows).1
    | cons next parts => exact between _

end Repetition

end Takes

/-- A literal without characters that open a gap is found in front of one only
inside the token there. -/
theorem not_prefix_append {opens : Char → Bool} {t next after : List Char}
    (closed : ∀ c ∈ t, opens c = false) (gap : ∀ c ∈ after.head?, opens c = true)
    (apart : ¬ t <+: next) : ¬ t <+: next ++ after := by
  intro begins
  rcases List.prefix_or_prefix_of_prefix begins (List.prefix_append next after)
    with short | long
  · exact apart short
  · -- the token is a beginning of the literal, which would go on in the gap
    obtain ⟨more, rfl⟩ := long
    rw [List.prefix_append_right_inj] at begins
    cases more with
    | nil =>
        rw [List.append_nil] at apart
        exact apart (List.prefix_refl next)
    | cons c more =>
        obtain ⟨tail, rfl⟩ := begins
        have closed' := closed c (List.mem_append_right next List.mem_cons_self)
        rw [gap c rfl] at closed'
        cases closed'

/-- Of several literals the first that the token begins with is matched, if it
is the whole token. -/
theorem Yields.choices {size : Nat} {isAtomic : Bool} {opens : Char → Bool}
    {options : List String} {t : String} {after : List Char}
    (found : options.find?
      (fun option => option.toList.isPrefixOf t.toList) = some t)
    (closed : ∀ option ∈ options, ∀ c ∈ option.toList, opens c = false)
    (gap : ∀ c ∈ after.head?, opens c = true) :
    g.Yields size isAtomic (.choices (options.map Peg.token)) (t.toList ++ after)
      (some ([], after)) := by
  induction options with
  | nil => cases found
  | cons option options ih =>
      have first : g.Yields size isAtomic (.token t) (t.toList ++ after)
          (some ([], after)) :=
        .literal _ _
      cases begins : option.toList.isPrefixOf t.toList with
      | true =>
          simp only [List.find?_cons, begins, Option.some.injEq] at found
          subst found
          cases options with
          | nil => exact first
          | cons other options => exact .choice_first first
      | false =>
          simp only [List.find?_cons, begins] at found
          have apart : ¬ option.toList <+: t.toList := by
            rw [← List.isPrefixOf_iff_prefix, begins]
            exact Bool.false_ne_true
          have refuses :
              g.Yields size isAtomic (.token option) (t.toList ++ after) none :=
            .literal_none (not_prefix_append (closed option List.mem_cons_self) gap apart)
          have later := ih found fun other member =>
            closed other (List.mem_cons_of_mem option member)
          cases options with
          | nil => cases found
          | cons other options => exact .choice_second refuses later

namespace Refuses

/-- A literal is refused where the next token does not begin with it. -/
theorem token {t : Token} (nonempty : t ≠ []) (closed : ∀ c ∈ t, layout.opens c = false)
    (apart : ∀ next ∈ ts.head?, ¬ t <+: next) : Refuses layout (.literal t) ts := by
  intro size text starts
  apply Yields.literal_none
  intro begins
  cases ts with
  | nil =>
      obtain rfl : text = [] := starts.2
      exact nonempty (List.prefix_nil.mp begins)
  | cons next ts =>
      obtain ⟨after, rfl, opens, -⟩ := starts.cons
      exact not_prefix_append closed opens (apart next rfl) begins

/-- A literal that the token begins with: the rest of the token, if there is
one, is what comes next. -/
theorem after_literal {l t : Token} (closed : ∀ c ∈ t, layout.opens c = false)
    (inside : ∀ more, more ≠ [] → t = l ++ more → Refuses layout e (more :: ts))
    (past : t = l → Refuses layout e ts) (nonempty : l ≠ [])
    (closed' : ∀ c ∈ l, layout.opens c = false) :
    Refuses layout (.seq (.literal l) (.seq .trivia e)) (t :: ts) := by
  by_cases begins : l <+: t
  · intro size text starts
    obtain ⟨more, rfl⟩ := begins
    cases more with
    | nil =>
        rw [List.append_nil] at starts past
        obtain ⟨after, rfl, -, ahead⟩ := starts.cons
        obtain ⟨text', skipped, starts'⟩ := ahead.skip size
        exact .seq_none_later (.literal l after)
          (.seq_none_later skipped (past rfl size text' starts'))
    | cons c more =>
        obtain ⟨solid, between, rest, rfl, apart, spaced⟩ := starts
        have starts' :
            layout.Starts ((c :: more) :: ts) (c :: more ++ (between ++ rest)) := by
          refine ⟨List.forall_mem_cons.mpr ⟨⟨List.cons_ne_nil c more, ?_⟩, ?_⟩,
            between, rest, rfl, apart, spaced⟩
          · rintro _ ⟨⟩
            exact closed c (List.mem_append_right l List.mem_cons_self)
          · exact fun other member => solid other (List.mem_cons_of_mem _ member)
        obtain ⟨text', skipped, starts''⟩ := starts'.ahead.skip size
        rw [List.append_assoc]
        exact .seq_none_later (.literal l _)
          (.seq_none_later skipped
            (inside _ (List.cons_ne_nil c more) rfl size text' starts''))
  · have apart : ∀ next ∈ (t :: ts).head?, ¬ l <+: next := by
      intro next head
      cases head
      exact begins
    exact fun size text starts =>
      .seq_none (token nonempty closed' apart size text starts)

/-- A sequence refuses what its first part refuses. -/
theorem seq (refuses : Refuses layout e ts) : Refuses layout (.seq e e') ts :=
  fun size text starts => .seq_none (refuses size text starts)

/-- A sequence is refused where a later part is. -/
theorem append (first : Takes layout e ts follow result) (follows : follow ts')
    (refuses : Refuses layout e' ts') :
    Refuses layout (.seq e (.seq .trivia e')) (ts ++ ts') := by
  intro size text starts
  obtain ⟨pairs, text', yields, ahead, -⟩ := first.takes size ts' text follows starts
  obtain ⟨text'', skipped, starts'⟩ := ahead.skip size
  exact .seq_none_later yields (.seq_none_later skipped (refuses size text'' starts'))

/-- A choice refuses what both alternatives refuse. -/
theorem choice (first : Refuses layout e ts) (second : Refuses layout e' ts) :
    Refuses layout (.choice e e') ts :=
  fun size text starts =>
    .choice_second (first size text starts) (second size text starts)

/-- A rule refuses what its body refuses. -/
theorem rule {name : ρ} (plain : g.atomic name = false)
    (body : Refuses layout (g.body name) ts) : Refuses layout (.rule name) ts := by
  intro size text starts
  apply Yields.rule_none
  rw [plain]
  exact body size text starts

end Refuses

end Grammar

end GraphEngine
