/-
Module: GraphEngine.Lib.PegTrees
Layer: Lib
Purpose: What pairs an expression leaves behind, operator by operator, and the
  parse of a whole input as a total function.
Trusted boundary: none
Main exports: Grammar.Leaves, Pair.Derived, Grammar.entered_of_leaves,
  Grammar.shape_of_leaves, Grammar.parse, Grammar.parse_run,
  Grammar.derived_of_parse
-/
import GraphEngine.Lib.Peg

namespace GraphEngine

variable {ρ : Type}

/-- A pair whose text and children come from one match of its rule's body. -/
def Pair.Derived (g : Grammar ρ) : Pair ρ → Prop
  | .node rule text children => g.Matches (g.atomic rule) (g.body rule) text children

namespace Grammar

variable {g : Grammar ρ}

/-- The pairs that a match outside atomic rules may leave. -/
def Leaves (g : Grammar ρ) (e : Peg ρ) (pairs : List (Pair ρ)) : Prop :=
  ∃ text, g.Matches false e text pairs

/-! ### Inversion -/

/-- A literal leaves no pairs. -/
theorem leaves_literal {text : List Char} {pairs : List (Pair ρ)} :
    Leaves g (.literal text) pairs ↔ pairs = [] := by
  constructor
  · rintro ⟨_, ⟨⟩⟩
    rfl
  · rintro rfl
    exact ⟨text, .literal text⟩

/-- A token leaves no pairs. -/
theorem leaves_token {text : String} {pairs : List (Pair ρ)} :
    Leaves g (.token text) pairs ↔ pairs = [] :=
  leaves_literal

/-- Trivia leave no pairs. -/
theorem leaves_trivia {pairs : List (Pair ρ)} : Leaves g .trivia pairs ↔ pairs = [] := by
  constructor
  · rintro ⟨_, ⟨⟩⟩
    rfl
  · rintro rfl
    exact ⟨[], .trivia []⟩

/-- The start leaves no pairs. -/
theorem leaves_startOfInput {pairs : List (Pair ρ)} :
    Leaves g .startOfInput pairs ↔ pairs = [] := by
  constructor
  · rintro ⟨_, ⟨⟩⟩
    rfl
  · rintro rfl
    exact ⟨[], .startOfInput⟩

/-- A rule with a token leaves one derived pair. -/
theorem leaves_rule {name : ρ} {pairs : List (Pair ρ)}
    (visible : g.silent name = false) :
    Leaves g (.rule name) pairs ↔ ∃ pair, pairs = [pair] ∧ pair.asRule = name ∧
      pair.Derived g := by
  constructor
  · rintro ⟨text, matched⟩
    cases matched with
    | rule body =>
        rw [Bool.false_or] at body
        refine ⟨.node name text _, ?_, rfl, body⟩
        simp [visible]
  · rintro ⟨⟨rule, text, children⟩, rfl, rfl, derived⟩
    have body : g.Matches (false || g.atomic rule) (g.body rule) text children := by
      rw [Bool.false_or]
      exact derived
    have matched := body.rule
    simp only [Pair.asRule] at visible
    simp only [visible, Bool.or_self, Bool.false_eq_true, if_false] at matched
    exact ⟨text, matched⟩

/-- A sequence leaves the pairs of its parts. -/
theorem leaves_seq {first second : Peg ρ} {pairs : List (Pair ρ)} :
    Leaves g (.seq first second) pairs ↔
      ∃ front back, pairs = front ++ back ∧ Leaves g first front ∧
        Leaves g second back := by
  constructor
  · rintro ⟨_, matched⟩
    cases matched with
    | seq head tail => exact ⟨_, _, rfl, ⟨_, head⟩, ⟨_, tail⟩⟩
  · rintro ⟨front, back, rfl, ⟨_, head⟩, ⟨_, tail⟩⟩
    exact ⟨_, .seq head tail⟩

/-- An option leaves no pairs or those of its body. -/
theorem leaves_optional {body : Peg ρ} {pairs : List (Pair ρ)} :
    Leaves g (.optional body) pairs ↔ pairs = [] ∨ Leaves g body pairs := by
  constructor
  · rintro ⟨_, matched⟩
    cases matched with
    | absent => exact .inl rfl
    | present inner => exact .inr ⟨_, inner⟩
  · rintro (rfl | ⟨_, inner⟩)
    · exact ⟨[], .absent⟩
    · exact ⟨_, .present inner⟩

/-- A repetition leaves what its rounds leave, one after the other. -/
theorem leaves_many {body : Peg ρ} {pairs : List (Pair ρ)} :
    Leaves g (.many body) pairs ↔
      ∃ rounds : List (List (Pair ρ)), pairs = rounds.flatten ∧
        ∀ round ∈ rounds, Leaves g body round := by
  constructor
  · rintro ⟨text, matched⟩
    generalize whole : Peg.many body = e at matched
    generalize outside : false = isAtomic at matched
    induction matched with
    | done => exact ⟨[], rfl, by simp⟩
    | more head tail _ ihTail =>
        cases whole
        cases outside
        obtain ⟨rounds, rfl, each⟩ := ihTail rfl rfl
        exact ⟨_ :: rounds, rfl, List.forall_mem_cons.mpr ⟨⟨_, head⟩, each⟩⟩
    | literal | char | startOfInput | endOfInput | trivia | rule | seq | choiceFirst
    | choiceSecond | absent | present | notAhead => cases whole
  · rintro ⟨rounds, rfl, each⟩
    induction rounds with
    | nil => exact ⟨[], .done⟩
    | cons round rounds ih =>
        obtain ⟨first, later⟩ := List.forall_mem_cons.mp each
        obtain ⟨_, head⟩ := first
        obtain ⟨_, tail⟩ := ih later
        exact ⟨_, .more head tail⟩

/-! ### Operators of rules that are not atomic -/

/-- A sequence of expressions leaves the pairs of the first and of the others. -/
theorem leaves_sequence_cons {e e' : Peg ρ} {es : List (Peg ρ)}
    {pairs : List (Pair ρ)} :
    Leaves g (.sequence (e :: e' :: es)) pairs ↔
      ∃ front back, pairs = front ++ back ∧ Leaves g e front ∧
        Leaves g (.sequence (e' :: es)) back := by
  have unfolded : Peg.sequence (e :: e' :: es) =
      .seq e (.seq .trivia (.sequence (e' :: es))) :=
    rfl
  simp only [unfolded, leaves_seq, leaves_trivia]
  constructor
  · rintro ⟨front, _, rfl, first, _, back, rfl, rfl, later⟩
    exact ⟨front, back, rfl, first, later⟩
  · rintro ⟨front, back, rfl, first, later⟩
    exact ⟨front, back, rfl, first, [], back, rfl, rfl, later⟩

/-- A literal at the front of a sequence leaves nothing. -/
theorem leaves_sequence_token {text : String} {e : Peg ρ} {es : List (Peg ρ)}
    {pairs : List (Pair ρ)} :
    Leaves g (.sequence (.token text :: e :: es)) pairs ↔
      Leaves g (.sequence (e :: es)) pairs := by
  rw [leaves_sequence_cons]
  simp [leaves_token]

/-- A rule at the front of a sequence leaves its pair. -/
theorem leaves_sequence_rule {name : ρ} (visible : g.silent name = false)
    {e : Peg ρ} {es : List (Peg ρ)} {pairs : List (Pair ρ)} :
    Leaves g (.sequence (.rule name :: e :: es)) pairs ↔
      ∃ pair rest, pairs = pair :: rest ∧ pair.asRule = name ∧ pair.Derived g ∧
        Leaves g (.sequence (e :: es)) rest := by
  rw [leaves_sequence_cons]
  simp only [leaves_rule visible]
  constructor
  · rintro ⟨_, rest, rfl, ⟨pair, rfl, rule, derived⟩, later⟩
    exact ⟨pair, rest, rfl, rule, derived, later⟩
  · rintro ⟨pair, rest, rfl, rule, derived, later⟩
    exact ⟨[pair], rest, rfl, ⟨pair, rfl, rule, derived⟩, later⟩

/-- A sequence of one leaves its pairs. -/
theorem leaves_sequence_singleton {e : Peg ρ} {pairs : List (Pair ρ)} :
    Leaves g (.sequence [e]) pairs ↔ Leaves g e pairs :=
  Iff.rfl

/-- A repetition leaves the pairs of its rounds. -/
theorem leaves_star {e : Peg ρ} {pairs : List (Pair ρ)} :
    Leaves g (.star e) pairs ↔
      ∃ rounds : List (List (Pair ρ)), pairs = rounds.flatten ∧
        ∀ round ∈ rounds, Leaves g e round := by
  rw [Peg.star, leaves_optional]
  simp only [leaves_seq, leaves_many, leaves_trivia]
  constructor
  · rintro (rfl | ⟨front, _, rfl, first, rounds, rfl, each⟩)
    · exact ⟨[], rfl, by simp⟩
    · refine ⟨front :: rounds, rfl,
        List.forall_mem_cons.mpr ⟨first, fun round member => ?_⟩⟩
      obtain ⟨_, back, rfl, rfl, later⟩ := each round member
      exact later
  · rintro ⟨rounds, rfl, each⟩
    cases rounds with
    | nil => exact .inl rfl
    | cons round rounds =>
        obtain ⟨first, later⟩ := List.forall_mem_cons.mp each
        exact .inr ⟨round, _, rfl, first, rounds, rfl,
          fun other member => ⟨[], other, rfl, rfl, later other member⟩⟩

/-- The children of a derived pair of a rule that is not atomic. -/
theorem leaves_of_derived {rule : ρ} {text : List Char} {children : List (Pair ρ)}
    (derived : (Pair.node rule text children).Derived g) (plain : g.atomic rule = false) :
    Leaves g (g.body rule) children := by
  rw [Pair.Derived, plain] at derived
  exact ⟨text, derived⟩

/-! ### Shapes -/

end Grammar

namespace Peg

/-- The rules that an expression refers to. -/
def entered : Peg ρ → List ρ
  | .rule name => [name]
  | .seq first second | .choice first second => first.entered ++ second.entered
  | .optional body | .many body => body.entered
  | _ => []

/-- The rules of the pairs that an expression can leave, in order, where there
are finitely many ways. -/
def shapes : Peg ρ → Option (List (List ρ))
  | .rule name => some [[name]]
  | .seq first second =>
      first.shapes.bind fun fronts => second.shapes.map fun backs =>
        fronts.flatMap fun front => backs.map fun back => front ++ back
  | .choice first second =>
      first.shapes.bind fun ways => second.shapes.map fun others => ways ++ others
  | .optional body => body.shapes.map fun ways => [] :: ways
  | .many _ => none
  | _ => some [[]]

end Peg

namespace Grammar

variable {g : Grammar ρ}

/-- Every pair left behind is a derived pair of a rule that the expression
refers to, if need be by way of silent rules. -/
theorem entered_of_leaves {rules : List ρ}
    (closed : ∀ name ∈ rules, g.silent name = true →
      ∀ inner ∈ (g.body name).entered, inner ∈ rules) {e : Peg ρ}
    (refers : ∀ name ∈ e.entered, name ∈ rules) {pairs : List (Pair ρ)}
    (leaves : Leaves g e pairs) :
    ∀ pair ∈ pairs, pair.asRule ∈ rules ∧ g.silent pair.asRule = false ∧
      pair.Derived g := by
  obtain ⟨text, matched⟩ := leaves
  obtain ⟨isAtomic, outside⟩ : ∃ isAtomic, false = isAtomic := ⟨_, rfl⟩
  rw [outside] at matched
  induction matched with
  | literal | char | startOfInput | endOfInput | trivia | absent | done | notAhead => simp
  | @rule _ name _ _ body ih =>
      subst outside
      rw [Bool.false_or] at body
      have listed := refers name List.mem_cons_self
      cases kind : g.silent name with
      | false => simp [Pair.asRule, Pair.Derived, listed, kind, body]
      | true =>
          cases plain : g.atomic name with
          | true =>
              rw [plain] at body
              simp [body.pairs_eq_nil]
          | false =>
              rw [Bool.false_or, if_pos rfl]
              exact ih (closed name listed kind) (by rw [plain]; rfl)
  | seq _ _ ihHead ihTail =>
      simp only [Peg.entered, List.mem_append] at refers
      intro pair member
      rcases List.mem_append.mp member with front | back
      · exact ihHead (fun name here => refers name (.inl here)) outside pair front
      · exact ihTail (fun name here => refers name (.inr here)) outside pair back
  | choiceFirst _ ih =>
      simp only [Peg.entered, List.mem_append] at refers
      exact ih (fun name here => refers name (.inl here)) outside
  | choiceSecond _ ih =>
      simp only [Peg.entered, List.mem_append] at refers
      exact ih (fun name here => refers name (.inr here)) outside
  | present _ ih => exact ih refers outside
  | more _ _ ihHead ihTail =>
      intro pair member
      rcases List.mem_append.mp member with front | back
      · exact ihHead refers outside pair front
      · exact ihTail refers outside pair back

/-- The rules of the pairs left behind are in one of the orders foreseen. -/
theorem shape_of_leaves {e : Peg ρ} (visible : ∀ name ∈ e.entered, g.silent name = false)
    {shapes : List (List ρ)} (finite : e.shapes = some shapes) {pairs : List (Pair ρ)}
    (leaves : Leaves g e pairs) : pairs.map Pair.asRule ∈ shapes := by
  obtain ⟨text, matched⟩ := leaves
  generalize outside : false = isAtomic at matched
  induction matched generalizing shapes with
  | literal | char | startOfInput | endOfInput | trivia | notAhead =>
      cases finite
      simp
  | rule body ih =>
      subst outside
      cases finite
      simp [visible _ List.mem_cons_self, Pair.asRule]
  | seq _ _ ihHead ihTail =>
      simp only [Peg.entered, List.mem_append] at visible
      simp only [Peg.shapes, Option.bind_eq_some_iff, Option.map_eq_some_iff] at finite
      obtain ⟨fronts, foreseen, backs, foreseen', rfl⟩ := finite
      rw [List.map_append, List.mem_flatMap]
      refine ⟨_, ihHead (fun name here => visible name (.inl here)) foreseen outside, ?_⟩
      exact List.mem_map_of_mem
        (ihTail (fun name here => visible name (.inr here)) foreseen' outside)
  | choiceFirst _ ih =>
      simp only [Peg.entered, List.mem_append] at visible
      simp only [Peg.shapes, Option.bind_eq_some_iff, Option.map_eq_some_iff] at finite
      obtain ⟨ways, foreseen, others, _, rfl⟩ := finite
      exact List.mem_append_left _
        (ih (fun name here => visible name (.inl here)) foreseen outside)
  | choiceSecond _ ih =>
      simp only [Peg.entered, List.mem_append] at visible
      simp only [Peg.shapes, Option.bind_eq_some_iff, Option.map_eq_some_iff] at finite
      obtain ⟨ways, _, others, foreseen, rfl⟩ := finite
      exact List.mem_append_right _
        (ih (fun name here => visible name (.inr here)) foreseen outside)
  | absent =>
      simp only [Peg.shapes, Option.map_eq_some_iff] at finite
      obtain ⟨ways, _, rfl⟩ := finite
      exact List.mem_cons_self
  | present _ ih =>
      simp only [Peg.shapes, Option.map_eq_some_iff] at finite
      obtain ⟨ways, foreseen, rfl⟩ := finite
      exact List.mem_cons_of_mem _ (ih visible foreseen outside)
  | done | more => cases finite

/-! ### Children of derived pairs -/

section Children

variable {rule : ρ} {text : List Char} {children : List (Pair ρ)}

/-- Inside an atomic rule there are no pairs. -/
theorem children_of_atomic (derived : (Pair.node rule text children).Derived g)
    (atomic : g.atomic rule = true) : children = [] := by
  rw [Pair.Derived, atomic] at derived
  exact derived.pairs_eq_nil

/-- The children of a derived pair are of rules that its body refers to. -/
theorem entered_of_derived (derived : (Pair.node rule text children).Derived g)
    (plain : g.atomic rule = false) (rules : List ρ)
    (refers : ∀ name ∈ (g.body rule).entered, name ∈ rules)
    (visible : ∀ name ∈ rules, g.silent name = false) :
    ∀ child ∈ children, child.asRule ∈ rules ∧ child.Derived g := by
  intro child member
  have closed : ∀ name ∈ rules, g.silent name = true →
      ∀ inner ∈ (g.body name).entered, inner ∈ rules := by
    intro name listed silent
    rw [visible name listed] at silent
    cases silent
  obtain ⟨listed, _, inner⟩ :=
    entered_of_leaves closed refers (leaves_of_derived derived plain) child member
  exact ⟨listed, inner⟩

/-- The rules of a derived pair's children are one of the shapes of its body. -/
theorem shape_of_derived (derived : (Pair.node rule text children).Derived g)
    (plain : g.atomic rule = false)
    (visible : ∀ name ∈ (g.body rule).entered, g.silent name = false)
    {shapes : List (List ρ)} (finite : (g.body rule).shapes = some shapes) :
    children.map Pair.asRule ∈ shapes :=
  shape_of_leaves visible finite (leaves_of_derived derived plain)

omit g in
/-- One child, of one of a few rules. -/
theorem only_child {rules : List ρ}
    (shape : children.map Pair.asRule ∈ rules.map fun rule => [rule]) :
    ∃ child, children = [child] ∧ child.asRule ∈ rules := by
  obtain ⟨rule, member, same⟩ := List.mem_map.mp shape
  obtain ⟨child, rfl, rfl⟩ := List.map_eq_singleton_iff.mp same.symm
  exact ⟨child, rfl, member⟩

omit g in
/-- The first child, where every shape foreseen begins with the same rule. -/
theorem first_child {shapes : List (List ρ)} {first : ρ}
    (shape : children.map Pair.asRule ∈ shapes)
    (begins : ∀ rules ∈ shapes, rules.head? = some first) :
    ∃ child rest, children = child :: rest ∧ child.asRule = first := by
  have found := begins _ shape
  cases children with
  | nil => cases found
  | cons child rest => exact ⟨child, rest, rfl, Option.some.inj found⟩

omit g in
/-- A child is smaller than its parent, which is what a walk over the tree ends
by. -/
theorem size_lt_of_mem [SizeOf ρ] {child : Pair ρ} (member : child ∈ children) :
    sizeOf child < sizeOf (Pair.node rule text children) := by
  have := List.sizeOf_lt_of_mem member
  simp only [Pair.node.sizeOf_spec]
  omega

end Children

/-! ### Texts of atomic rules -/

/-- A character class matches one of its characters. -/
theorem text_of_char {isAtomic : Bool} {accepts : Char → Bool} {text : List Char}
    {pairs : List (Pair ρ)}
    (matched : Matches g isAtomic (.char accepts) text pairs) :
    ∃ c, accepts c = true ∧ text = [c] := by
  cases matched with
  | char accepted => exact ⟨_, accepted, rfl⟩

/-- A literal matches itself. -/
theorem text_of_literal {isAtomic : Bool} {text text' : List Char} {pairs : List (Pair ρ)}
    (matched : Matches g isAtomic (.literal text) text' pairs) : text' = text := by
  cases matched
  rfl

/-- An alternative of literals matches one of them. -/
theorem text_of_tokens {isAtomic : Bool} {tokens : List String} (some : tokens ≠ [])
    {text : List Char} {pairs : List (Pair ρ)}
    (matched : Matches g isAtomic (.choices (tokens.map .token)) text pairs) :
    ∃ token ∈ tokens, String.ofList text = token := by
  induction tokens with
  | nil => exact absurd rfl some
  | cons first others ih =>
      cases others with
      | nil =>
          obtain rfl := text_of_literal matched
          exact ⟨first, List.mem_cons_self, String.ofList_toList⟩
      | cons second others =>
          cases matched with
          | choiceFirst chosen =>
              obtain rfl := text_of_literal chosen
              exact ⟨first, List.mem_cons_self, String.ofList_toList⟩
          | choiceSecond chosen =>
              obtain ⟨token, member, same⟩ := ih (List.cons_ne_nil _ _) chosen
              exact ⟨token, List.mem_cons_of_mem _ member, same⟩

/-- A repetition of a class matches characters of it. -/
theorem text_of_many_char {isAtomic : Bool} {accepts : Char → Bool}
    {text : List Char} {pairs : List (Pair ρ)}
    (matched : Matches g isAtomic (.many (.char accepts)) text pairs) :
    ∀ c ∈ text, accepts c = true := by
  generalize whole : Peg.many (.char accepts) = e at matched
  induction matched with
  | done => simp
  | more head _ _ ihTail =>
      cases whole
      obtain ⟨c, accepted, rfl⟩ := text_of_char head
      simpa [accepted] using ihTail rfl
  | literal | char | startOfInput | endOfInput | trivia | rule | seq | choiceFirst
  | choiceSecond | absent | present | notAhead => cases whole

/-- A word is not empty. -/
theorem text_of_atLeastOnce {isAtomic : Bool} {accepts : Char → Bool}
    {text : List Char} {pairs : List (Pair ρ)}
    (matched : Matches g isAtomic (.atLeastOnce (.char accepts)) text pairs) :
    text ≠ [] ∧ ∀ c ∈ text, accepts c = true := by
  cases matched with
  | seq head tail =>
      obtain ⟨c, accepted, rfl⟩ := text_of_char head
      have later := text_of_many_char tail
      simp only [List.cons_append, List.nil_append, ne_eq, reduceCtorEq,
        not_false_eq_true, true_and, List.forall_mem_cons]
      exact ⟨accepted, later⟩

/-! ### Whole inputs -/

/-- The parse of an input from a start rule. -/
def parse (g : Grammar ρ) (top maxDepth : Nat) (start : ρ) (source : List Char) :
    Outcome ρ :=
  (run g source.length (fuelFor top maxDepth source.length top 1 + 1) false
    (.rule start) source).join

variable {solid : ρ → Bool} {rank : ρ → Nat} {top maxDepth : Nat}

/-- The interpreter comes to an end on every input. -/
theorem parse_run (ranked : g.Ranked solid rank top maxDepth) (start : ρ)
    (source : List Char) :
    run g source.length (fuelFor top maxDepth source.length top 1 + 1) false
      (.rule start) source =
      some (parse g top maxDepth start source) := by
  have ended : (run g source.length
      (fuelFor top maxDepth source.length top 1 + 1) false (.rule start)
      source).isSome :=
    run_isSome ranked rfl (ranked.leftBelow_top (.rule start)) (Nat.lt_succ_self _)
  obtain ⟨outcome, ran⟩ := Option.isSome_iff_exists.mp ended
  rw [parse, ran]
  rfl

/-- A successful parse from a rule with a token yields one derived pair of that
rule. -/
theorem derived_of_parse {start : ρ} {source rest : List Char}
    {pairs : List (Pair ρ)} (visible : g.silent start = false)
    (parsed : parse g top maxDepth start source = some (pairs, rest)) :
    ∃ pair, pairs = [pair] ∧ pair.asRule = start ∧ pair.Derived g := by
  rw [parse, Option.join_eq_some_iff] at parsed
  obtain ⟨text, _, matched⟩ := matches_of_run parsed
  exact (leaves_rule visible).mp ⟨text, matched⟩

end Grammar

end GraphEngine
