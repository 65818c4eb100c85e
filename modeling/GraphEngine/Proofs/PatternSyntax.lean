/-
Module: GraphEngine.Proofs.PatternSyntax
Layer: Proofs
Purpose: The tokens of a pattern are parsed to the pattern: nodes with their
  labels and property maps, edges with their brackets and hops, and the chain
  that these form.
Trusted boundary: none
Main exports: refuses_tok, refuses_ident, WalkedOr, takes_nodePattern,
  takes_edgePattern, takes_pattern
-/
import GraphEngine.Lib.Collections
import GraphEngine.Proofs.Lexemes

namespace GraphEngine

open Grammar (Yields Takes Refuses Anything HeadIn Both Wraps headIn_cons)
open DslParser

/-! ### Alternatives that are not there -/

section Refused

variable {ts allowed : List Token}

theorem refuses_tok {spelling : String} (head : HeadIn allowed ts)
    (apart : apartFrom spelling allowed = true) :
    Refuses dslLayout (.token spelling) ts := .token_of_headIn head apart

theorem takes_tok (spelling : String)
    (solid : ((tok spelling).head?.any fun c => !opensGap c) = true) :
    Takes dslLayout (.sequence [.token spelling]) [tok spelling] Anything (· = []) :=
  .token (solid_of solid)

/-- No identifier begins with these tokens. -/
def noNames (others : List Token) : Bool :=
  others.all fun other => other.head?.all fun c => !isIdentStart c

theorem refuses_ident (head : ∀ t ∈ ts.head?, ∀ c ∈ t.head?, isIdentStart c = false) :
    Refuses dslLayout (.rule .ident) ts :=
  .word rfl head

theorem head_of_noNames (head : HeadIn allowed ts) (apart : noNames allowed = true) :
    ∀ t ∈ ts.head?, ∀ c ∈ t.head?, isIdentStart c = false := by
  intro t member c begins
  have first := List.all_eq_true.mp apart t (head t member)
  rw [begins, Option.all_some, Bool.not_eq_true'] at first
  exact first

theorem refuses_ident_of_head (head : HeadIn allowed ts)
    (apart : noNames allowed = true) :
    Refuses dslLayout (.rule .ident) ts := refuses_ident (head_of_noNames head apart)

theorem refuses_edgeAlias (head : HeadIn allowed ts) (apart : noNames allowed = true) :
    Refuses dslLayout (.rule .edgeAlias) ts := fun _ _ starts =>
  .rule_none
    (.rule_none (.seq_none (.char_none (starts.head (head_of_noNames head apart)))))

end Refused

/-! ### Walks -/

section Walks

variable {α : Type} {rule : DslRule} {walk : Pair DslRule → Except PanicMessage α}
variable {a default : α}
variable {pairs : List (Pair DslRule)}

/-- The pair of a rule, or none, which stands for the default. -/
def WalkedOr (default : α) (rule : DslRule)
    (walk : Pair DslRule → Except PanicMessage α) (a : α)
    (pairs : List (Pair DslRule)) : Prop :=
  pairs = [] ∧ a = default ∨ Walked rule walk a pairs

theorem Walked.mapM (walked : Walked rule walk a pairs) : pairs.mapM walk = .ok [a] := by
  obtain ⟨text, children, rfl, walks⟩ := walked
  rw [List.mapM_cons, walks]
  rfl

/-- A part that may be left out is not mistaken for what comes after it. -/
theorem takes_absent {allowed : List Token} {spelling : String} {e : Peg DslRule}
    (plain : rule.atomic = false) (body : rule.body = .seq (.token spelling) e)
    (apart : apartFrom spelling allowed = true) :
    Takes dslLayout (.optional (.rule rule)) [] (HeadIn allowed)
      (WalkedOr default rule walk default) := by
  have none : Takes dslLayout (.optional (.rule rule)) [] (HeadIn allowed) (· = []) := by
    apply Takes.absent
    intro rest head
    have refused : Refuses dslLayout (.seq (.token spelling) e) rest :=
      .seq (refuses_tok head apart)
    rw [← body] at refused
    exact .rule plain refused
  exact none.imp fun pairs empty => .inl ⟨empty, rfl⟩

section Folds

variable {σ : Type} {f : α → σ} {step : σ → Pair DslRule → Except PanicMessage σ}

/-- A part that is walked to a value adds that value to what is known. -/
theorem Walked.foldlM {start : σ} (walked : Walked rule walk a pairs)
    (adds : ∀ text children, step start (.node rule text children) =
      (walk (.node rule text children)).map f) :
    pairs.foldlM step start = .ok (f a) := by
  obtain ⟨text, children, rfl, walks⟩ := walked
  rw [List.foldlM_cons, adds, walks]
  rfl

theorem WalkedOr.foldlM (walked : WalkedOr default rule walk a pairs)
    (adds : ∀ text children, step (f default) (.node rule text children) =
      (walk (.node rule text children)).map f) :
    pairs.foldlM step (f default) = .ok (f a) := by
  rcases walked with ⟨rfl, rfl⟩ | walked
  · rfl
  · exact walked.foldlM adds

/-- A part that is walked to a value, or to none where there is no pair. -/
theorem WalkedOr.foldlM_some {b : Option α} {f : Option α → σ}
    (walked : WalkedOr none rule (fun pair => (walk pair).map some) b pairs)
    (adds : ∀ text children, step (f none) (.node rule text children) =
      (walk (.node rule text children)).map fun a => f (some a)) :
    pairs.foldlM step (f none) = .ok (f b) := by
  apply walked.foldlM
  intro text children
  rw [adds]
  cases walk (.node rule text children) <;> rfl

end Folds

/-- A walk over the pairs of several rounds. -/
theorem mapM_of_rounds {β : Type} {items : List β} {values : β → List α}
    {rounds : List (List (Pair DslRule))}
    (each : List.Forall₂
      (fun item round => round.mapM walk = .ok (values item)) items rounds) :
    rounds.flatten.mapM walk = .ok (items.flatMap values) := by
  induction each with
  | nil => rfl
  | cons first _ ih =>
      rw [List.flatten_cons, List.mapM_append, first, ih]
      rfl

/-- One pair for each item. -/
theorem mapM_of_walked {items : List α} {rounds : List (List (Pair DslRule))}
    (each : List.Forall₂ (Walked rule walk) items rounds) :
    rounds.flatten.mapM walk = .ok items := by
  rw [mapM_of_rounds (each.imp fun _ _ walked => walked.mapM), List.flatMap_singleton']

end Walks

@[simp] theorem asStr_tok (rule : DslRule) (name : String)
    (children : List (Pair DslRule)) :
    (Pair.node rule (tok name) children).asStr = name := String.ofList_toList

/-! ### Types -/

/-- The pair of a label or an edge type. -/
def typePairs : Option String → List (Pair DslRule)
  | none => []
  | some name => [.node .ident (tok name) []]

theorem headIn_typeTokens {allowed rest : List Token} (name : Option String)
    (head : HeadIn allowed rest) :
    HeadIn (tok ":" :: allowed) (typeTokens name ++ rest) := by
  cases name with
  | none => exact head.mono (List.subset_cons_self _ _)
  | some name => exact headIn_cons List.mem_cons_self _

/-- A label or an edge type is taken, also where it is left out. -/
theorem takes_type {allowed : List Token} {name : Option String}
    (ident : ∀ n ∈ name, isIdent n = true) (apart : apartFrom ":" allowed = true) :
    Takes dslLayout (.optional (.sequence [.token ":", .rule .ident]))
      (typeTokens name) (HeadIn allowed)
      (· = typePairs name) := by
  cases name with
  | none => exact .absent fun rest head => .seq (refuses_tok head apart)
  | some name =>
      have named : Takes dslLayout (.sequence [.token ":", .rule .ident])
          [tok ":", tok name] Anything
          (· = [.node .ident (tok name) []]) :=
            .token_cons (solid_of rfl) (takes_ident (ident name rfl))
      exact (named.before fun _ _ => trivial).present

/-! ### Nodes -/

/-- A filter in braces is taken. -/
theorem takes_propertyKv {filter : PropertyFilter} {ts : List Token}
    (writable : filter.Writable) (tokens : KvTokens filter ts) :
    Takes dslLayout (.rule .propertyKv) ts Anything
      (Walked .propertyKv parsePropertyKv filter) := by
  obtain ⟨equality, t, literal, rfl⟩ := tokens
  have value : Takes dslLayout (.sequence [.token ":", .rule .literal])
      [tok ":", t] Anything
      (Walked .literal parseLiteral filter.value) :=
        .token_cons (solid_of rfl) (takes_literal writable.2 literal)
  have body : Takes dslLayout (.sequence [.rule .ident, .token ":", .rule .literal])
      ([tok filter.property] ++ [tok ":", t])
      Anything (Both (· = [.node .ident (tok filter.property) []])
        (Walked .literal parseLiteral filter.value)) :=
    .cons (takes_ident writable.1) value fun _ _ => trivial
  apply (Takes.rule rfl rfl body).imp
  rintro pairs ⟨text, children, rfl, _, _, rfl, rfl, text', children', rfl, walks⟩
  refine ⟨text, _, rfl, ?_⟩
  have walk : parsePropertyKv (.node .propertyKv text
      [.node .ident (tok filter.property) [], .node .literal text' children']) =
        (parseLiteral (.node .literal text' children')).bind fun value =>
          .ok { property := (Pair.node DslRule.ident (tok filter.property) []).asStr,
                op := .eq, value := value } := rfl
  rw [List.singleton_append, walk, walks, asStr_tok, ← equality]
  rfl

/-- The pairs of a list with separators. -/
theorem takes_propertyMap {filters : List PropertyFilter} {ts : List Token}
    (writable : ∀ filter ∈ filters, filter.Writable) (tokens : MapTokens filters ts) :
    Takes dslLayout (.optional (.rule .propertyMap)) ts (HeadIn [tok ")"])
      (WalkedOr [] .propertyMap parsePropertyMap filters) := by
  rcases tokens with ⟨rfl, rfl⟩ | ⟨parts, each, rfl⟩
  · exact takes_absent rfl rfl (by decide)
  · have entries : Takes dslLayout
        (.optional (.sequence [.rule .propertyKv,
              .star (.sequence [.token ",", .rule .propertyKv])])) (sepBy "," parts)
        (HeadIn [tok "\x7d"])
        fun pairs => ∃ rounds, pairs = rounds.flatten ∧
          List.Forall₂ (Walked .propertyKv parsePropertyKv) filters rounds := by
      have takes :=
        ((List.forall₂_and_left _ _).mpr ⟨writable, each⟩).imp fun _ _ entry =>
        takes_propertyKv entry.1 entry.2
      cases takes with
      | nil =>
          have none : Takes dslLayout
              (.optional (.sequence [.rule .propertyKv,
                    .star (.sequence [.token ",", .rule .propertyKv])])) []
              (HeadIn [tok "\x7d"]) (· = []) :=
            .absent fun rest head =>
              .seq (.rule rfl (.seq (refuses_ident_of_head head (by decide))))
          exact none.imp fun pairs empty => ⟨[], empty, .nil⟩
      | cons first later =>
          exact (Takes.separated (solid_of rfl) first later (fun _ => trivial)
            fun rest head =>
            ⟨trivial, refuses_tok head (by decide)⟩).present
    have closing : Takes dslLayout (.sequence [.token "\x7d"]) [tok "\x7d"]
        (HeadIn [tok ")"]) (· = []) :=
      (takes_tok "\x7d" rfl).before fun _ _ => trivial
    have body : Takes dslLayout DslRule.propertyMap.body
        (tok "\x7b" :: (sepBy "," parts ++ [tok "\x7d"]))
        (HeadIn [tok ")"]) (Both _ (· = [])) :=
      .token_cons (solid_of rfl)
        (.cons entries closing fun _ _ => headIn_cons List.mem_cons_self _)
    apply (Takes.rule rfl rfl body).present.imp
    rintro pairs ⟨text, children, rfl, _, _, rfl, ⟨rounds, rfl, walked⟩, rfl⟩
    refine .inr ⟨text, _, rfl, ?_⟩
    rw [List.append_nil]
    exact mapM_of_walked walked

theorem headIn_mapTokens {filters : List PropertyFilter} {ts rest : List Token}
    (tokens : MapTokens filters ts) (head : HeadIn [tok ")"] rest) :
    HeadIn [tok "\x7b", tok ")"] (ts ++ rest) := by
  rcases tokens with ⟨-, rfl⟩ | ⟨parts, -, rfl⟩
  · exact head.mono (List.subset_cons_self _ _)
  · exact headIn_cons List.mem_cons_self _

theorem addNodePart_type (node : NodePattern) (label : Option Label) :
    (typePairs (label.map Label.name)).foldlM addNodePart { node with label := none } =
      .ok { node with label := label } := by
  cases label with
  | none => rfl
  | some label =>
      have walk : (typePairs ((some label).map Label.name)).foldlM addNodePart
          { node with label := none } =
          .ok { node with
            label :=
              some { name := (Pair.node DslRule.ident (tok label.name) []).asStr } } :=
        rfl
      rw [walk, asStr_tok]

/-- A node is taken and walked as itself. -/
theorem takes_nodePattern {node : NodePattern} {ts : List Token}
    (writable : node.Writable) (tokens : NodeTokens node ts) :
    Takes dslLayout (.rule .nodePattern) ts Anything
      (Walked .nodePattern parseNodePattern node) := by
  obtain ⟨propertyMap, entries, rfl⟩ := tokens
  have closing := takes_tok ")" rfl
  have map : Takes dslLayout (.sequence [.optional (.rule .propertyMap), .token ")"])
      (propertyMap ++ [tok ")"]) Anything
      (Both (WalkedOr [] .propertyMap parsePropertyMap node.propertyFilters) (· = [])) :=
    .cons (takes_propertyMap writable.filters entries) closing fun _ _ =>
      headIn_cons List.mem_cons_self _
  have label : ∀ name ∈ node.label.map Label.name, isIdent name = true := by
    intro name member
    obtain ⟨label, present, rfl⟩ := Option.map_eq_some_iff.mp member
    exact writable.label label present
  have mapNext (rest : List Token) (_ : Anything rest) :
      HeadIn [tok "\x7b", tok ")"] (propertyMap ++ [tok ")"] ++ rest) := by
    rw [List.append_assoc]
    exact headIn_mapTokens entries (headIn_cons List.mem_cons_self _)
  have types := (takes_type label (by decide)).cons map mapNext
  have parts := (takes_ident writable.aliasName).cons types fun _ _ => trivial
  have body : Takes dslLayout DslRule.nodePattern.body _ _ _ :=
    parts.token_cons (solid_of rfl)
  apply (Takes.rule rfl rfl body).imp
  rintro pairs ⟨text, _, rfl, _, parts, rfl, rfl, parsed⟩
  refine ⟨text, _, rfl, ?_⟩
  have walk : parseNodePattern
      (.node .nodePattern text (.node .ident (tok node.aliasName) [] :: parts)) =
      parts.foldlM addNodePart
        { aliasName := (Pair.node DslRule.ident (tok node.aliasName) []).asStr,
          label := none, propertyFilters := [] } := rfl
  rw [List.singleton_append, walk, asStr_tok]
  apply parsed.foldlM
  · rintro _ rfl
    exact addNodePart_type { node with propertyFilters := [] } node.label
  · intro later parsed
    apply parsed.foldlM
    · intro front walked
      have folded :
          front.foldlM addNodePart { node with propertyFilters := [] } = .ok node :=
        walked.foldlM (f := fun filters =>
          ({ node with propertyFilters := filters } : NodePattern)) fun _ _ => rfl
      exact folded
    · rintro _ rfl
      rfl

/-! ### Edges -/

theorem headIn_hopTokens {hops : HopRange} {ts rest : List Token}
    (tokens : HopTokens hops ts) (head : HeadIn [tok "]"] rest) :
    HeadIn [tok "*", tok "]"] (ts ++ rest) := by
  rcases tokens with ⟨-, rfl⟩ | ⟨min, max, -, -, rfl⟩
  · exact head.mono (List.subset_cons_self _ _)
  · exact headIn_cons List.mem_cons_self _

/-- The bounds of an edge are taken, also where they are left out. -/
theorem takes_hopRange {hops : HopRange} {ts : List Token}
    (fits : hops.min < 2 ^ 32) (fits' : hops.max < 2 ^ 32)
    (tokens : HopTokens hops ts) :
    Takes dslLayout (.optional (.rule .hopRange)) ts (HeadIn [tok "]"])
      (WalkedOr { min := 1, max := 1 } .hopRange parseHopRange hops) := by
  rcases tokens with ⟨rfl, rfl⟩ | ⟨min, max, least, most, rfl⟩
  · exact takes_absent rfl rfl (by decide)
  · have upper : Takes dslLayout (.sequence [.token "..", .rule .number])
        [tok "..", max] Anything
        (· = [.node .number max []]) := .token_cons (solid_of rfl) (takes_number most.1)
    have body : Takes dslLayout DslRule.hopRange.body
        (tok "*" :: ([min] ++ [tok "..", max])) Anything
        (Both (· = [.node .number min []]) (· = [.node .number max []])) :=
      .token_cons (solid_of rfl) (.cons (takes_number least.1) upper fun _ _ => trivial)
    apply ((Takes.rule rfl rfl body).before fun _ _ => trivial).present.imp
    rintro pairs ⟨text, _, rfl, _, _, rfl, rfl, rfl⟩
    refine .inr ⟨text, _, rfl, ?_⟩
    have walk : parseHopRange
        (.node .hopRange text [.node .number min [], .node .number max []]) =
        (parseNumber 32 (.node .number min [])).bind fun least =>
          (parseNumber 32 (.node .number max [])).bind fun most =>
            .ok { min := least, max := most } := rfl
    rw [List.singleton_append, walk, parseNumber_token least fits,
      parseNumber_token most fits']
    rfl

/-- The pair of an edge's alias. -/
def aliasPairs : Option String → List (Pair DslRule)
  | none => []
  | some name => [.node .edgeAlias (tok name) []]

/-- The alias of an edge is taken, also where it is left out. -/
theorem takes_alias {allowed : List Token} {name : Option String}
    (ident : ∀ n ∈ name, isIdent n = true) (apart : noNames allowed = true) :
    Takes dslLayout (.optional (.rule .edgeAlias)) (aliasTokens name) (HeadIn allowed)
      (· = aliasPairs name) := by
  cases name with
  | none => exact .absent fun rest head => refuses_edgeAlias head apart
  | some name =>
      exact ((takes_edgeAlias (ident name rfl)).before fun _ _ => trivial).present

theorem addEdgePart_alias (edge : EdgePattern) (name : Option String) :
    (aliasPairs name).foldlM addEdgePart { edge with aliasName := none } =
      .ok { edge with aliasName := name } := by
  cases name with
  | none => rfl
  | some name =>
      have walk : (aliasPairs (some name)).foldlM addEdgePart
          { edge with aliasName := none } =
          .ok { edge with
            aliasName := some (Pair.node DslRule.edgeAlias (tok name) []).asStr } :=
        rfl
      rw [walk, asStr_tok]

theorem addEdgePart_type (edge : EdgePattern) (edgeType : Option EdgeType) :
    (typePairs (edgeType.map EdgeType.name)).foldlM addEdgePart
      { edge with edgeType := none } =
      .ok { edge with edgeType := edgeType } := by
  cases edgeType with
  | none => rfl
  | some edgeType =>
      have walk : (typePairs ((some edgeType).map EdgeType.name)).foldlM addEdgePart
          { edge with edgeType := none } =
          .ok { edge with
            edgeType :=
              some { name := (Pair.node DslRule.ident (tok edgeType.name) []).asStr } } :=
        rfl
      rw [walk, asStr_tok]

/-- An edge without brackets. -/
def plainEdge (direction : Direction) : EdgePattern :=
  { aliasName := none, edgeType := none, direction := direction,
    hops := { min := 1, max := 1 } }

/-- What stands in an edge's brackets is taken, also where there are none. -/
theorem takes_edgeDetail {edge : EdgePattern} {ts allowed : List Token}
    (writable : edge.Writable) (tokens : DetailTokens edge ts)
    (apart : apartFrom "[" allowed = true) :
    Takes dslLayout (.optional (.rule .edgeDetail)) ts (HeadIn allowed)
      (WalkedOr (plainEdge edge.direction) .edgeDetail
        (addEdgeDetail (plainEdge edge.direction)) edge) := by
  rcases tokens with ⟨⟨noAlias, noType, single⟩, rfl⟩ | ⟨hops, range, rfl⟩
  · have plain : edge = plainEdge edge.direction := by
      cases edge
      cases noAlias
      cases noType
      cases single
      rfl
    rw [← plain]
    exact takes_absent rfl rfl apart
  · have closing := takes_tok "]" rfl
    have range' := (takes_hopRange writable.min writable.max range).cons closing
      fun _ _ => headIn_cons List.mem_cons_self _
    have edgeType : ∀ name ∈ edge.edgeType.map EdgeType.name, isIdent name = true := by
      intro name member
      obtain ⟨edgeType, present, rfl⟩ := Option.map_eq_some_iff.mp member
      exact writable.edgeType edgeType present
    have rangeNext (rest : List Token) (_ : Anything rest) :
        HeadIn [tok "*", tok "]"] (hops ++ [tok "]"] ++ rest) := by
      rw [List.append_assoc]
      exact headIn_hopTokens range (headIn_cons List.mem_cons_self _)
    have types := (takes_type edgeType (by decide)).cons range' rangeNext
    have typeNext (rest : List Token) (_ : Anything rest) :
        HeadIn [tok ":", tok "*", tok "]"]
        (typeTokens (edge.edgeType.map EdgeType.name) ++
          (hops ++ [tok "]"]) ++ rest) := by
      rw [List.append_assoc]
      exact headIn_typeTokens _ (rangeNext rest trivial)
    have parts := (takes_alias writable.aliasName (by decide)).cons types typeNext
    have body : Takes dslLayout DslRule.edgeDetail.body _ _ _ :=
      parts.token_cons (solid_of rfl)
    apply ((Takes.rule rfl rfl body).before fun _ _ => trivial).present.imp
    rintro pairs ⟨text, children, rfl, parsed⟩
    refine .inr ⟨text, children, rfl, ?_⟩
    have walk : addEdgeDetail (plainEdge edge.direction)
        (.node .edgeDetail text children) =
        children.foldlM addEdgePart (plainEdge edge.direction) := rfl
    rw [walk]
    apply parsed.foldlM
    · rintro _ rfl
      exact addEdgePart_alias (plainEdge edge.direction) edge.aliasName
    · intro later parsed
      apply parsed.foldlM
      · rintro _ rfl
        exact addEdgePart_type
          { plainEdge edge.direction with aliasName := edge.aliasName } edge.edgeType
      · intro later parsed
        apply parsed.foldlM
        · intro front walked
          have folded : front.foldlM addEdgePart
              { edge with hops := { min := 1, max := 1 } } = .ok edge :=
            walked.foldlM (f := fun hops =>
              ({ edge with hops := hops } : EdgePattern)) fun _ _ => rfl
          exact folded
        · rintro _ rfl
          rfl

/-- Whichever its direction, an edge's brackets are read into it. -/
theorem addEdgeDetail_both {edge : EdgePattern} {children : List (Pair DslRule)}
    (both : Both (WalkedOr (plainEdge edge.direction) .edgeDetail
        (addEdgeDetail (plainEdge edge.direction)) edge) (· = []) children) :
    children.foldlM addEdgeDetail (plainEdge edge.direction) = .ok edge := by
  apply both.foldlM
  · intro front walked
    apply walked.foldlM (f := id)
    intro text children
    rw [Except.map_id]
    rfl
  · rintro _ rfl
    rfl

/-- An edge of either direction: the arrows differ. -/
theorem takes_directed {edge : EdgePattern} {detail : List Token} {rule : DslRule}
    {opening closing : String} (writable : edge.Writable)
    (brackets : DetailTokens edge detail) (visible : rule.silent = false)
    (plain : rule.atomic = false)
    (body : rule.body =
      .sequence [.token opening, .optional (.rule .edgeDetail), .token closing])
    (solid : ((tok opening).head?.any fun c => !opensGap c) = true)
    (solid' : ((tok closing).head?.any fun c => !opensGap c) = true)
    (apart : apartFrom "[" [tok closing] = true) :
    Takes dslLayout (.rule rule) (tok opening :: (detail ++ [tok closing])) Anything
      (Wraps rule fun children =>
        children.foldlM addEdgeDetail (plainEdge edge.direction) = .ok edge) := by
  have parts := (takes_edgeDetail writable brackets apart).cons
    (takes_tok closing solid') fun _ _ =>
    headIn_cons List.mem_cons_self _
  have whole := (parts.token_cons (solid_of solid)).imp fun _ both =>
    addEdgeDetail_both both
  rw [← body] at whole
  exact .rule visible plain whole

/-- An edge is taken and walked as itself. -/
theorem takes_edgePattern {edge : EdgePattern} {ts : List Token}
    (writable : edge.Writable) (tokens : EdgeTokens edge ts) :
    Takes dslLayout (.rule .edgePattern) ts Anything
      (Walked .edgePattern parseEdgePattern edge) := by
  obtain ⟨detail, brackets, spelled⟩ := tokens
  cases direction : edge.direction with
  | outgoing =>
      rw [direction] at spelled
      subst spelled
      have arrow : Takes dslLayout (.rule .outgoingEdge)
          (tok "-" :: (detail ++ [tok "->"])) Anything _ :=
        takes_directed writable brackets rfl rfl rfl rfl rfl (by decide)
      have directed : Takes dslLayout DslRule.edgePattern.body _ _ _ :=
        .choice_first arrow
      apply (Takes.rule rfl rfl directed).imp
      rintro pairs ⟨text, _, rfl, text', children, rfl, walks⟩
      rw [direction] at walks
      exact ⟨text, _, rfl, walks⟩
  | incoming =>
      rw [direction] at spelled
      subst spelled
      have arrow : Takes dslLayout (.rule .incomingEdge)
          (tok "<-" :: (detail ++ [tok "-"])) Anything _ :=
        takes_directed writable brackets rfl rfl rfl rfl rfl (by decide)
      have noOutgoing (rest : List Token) : Refuses dslLayout (.rule .outgoingEdge)
          (tok "<-" :: (detail ++ [tok "-"]) ++ rest) :=
        .rule rfl (.seq (refuses_tok
            (headIn_cons (List.mem_singleton_self (tok "<-")) _) (by decide)))
      have directed : Takes dslLayout DslRule.edgePattern.body _ _ _ :=
        .choice_second (fun rest _ => noOutgoing rest) arrow
      apply (Takes.rule rfl rfl directed).imp
      rintro pairs ⟨text, _, rfl, text', children, rfl, walks⟩
      rw [direction] at walks
      exact ⟨text, _, rfl, walks⟩

/-! ### Chains -/

/-- An edge and the node at its end. -/
def roundSteps (round : EdgePattern × NodePattern) : List PatternStep :=
  [.edge round.1, .node round.2]

/-- Steps that take turns are a node and rounds of an edge and a node. -/
theorem rounds_of_alternates {steps : List PatternStep}
    (alternates : Alternates steps) :
    ∃ node, ∃ rounds : List (EdgePattern × NodePattern),
      steps = .node node :: rounds.flatMap roundSteps := by
  induction alternates with
  | single node => exact ⟨node, [], rfl⟩
  | step node edge _ ih =>
      obtain ⟨next, rounds, rfl⟩ := ih
      exact ⟨node, (edge, next) :: rounds, rfl⟩

/-- The tokens of a chain, round by round. -/
theorem roundTokens {rounds : List (EdgePattern × NodePattern)}
    {parts : List (List Token)}
    (each : List.Forall₂ StepTokens (rounds.flatMap roundSteps) parts) :
    ∃ parts', parts.flatten = parts'.flatten ∧
      List.Forall₂ (fun round part => ∃ edge node, EdgeTokens round.1 edge ∧
        NodeTokens round.2 node ∧
        part = edge ++ node) rounds parts' := by
  induction rounds generalizing parts with
  | nil =>
      cases each
      exact ⟨[], rfl, .nil⟩
  | cons round rounds ih =>
      cases each with
      | @cons _ edge _ _ edgeTokens each =>
          cases each with
          | @cons _ node _ later nodeTokens each =>
              obtain ⟨parts', same, related⟩ := ih each
              refine ⟨(edge ++ node) :: parts', ?_,
                .cons ⟨edge, node, edgeTokens, nodeTokens, rfl⟩ related⟩
              rw [List.flatten_cons, List.flatten_cons, List.flatten_cons, same,
                List.append_assoc]

/-- What a round leaves behind is walked to its edge and its node. -/
theorem mapM_round {round : EdgePattern × NodePattern} {pairs : List (Pair DslRule)}
    (both : Both (Walked .edgePattern parseEdgePattern round.1)
      (Walked .nodePattern parseNodePattern round.2) pairs) :
    pairs.mapM parsePatternStep = .ok (roundSteps round) := by
  obtain ⟨_, _, rfl, ⟨text, children, rfl, walks⟩, ⟨text', children', rfl, walks'⟩⟩ :=
    both
  have edge : parsePatternStep (.node .edgePattern text children) =
      (parseEdgePattern (.node .edgePattern text children)).map .edge := rfl
  have node : parsePatternStep (.node .nodePattern text' children') =
      (parseNodePattern (.node .nodePattern text' children')).map .node := rfl
  rw [List.singleton_append, List.mapM_cons, List.mapM_cons, edge, node, walks, walks']
  rfl

/-- A pattern is taken and walked as itself. -/
theorem takes_pattern {pattern : Pattern} {ts allowed : List Token}
    (writable : pattern.Writable) (tokens : PatternTokens pattern ts)
    (apart : apartFrom "-" allowed = true) (apart' : apartFrom "<-" allowed = true) :
    Takes dslLayout (.rule .pattern) ts (HeadIn allowed)
      (Walked .pattern parsePattern pattern) := by
  obtain ⟨parts, each, rfl⟩ := tokens
  obtain ⟨steps⟩ := pattern
  have alternates : Alternates steps := writable.alternates
  obtain ⟨first, rounds, rfl⟩ := rounds_of_alternates alternates
  cases each with
  | @cons _ nodeTokens _ later start each =>
      obtain ⟨parts', same, related⟩ := roundTokens each
      have member {round : EdgePattern × NodePattern} (member : round ∈ rounds)
          {step : PatternStep}
          (isStep : step ∈ roundSteps round) : step ∈ .node first ::
            rounds.flatMap roundSteps :=
        List.mem_cons_of_mem _ (List.mem_flatMap.mpr ⟨round, member, isStep⟩)
      have start' := takes_nodePattern (writable.nodes first List.mem_cons_self) start
      have each' : List.Forall₂ (fun round part =>
          Takes dslLayout (.sequence [.rule .edgePattern, .rule .nodePattern])
          part Anything (Both (Walked .edgePattern parseEdgePattern round.1)
            (Walked .nodePattern parseNodePattern round.2))) rounds parts' := by
        apply ((List.forall₂_and_left _ _).mpr ⟨fun _ => id, related⟩).imp
        rintro round _ ⟨listed, edge, node, edgeTokens, nodeTokens, rfl⟩
        have edge' := takes_edgePattern
          (writable.edges round.1 (member listed List.mem_cons_self)) edgeTokens
        have isNode : .node round.2 ∈ roundSteps round :=
          List.mem_cons_of_mem _ List.mem_cons_self
        have node' :=
          takes_nodePattern (writable.nodes round.2 (member listed isNode)) nodeTokens
        exact edge'.cons node' fun _ _ => trivial
      have ends (rest : List Token) (head : HeadIn allowed rest) : Refuses dslLayout
          (.sequence [.rule .edgePattern, .rule .nodePattern]) rest := by
        apply Refuses.seq
        apply Refuses.rule rfl
        apply Refuses.choice
        · exact .rule rfl (.seq (refuses_tok head apart))
        · exact .rule rfl (.seq (refuses_tok head apart'))
      have chain := Takes.star each' (fun _ _ _ => trivial) fun rest head =>
        ⟨trivial, ends rest head⟩
      have body : Takes dslLayout DslRule.pattern.body _ _ _ :=
        start'.cons chain fun _ _ => trivial
      rw [List.flatten_cons, same]
      apply (Takes.rule rfl rfl body).imp
      rintro pairs
        ⟨text, _, rfl, _, _, rfl, ⟨text', children, rfl, walks⟩, taken, rfl, walked⟩
      refine ⟨text, _, rfl, ?_⟩
      have later : taken.flatten.mapM parsePatternStep =
          .ok (rounds.flatMap roundSteps) :=
        mapM_of_rounds (walked.imp fun _ _ both => mapM_round both)
      have walk (more : List (Pair DslRule)) :
          parsePattern
            (.node .pattern text ([.node .nodePattern text' children] ++ more)) =
            (([Pair.node DslRule.nodePattern text' children] ++ more).mapM
              parsePatternStep).map fun steps =>
              { steps := steps } := rfl
      have node : parsePatternStep (.node .nodePattern text' children) =
          (parseNodePattern (.node .nodePattern text' children)).map .node := rfl
      rw [walk, List.singleton_append, List.mapM_cons, node, walks, later]
      rfl

end GraphEngine
