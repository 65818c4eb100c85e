/-
Module: GraphEngine.Proofs.SchemaDeclarations
Layer: Proofs
Purpose: A text that spells out declarations is parsed to what the declarations
  come to, be it a schema, the first repetition or the first edge with a label
  that is not declared.
Trusted boundary: none
Main exports: ReadsDeclaration, Holds, declareAll_of_reads,
  checkEndpoints_cases, parse_declarations
-/
import GraphEngine.Lib.Collections
import GraphEngine.Proofs.SchemaSyntax
import Mathlib.Data.List.Pairwise

namespace GraphEngine

open Std (ExtTreeMap)
open Grammar (Yields Takes Refuses Anything HeadIn Both Wraps headIn_cons)

/-! ### Distinct declarations -/

section Distinct

variable {before : List Declaration} {declaration : Declaration}

theorem distinct_append_singleton : Distinct (before ++ [declaration]) ↔
    Distinct before ∧ ∀ earlier ∈ before, ¬ earlier.Clash declaration := by
  rw [Distinct, List.pairwise_append]
  simp only [List.pairwise_singleton, List.mem_singleton, forall_eq, true_and]
  rfl

theorem not_distinct_of_repeated {after : List Declaration}
    (repeated : ∃ earlier ∈ before, earlier.Clash declaration) :
    ¬ Distinct (before ++ declaration :: after) := by
  intro distinct
  obtain ⟨earlier, member, clash⟩ := repeated
  exact (List.pairwise_append.mp distinct).2.2 earlier member declaration
    List.mem_cons_self clash

theorem Declaration.Clash.symm {declaration other : Declaration}
    (clash : declaration.Clash other) : other.Clash declaration := by
  cases declaration <;> cases other <;> first | exact Eq.symm clash | cases clash

/-- Distinct declarations that clash are the same. -/
theorem Distinct.eq_of_clash {declarations : List Declaration}
    (distinct : Distinct declarations) {declaration other : Declaration}
    (member : declaration ∈ declarations) (member' : other ∈ declarations)
    (clash : declaration.Clash other) : declaration = other := by
  by_contra different
  have symmetric : Std.Symm fun (declaration other : Declaration) =>
      ¬ declaration.Clash other :=
    ⟨fun _ _ apart clashes => apart clashes.symm⟩
  exact distinct.forall member member' different clash

end Distinct

/-! ### Maps of declarations -/

namespace Holds

variable {declarations : List Declaration} {nodes : ExtTreeMap Label NodeDef compare}
variable {edges : ExtTreeMap EdgeType EdgeDef compare}

theorem empty : Holds [] ∅ ∅ where
  node label node := by simp
  edge edgeType edge := by simp

theorem mem_nodes (holds : Holds declarations nodes edges) (label : Label) :
    label ∈ nodes ↔ LabelDeclared declarations label := by
  rw [ExtTreeMap.mem_iff_isSome_getElem?, Option.isSome_iff_exists]
  constructor
  · rintro ⟨node, found⟩
    obtain ⟨named, member⟩ := (holds.node label node).mp found
    exact ⟨node, member, named⟩
  · rintro ⟨node, member, named⟩
    exact ⟨node, (holds.node label node).mpr ⟨named, member⟩⟩

theorem clash_node (holds : Holds declarations nodes edges) (node : NodeDef) :
    node.label ∈ nodes ↔ ∃ earlier ∈ declarations, earlier.Clash (.nodeDecl node) := by
  rw [holds.mem_nodes]
  constructor
  · rintro ⟨other, member, same⟩
    exact ⟨.nodeDecl other, member, same⟩
  · rintro ⟨earlier, member, clash⟩
    cases earlier with
    | nodeDecl other => exact ⟨other, member, clash⟩
    | edgeDecl => cases clash

theorem clash_edge (holds : Holds declarations nodes edges) (edge : EdgeDef) :
    edge.edgeType ∈ edges ↔ ∃ earlier ∈ declarations, earlier.Clash (.edgeDecl edge) := by
  rw [ExtTreeMap.mem_iff_isSome_getElem?, Option.isSome_iff_exists]
  constructor
  · rintro ⟨other, found⟩
    obtain ⟨named, member⟩ := (holds.edge edge.edgeType other).mp found
    exact ⟨.edgeDecl other, member, named⟩
  · rintro ⟨earlier, member, clash⟩
    cases earlier with
    | nodeDecl => cases clash
    | edgeDecl other =>
        exact ⟨other, (holds.edge edge.edgeType other).mpr ⟨clash, member⟩⟩

/-- A label that is new is filed with its node. -/
theorem insertNode (holds : Holds declarations nodes edges) {node : NodeDef}
    (new : node.label ∉ nodes) :
    Holds (declarations ++ [.nodeDecl node]) (nodes.insert node.label node) edges where
  node label other := by
    rw [ExtTreeMap.getElem?_insert, List.mem_append, List.mem_singleton,
      Declaration.nodeDecl.injEq, and_or_left]
    split
    case isTrue same =>
        have named := Std.LawfulEqOrd.eq_of_compare same
        rw [Option.some.injEq]
        constructor
        · rintro rfl
          exact .inr ⟨named, rfl⟩
        · rintro (⟨rfl, member⟩ | ⟨-, rfl⟩)
          · rw [named, holds.mem_nodes] at new
            exact absurd ⟨other, member, rfl⟩ new
          · rfl
    case isFalse different =>
        rw [holds.node]
        refine (or_iff_left ?_).symm
        rintro ⟨named, rfl⟩
        exact different (Std.LawfulEqOrd.compare_eq_iff_eq.mpr named)
  edge edgeType edge := by
    rw [holds.edge, List.mem_append, List.mem_singleton]
    simp

/-- A type that is new is filed with its edge. -/
theorem insertEdge (holds : Holds declarations nodes edges) {edge : EdgeDef}
    (new : edge.edgeType ∉ edges) :
    Holds (declarations ++ [.edgeDecl edge]) nodes (edges.insert edge.edgeType edge) where
  node label node := by
    rw [holds.node, List.mem_append, List.mem_singleton]
    simp
  edge edgeType other := by
    rw [ExtTreeMap.getElem?_insert, List.mem_append, List.mem_singleton,
      Declaration.edgeDecl.injEq, and_or_left]
    split
    case isTrue same =>
        have named := Std.LawfulEqOrd.eq_of_compare same
        rw [Option.some.injEq]
        constructor
        · rintro rfl
          exact .inr ⟨named, rfl⟩
        · rintro (⟨rfl, member⟩ | ⟨-, rfl⟩)
          · rw [named, ExtTreeMap.mem_iff_isSome_getElem?,
              (holds.edge _ _).mpr ⟨rfl, member⟩] at new
            exact absurd rfl new
          · rfl
    case isFalse different =>
        rw [holds.edge]
        refine (or_iff_left ?_).symm
        rintro ⟨named, rfl⟩
        exact different (Std.LawfulEqOrd.compare_eq_iff_eq.mpr named)

theorem unique {nodes' : ExtTreeMap Label NodeDef compare}
    {edges' : ExtTreeMap EdgeType EdgeDef compare}
    (holds : Holds declarations nodes edges)
    (holds' : Holds declarations nodes' edges') :
    nodes = nodes' ∧ edges = edges' := by
  constructor
  · apply ExtTreeMap.ext_getElem?
    intro label
    apply Option.ext
    intro node
    exact (holds.node label node).trans (holds'.node label node).symm
  · apply ExtTreeMap.ext_getElem?
    intro edgeType
    apply Option.ext
    intro edge
    exact (holds.edge edgeType edge).trans (holds'.edge edgeType edge).symm

end Holds

/-! ### One outcome -/

theorem Dangles.unique {declarations : List Declaration} {edge : EdgeDef}
    {message message' : String} (dangles : Dangles declarations edge message)
    (dangles' : Dangles declarations edge message') : message = message' := by
  cases dangles with
  | source missing =>
      cases dangles' with
      | source => rfl
      | target declared => exact absurd declared missing
  | target declared missing =>
      cases dangles' with
      | source missing => exact absurd declared missing
      | target => rfl

/-- The first repetition is met before any other. -/
theorem first_repetition_unique {front front' back back' : List Declaration}
    {declaration declaration' : Declaration}
    (split : front ++ declaration :: back = front' ++ declaration' :: back')
    (distinct : Distinct front)
    (repeated : ∃ earlier ∈ front, earlier.Clash declaration)
    (distinct' : Distinct front')
    (repeated' : ∃ earlier ∈ front', earlier.Clash declaration') :
    declaration = declaration' := by
  rcases List.append_eq_append_iff.mp split with ⟨more, rfl, rest⟩ | ⟨more, rfl, rest⟩
  · cases more with
    | nil => exact (List.cons.inj rest).1
    | cons first more =>
        cases rest
        exact absurd distinct' (not_distinct_of_repeated repeated)
  · cases more with
    | nil => exact (List.cons.inj rest).1.symm
    | cons first more =>
        cases rest
        exact absurd distinct (not_distinct_of_repeated repeated')

theorem DeclaresTo.unique {version : String} {declarations : List Declaration}
    {outcome outcome' : Except SchemaError Schema}
    (declares : DeclaresTo version declarations outcome)
    (declares' : DeclaresTo version declarations outcome') : outcome = outcome' := by
  cases declares with
  | duplicate split distinct repeated =>
      cases declares' with
      | duplicate split' distinct' repeated' =>
          rw [first_repetition_unique
            (split.symm.trans split') distinct repeated distinct' repeated']
      | dangling whole => exact absurd (split ▸ whole) (not_distinct_of_repeated repeated)
      | schema whole => exact absurd (split ▸ whole) (not_distinct_of_repeated repeated)
  | @dangling edge message distinct member dangles first =>
      cases declares' with
      | duplicate split' _ repeated' =>
          exact absurd (split' ▸ distinct) (not_distinct_of_repeated repeated')
      | @dangling edge' message' _ member' dangles' first' =>
          have same : edge.edgeType = edge'.edgeType := Std.LawfulEqOrd.eq_of_compare
            (Std.OrientedCmp.isLE_antisymm (first edge' member' ⟨message', dangles'⟩)
              (first' edge member ⟨message, dangles⟩))
          cases distinct.eq_of_clash member member' same
          rw [dangles.unique dangles']
      | schema _ _ complete => exact absurd dangles (complete edge member message)
  | @schema schema distinct declared complete =>
      cases declares' with
      | duplicate split' _ repeated' =>
          exact absurd (split' ▸ distinct) (not_distinct_of_repeated repeated')
      | dangling _ member' dangles' => exact absurd dangles' (complete _ member' _)
      | @schema schema' _ declared' =>
          obtain ⟨version, holds⟩ := declared
          obtain ⟨version', holds'⟩ := declared'
          obtain ⟨nodes, edges⟩ := holds.unique holds'
          cases schema
          cases schema'
          cases version
          cases version'
          cases nodes
          cases edges
          rfl

namespace SchemaParser

/-! ### The loop over the declarations -/

/-- The pair of a declaration. -/
def ReadsDeclaration : Declaration → List (Pair SchemaRule) → Prop
  | .nodeDecl node => Walks .nodeDecl parseNodeDecl node
  | .edgeDecl edge => Walks .edgeDecl parseEdgeDecl edge

/-- Each declaration in turn is filed, or repeats an earlier one and ends the
loop. -/
theorem declareAll_of_reads {declarations before : List Declaration}
    {rounds : List (List (Pair SchemaRule))}
    {nodes : ExtTreeMap Label NodeDef compare}
    {edges : ExtTreeMap EdgeType EdgeDef compare}
    (each : List.Forall₂ ReadsDeclaration declarations rounds)
    (distinct : Distinct before) (holds : Holds before nodes edges) :
    (Distinct (before ++ declarations) ∧ ∃ nodes' edges',
      declareAll rounds.flatten nodes edges = .ok (.ok (nodes', edges')) ∧
        Holds (before ++ declarations) nodes' edges') ∨
    ∃ front declaration back, before ++ declarations = front ++ declaration :: back ∧
      Distinct front ∧
      (∃ earlier ∈ front, earlier.Clash declaration) ∧
        declareAll rounds.flatten nodes edges =
          .ok (.error (.parse declaration.duplicate)) := by
  induction each generalizing before nodes edges with
  | nil =>
      rw [List.append_nil]
      exact .inl ⟨distinct, nodes, edges, rfl, holds⟩
  | @cons declaration round declarations rounds first _ inductionHypothesis =>
      have assembled : before ++ declaration :: declarations = before ++
          [declaration] ++ declarations := by
        simp
      cases declaration with
      | nodeDecl node =>
          obtain ⟨text, children, rfl, walks⟩ := first
          have walk : declareAll
              ([[Pair.node .nodeDecl text children]] ++ rounds).flatten nodes edges =
              (parseNodeDecl (.node .nodeDecl text children)).bind fun node =>
                if node.label ∈ nodes then .ok
                  (.error (.parse ("duplicate node label: " ++ node.label.name)))
                else declareAll rounds.flatten (nodes.insert node.label node) edges := rfl
          rw [List.singleton_append, walks, Except.bind] at walk
          rw [walk]
          split
          case isTrue repeated =>
              exact .inr ⟨before, .nodeDecl node, declarations, rfl, distinct,
                (holds.clash_node node).mp repeated, rfl⟩
          case isFalse new =>
              have apart : ∀ earlier ∈ before, ¬ earlier.Clash (.nodeDecl node) :=
                fun earlier member clash =>
                new ((holds.clash_node node).mpr ⟨earlier, member, clash⟩)
              rw [assembled]
              exact inductionHypothesis (distinct_append_singleton.mpr
                ⟨distinct, apart⟩) (holds.insertNode new)
      | edgeDecl edge =>
          obtain ⟨text, children, rfl, walks⟩ := first
          have walk : declareAll
              ([[Pair.node .edgeDecl text children]] ++ rounds).flatten nodes edges =
              (parseEdgeDecl (.node .edgeDecl text children)).bind fun edge =>
                if edge.edgeType ∈ edges then .ok
                  (.error (.parse ("duplicate edge type: " ++ edge.edgeType.name)))
                else
                  declareAll rounds.flatten nodes (edges.insert edge.edgeType edge) := rfl
          rw [List.singleton_append, walks, Except.bind] at walk
          rw [walk]
          split
          case isTrue repeated =>
              exact .inr ⟨before, .edgeDecl edge, declarations, rfl, distinct,
                (holds.clash_edge edge).mp repeated, rfl⟩
          case isFalse new =>
              have apart : ∀ earlier ∈ before, ¬ earlier.Clash (.edgeDecl edge) :=
                fun earlier member clash =>
                new ((holds.clash_edge edge).mpr ⟨earlier, member, clash⟩)
              rw [assembled]
              exact inductionHypothesis (distinct_append_singleton.mpr
                ⟨distinct, apart⟩) (holds.insertEdge new)

/-! ### Endpoints -/

/-- Both labels of an edge are there. -/
def Anchored (nodes : ExtTreeMap Label NodeDef compare) (edge : EdgeDef) : Prop :=
  edge.source ∈ nodes ∧ edge.target ∈ nodes

/-- The check passes if all edges are anchored and stops at the first that is
not. -/
theorem checkEndpoints_cases {declarations : List Declaration}
    {nodes : ExtTreeMap Label NodeDef compare}
    {edges : ExtTreeMap EdgeType EdgeDef compare}
    (holds : Holds declarations nodes edges) (listed : List EdgeDef) :
    (checkEndpoints nodes listed = .ok () ∧ ∀ edge ∈ listed, Anchored nodes edge) ∨
      ∃ front edge back message, listed = front ++ edge :: back ∧
        (∀ other ∈ front, Anchored nodes other) ∧
        Dangles declarations edge message ∧
          checkEndpoints nodes listed = .error (.parse message) := by
  induction listed with
  | nil => exact .inl ⟨rfl, nofun⟩
  | cons edge listed inductionHypothesis =>
      rw [checkEndpoints]
      split
      case isTrue missing =>
          rw [holds.mem_nodes] at missing
          exact .inr ⟨[], edge, listed, _, rfl, nofun, .source missing, rfl⟩
      case isFalse source =>
          have found := not_not.mp source
          split
          case isTrue missing =>
              rw [holds.mem_nodes] at missing found
              exact .inr ⟨[], edge, listed, _, rfl, nofun, .target found missing, rfl⟩
          case isFalse target =>
              have anchored : Anchored nodes edge := ⟨found, not_not.mp target⟩
              rcases inductionHypothesis with ⟨passes, all⟩ | ⟨front, other, back,
                message, rfl, all, dangles, fails⟩
              · exact .inl ⟨passes, List.forall_mem_cons.mpr ⟨anchored, all⟩⟩
              · exact .inr ⟨edge :: front, other, back, message, rfl,
                  List.forall_mem_cons.mpr ⟨anchored, all⟩, dangles,
                  fails⟩

theorem not_dangles_of_anchored {declarations : List Declaration}
    {nodes : ExtTreeMap Label NodeDef compare}
    {edges : ExtTreeMap EdgeType EdgeDef compare}
    (holds : Holds declarations nodes edges) {edge : EdgeDef}
    (anchored : Anchored nodes edge) (message : String) :
    ¬ Dangles declarations edge message := by
  obtain ⟨source, target⟩ := anchored
  rw [holds.mem_nodes] at source target
  intro dangles
  cases dangles with
  | source missing => exact missing source
  | target _ missing => exact missing target

/-- The edges of a map are listed in the order of their types. -/
theorem edges_sorted {declarations : List Declaration}
    {nodes : ExtTreeMap Label NodeDef compare}
    {edges : ExtTreeMap EdgeType EdgeDef compare}
    (holds : Holds declarations nodes edges) :
    (edges.toList.map Prod.snd).Pairwise
      (fun edge other => compare edge.edgeType other.edgeType = .lt) ∧
      ∀ edge, edge ∈ edges.toList.map Prod.snd ↔ .edgeDecl edge ∈ declarations := by
  have named : ∀ entry ∈ edges.toList, entry.2.edgeType = entry.1 ∧
      .edgeDecl entry.2 ∈ declarations :=
    fun entry member => (holds.edge entry.1 entry.2).mp
      (ExtTreeMap.mem_toList_iff_getElem?_eq_some.mp member)
  constructor
  · rw [List.pairwise_map]
    refine ExtTreeMap.ordered_keys_toList.imp_of_mem fun first second order => ?_
    rw [(named _ first).1, (named _ second).1]
    exact order
  · intro edge
    rw [List.mem_map]
    constructor
    · rintro ⟨entry, member, rfl⟩
      exact (named entry member).2
    · intro member
      exact ⟨(edge.edgeType, edge),
        ExtTreeMap.mem_toList_iff_getElem?_eq_some.mpr
          ((holds.edge _ _).mpr ⟨rfl, member⟩), rfl⟩

/-! ### The schema declaration -/

/-- The pair of a schema declaration: its version, and its declarations in
order. -/
def ReadsSchema (version : String) (declarations : List Declaration) :
    List (Pair SchemaRule) → Prop :=
  Wraps .schemaDecl fun children =>
    ∃ rounds, children = .node .ident (tok version) [] :: rounds.flatten ∧
    List.Forall₂ ReadsDeclaration declarations rounds

/-- What follows the loop over the declarations. -/
def schemaOf (version : String)
    (declared : Except SchemaError
      (ExtTreeMap Label NodeDef compare × ExtTreeMap EdgeType EdgeDef compare)) :
    Except SchemaError Schema :=
  declared.bind fun maps =>
    (checkEndpoints maps.1 (maps.2.toList.map Prod.snd)).map fun _ =>
    { version := version, nodes := maps.1, edges := maps.2 }

theorem parseSchemaDecl_eq (text : List Char) (version : Pair SchemaRule)
    (decls : List (Pair SchemaRule)) :
    parseSchemaDecl (.node .schemaDecl text (version :: decls)) =
      (declareAll decls ∅ ∅).map (schemaOf version.asStr) := by
  simp only [parseSchemaDecl, Pair.intoInner, List.head?_cons, List.tail_cons, expect,
    bind, Except.bind]
  cases declareAll decls ∅ ∅ with
  | error message => rfl
  | ok declared => cases declared <;> rfl

theorem parseSchemaDecl_of_reads {version : String}
    {declarations : List Declaration} {pair : Pair SchemaRule}
    (reads : ReadsSchema version declarations [pair]) :
    ∃ outcome, parseSchemaDecl pair = .ok outcome ∧
      DeclaresTo version declarations outcome := by
  obtain ⟨text, _, same, rounds, rfl, each⟩ := reads
  cases same
  have walk := parseSchemaDecl_eq text (.node .ident (tok version) []) rounds.flatten
  rw [asStr_tok] at walk
  rcases declareAll_of_reads each List.Pairwise.nil .empty with
    ⟨distinct, nodes, edges, declared, holds⟩ | ⟨front, declaration, back, split,
      distinct, repeated, declared⟩
  · rw [List.nil_append] at distinct holds
    rw [declared, Except.map, schemaOf, Except.bind] at walk
    dsimp only at walk
    obtain ⟨sorted, listed⟩ := edges_sorted holds
    rcases checkEndpoints_cases holds (edges.toList.map Prod.snd) with
      ⟨passes, anchored⟩ | ⟨before, edge, after, message, inOrder, anchored,
        dangles, fails⟩
    · rw [passes] at walk
      refine ⟨_, walk, .schema distinct ⟨rfl, holds⟩ fun edge member => ?_⟩
      exact not_dangles_of_anchored holds (anchored edge ((listed edge).mpr member))
    · rw [fails] at walk
      have isListed : edge ∈ edges.toList.map Prod.snd := by
        rw [inOrder]
        exact List.mem_append_right _ List.mem_cons_self
      refine ⟨_, walk, .dangling distinct ((listed edge).mp isListed) dangles
        fun other member dangling => ?_⟩
      obtain ⟨_, alsoDangles⟩ := dangling
      have place := (listed other).mpr member
      rw [inOrder, List.mem_append, List.mem_cons] at place
      rw [inOrder, List.pairwise_append, List.pairwise_cons] at sorted
      rcases place with early | rfl | late
      · exact absurd alsoDangles (not_dangles_of_anchored holds (anchored other early) _)
      · rw [Std.LawfulEqOrd.compare_eq_iff_eq.mpr rfl]
        rfl
      · rw [sorted.2.1.1 other late]
        rfl
  · rw [declared] at walk
    exact ⟨_, walk, .duplicate split distinct repeated⟩

/-! ### Schema texts -/

section Texts

variable {version : String} {declarations : List Declaration} {ts : List Token}

theorem takes_typeDecl {declaration : Declaration} (writable : declaration.Writable)
    (tokens : DeclarationTokens declaration ts) :
    Takes schemaLayout (.rule .typeDecl) ts Anything (ReadsDeclaration declaration) := by
  cases declaration with
  | nodeDecl node =>
      have alternatives : Takes schemaLayout SchemaRule.typeDecl.body ts Anything _ :=
        .choice_first (takes_nodeDecl writable tokens)
      exact .rule_silent rfl rfl alternatives
  | edgeDecl edge =>
      have notNode (rest : List Token) :
          Refuses schemaLayout (.rule .nodeDecl) (ts ++ rest) := by
        obtain ⟨parts, -, rfl⟩ := tokens
        exact .rule rfl
          (.seq (refuses_tok (headIn_cons (List.mem_singleton_self _) _) (by decide)))
      have alternatives : Takes schemaLayout SchemaRule.typeDecl.body ts Anything _ :=
        .choice_second (fun rest _ => notNode rest) (takes_edgeDecl writable tokens)
      exact .rule_silent rfl rfl alternatives

theorem refuses_typeDecl (head : HeadIn [tok "\x7d"] ts) :
    Refuses schemaLayout (.rule .typeDecl) ts := by
  have neither : Refuses schemaLayout SchemaRule.typeDecl.body ts :=
    .choice (.rule rfl (.seq (refuses_tok head (by decide))))
      (.rule rfl (.seq (refuses_tok head (by decide))))
  exact .rule rfl neither

theorem takes_schemaDecl (named : isIdent version = true)
    (writable : ∀ declaration ∈ declarations, declaration.Writable)
    (tokens : SchemaTokens version declarations ts) :
    Takes schemaLayout (.rule .schemaDecl) ts Anything
      (ReadsSchema version declarations) := by
  obtain ⟨parts, each, rfl⟩ := tokens
  have takes : List.Forall₂
      (fun declaration part => Takes schemaLayout (.rule .typeDecl) part Anything
      (ReadsDeclaration declaration)) declarations parts :=
    ((List.forall₂_and_left _ _).mpr ⟨writable, each⟩).imp fun _ _ both =>
      takes_typeDecl both.1 both.2
  have list : Takes schemaLayout (.star (.rule .typeDecl)) parts.flatten
      (HeadIn [tok "\x7d"]) _ :=
    .star takes (fun _ _ _ => trivial) fun rest head => ⟨trivial, refuses_typeDecl head⟩
  have inside := (list.cons (takes_tok "\x7d" rfl) fun _ _ =>
    headIn_cons (List.mem_singleton_self _) _).token_cons
    (t := "\x7b") (solid_of rfl)
  have body : Takes schemaLayout SchemaRule.schemaDecl.body _ _ _ :=
    ((takes_ident named).cons inside fun _ _ => trivial).token_cons (t := "schema")
      (solid_of rfl)
  apply (Takes.rule rfl rfl body).imp
  rintro pairs ⟨text, _, rfl, _, _, rfl, rfl, _, _, rfl, ⟨rounds, rfl, reads⟩, rfl⟩
  refine ⟨text, _, rfl, rounds, ?_, reads⟩
  rw [List.append_nil, List.singleton_append]

/-- Every text of a list of declarations is parsed to what they come to. -/
theorem parse_declarations {source : String} (report : String → String)
    (named : isIdent version = true)
    (writable : ∀ declaration ∈ declarations, declaration.Writable)
    (tokens : SchemaTokens version declarations ts)
    (laidOut : LaidOut ts source.toList) :
    ∃ outcome, PestSchemaParser.parse report source = .ok outcome ∧
      DeclaresTo version declarations outcome := by
  have ends : Takes schemaLayout (.rule .endOfInput) [] (HeadIn []) _ :=
    .endOfInput rfl rfl
  have takes : Takes schemaLayout (.sequence [.rule .schemaDecl, .rule .endOfInput])
      (ts ++ []) (HeadIn [])
      (Both (ReadsSchema version declarations) _) :=
    (takes_schemaDecl named writable tokens).append ends fun _ _ => trivial
  obtain ⟨before, rest, same, blank, spaced⟩ := laidOut
  have gap : before = [] ∨ Gap before := or_iff_not_imp_left.mpr fun nonempty =>
    ⟨nonempty, blank⟩
  rw [← List.append_nil ts] at spaced
  have ahead : schemaLayout.Ahead (ts ++ []) source.toList :=
    ⟨before, rest, same, gap, takes.solid, spaced⟩
  obtain ⟨text, skipped, starts⟩ := ahead.skip source.toList.length
  rw [← List.append_nil (ts ++ [])] at starts
  obtain ⟨children, text', yields, -, parsed⟩ :=
    takes.takes source.toList.length [] text nofun starts
  have body : Yields schemaGrammar source.toList.length (schemaGrammar.atomic .schemaFile)
      (schemaGrammar.body .schemaFile) source.toList (some (children, text')) :=
        .seq .startOfInput (.seq skipped yields)
  obtain ⟨taken, matched⟩ := Yields.exists_rule rfl body
  have outcome := matched.unique ⟨_, schemaParse_run .schemaFile source.toList⟩
  obtain ⟨_, _, rfl, ⟨declText, declChildren, rfl, inside⟩, rfl⟩ := parsed
  have walk : PestSchemaParser.parse report source =
      parseSchemaDecl (.node .schemaDecl declText declChildren) := by
    rw [PestSchemaParser.parse, ← outcome]
    rfl
  rw [walk]
  exact parseSchemaDecl_of_reads ⟨declText, declChildren, rfl, inside⟩

end Texts

end SchemaParser

end GraphEngine
