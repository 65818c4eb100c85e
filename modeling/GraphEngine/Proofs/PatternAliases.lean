/-
Module: GraphEngine.Proofs.PatternAliases
Layer: Proofs
Purpose: The names of a pattern.  The validator keeps node labels and edge types
  in maps that later steps overwrite, and it never compares the two: a name
  stands for one element of the pattern exactly when every step introduces its
  alias afresh.  An edge without a type is in neither map, so that its alias
  cannot be returned.
Trusted boundary: none
Main exports: StandsFor, AliasesUnambiguous, Query.AliasesFresh,
  aliasesUnambiguous_iff, mem_scopeOf_edgeTypes, reportsUnknown_iff
-/
import GraphEngine.Proofs.AliasSafety
import GraphEngine.Proofs.Homogeneity

namespace GraphEngine

/-! ### What a name stands for -/

/-- An element of a pattern: a node under the label declared for it, or the edge
at a position. -/
inductive Element where
  | node (label : Option Label)
  | edge (position : Nat)
deriving DecidableEq, Repr

/-- The labels that the nodes with an alias declare. -/
def labelsOf (steps : List PatternStep) (x : String) : List Label :=
  steps.filterMap fun step =>
    match step with
    | .node node => if node.aliasName = x then node.label else none
    | .edge _ => none

/-- The alias stands for the element somewhere in the steps. -/
inductive StandsFor (steps : List PatternStep) (x : String) : Element → Prop where
  | labelled {label : Label} (declared : label ∈ labelsOf steps x)
      : StandsFor steps x (.node (some label))
  | unlabelled (bound : x ∈ nodeAliasesOf steps) (undeclared : labelsOf steps x = []) :
      StandsFor steps x (.node none)
  | edge {position : Nat} {edge : EdgePattern}
      (found : steps[position]? = some (.edge edge))
      (aliased : edge.aliasName = some x) : StandsFor steps x (.edge position)

/-- The steps in scope together: the pattern alone, and the pattern with the
body of one `NOT EXISTS`. -/
inductive Query.InScope (query : Query) : List PatternStep → Prop where
  | pattern : query.InScope query.pattern.steps
  | body {subquery : ExistsSubquery}
      (listed : .notExists subquery ∈ query.whereConditions) :
      query.InScope (query.pattern.steps ++ subquery.pattern.steps)

/-- No alias is a node's and an edge's, none two edges', and none that of nodes
with different labels. -/
structure AliasesApart (steps : List PatternStep) : Prop where
  oneKind : ∀ x ∈ nodeAliasesOf steps, x ∉ edgeAliasesOf steps
  oneEdge : (edgeAliasesOf steps).Nodup
  oneLabel : ∀ x, ∀ label ∈ labelsOf steps x, ∀ label' ∈ labelsOf steps x, label = label'

/-- From the bindings of any run, the coordinator takes each projected or sorted
alias for what it is in the pattern. -/
def ClassifiesAliases [Chrono] (query : Query) : Prop :=
  ∀ queryPlan, NaivePlanner.plan query = .ok queryPlan →
    ∀ rpc hasher partitions, Carries rpc queryPlan.steps → ∀ serve order time bindings,
      (ScatterGatherExecutor.execute ⟨rpc, hasher⟩ partitions queryPlan).run serve
        order time = .ok bindings →
      ∀ x kind, (GraphServiceImpl.aliasIsEdge queryPlan.project query.orderBy
        bindings)[x]? = some kind →
        (kind = true ↔ x ∈ edgeAliasesOf query.pattern.steps) ∧
          (kind = false ↔ x ∈ nodeAliasesOf query.pattern.steps)

/-- Every name of the query refers to one element: as a slot of a binding, in
the conditions of a `NOT EXISTS`, where the name of the body's edge is that
edge's alone and any other name is the outer pattern's, and for the
coordinator. -/
structure AliasesUnambiguous [Chrono] (query : Query) : Prop where
  apart : ∀ steps, query.InScope steps → AliasesApart steps
  single : ∀ steps, query.InScope steps → ∀ x element element',
    StandsFor steps x element →
    StandsFor steps x element' → element = element'
  sorted : ∀ subquery, .notExists subquery ∈ query.whereConditions → ∀ x element,
    StandsFor (query.pattern.steps ++ subquery.pattern.steps) x element →
      if x ∈ edgeAliasesOf subquery.pattern.steps then
        ∃ position ≥ query.pattern.steps.length, element = .edge position
      else StandsFor query.pattern.steps x element
  classified : ClassifiesAliases query

/-! ### Steps that introduce their aliases -/

/-- The step's alias is new after the steps before it, or that of nodes without
another label. -/
def PatternStep.Introduces (earlier : List PatternStep) : PatternStep → Prop
  | .node v => v.aliasName ∉ edgeAliasesOf earlier ∧
      ∀ label ∈ v.label, ∀ given ∈ labelsOf earlier v.aliasName, given = label
  | .edge e => ∀ x ∈ e.aliasName, x ∉ nodeAliasesOf earlier ∧ x ∉ edgeAliasesOf earlier

instance  (earlier : List PatternStep) (step : PatternStep) :
    Decidable (step.Introduces earlier) :=
  match step with
  | .node node => inferInstanceAs (Decidable (node.aliasName ∉ edgeAliasesOf earlier ∧
      ∀ label ∈ node.label, ∀ given ∈ labelsOf earlier node.aliasName, given = label))
  | .edge edge => inferInstanceAs (Decidable (∀ x ∈ edge.aliasName,
      x ∉ nodeAliasesOf earlier ∧ x ∉ edgeAliasesOf earlier))

/-- Every step introduces its alias. -/
def AliasesFresh (earlier : List PatternStep) : List PatternStep → Prop
  | [] => True
  | step :: rest => step.Introduces earlier ∧ AliasesFresh (earlier ++ [step]) rest

/-- Every step of the pattern introduces its alias, and so does the edge of
every `NOT EXISTS`. -/
def Query.AliasesFresh (query : Query) : Prop :=
  GraphEngine.AliasesFresh [] query.pattern.steps ∧
    ∀ subquery, .notExists subquery ∈ query.whereConditions →
      ∀ x ∈ edgeAliasesOf subquery.pattern.steps,
      x ∉ nodeAliasesOf query.pattern.steps ∧ x ∉ edgeAliasesOf query.pattern.steps

/-- The node aliases of two parts of a pattern, in order. -/
theorem nodeAliasesOf_append (earlier later : List PatternStep) :
    nodeAliasesOf (earlier ++ later) = nodeAliasesOf earlier ++ nodeAliasesOf later :=
  List.filterMap_append

/-- The edge aliases of two parts of a pattern, in order. -/
theorem edgeAliasesOf_append (earlier later : List PatternStep) :
    edgeAliasesOf (earlier ++ later) = edgeAliasesOf earlier ++ edgeAliasesOf later :=
  List.filterMap_append

/-- The labels an alias is given in two parts of a pattern. -/
theorem labelsOf_append (earlier later : List PatternStep) (x : String) :
    labelsOf (earlier ++ later) x = labelsOf earlier x ++ labelsOf later x :=
  List.filterMap_append

theorem aliasesApart_nil : AliasesApart [] where
  oneKind _ member := absurd member List.not_mem_nil
  oneEdge := List.nodup_nil
  oneLabel _ _ member := absurd member List.not_mem_nil

theorem labelsOf_singleton_node {node : NodePattern} {x : String} {label : Label} :
    label ∈ labelsOf [.node node] x ↔ node.aliasName = x ∧ node.label = some label := by
  simp [labelsOf]

/-- A node keeps the aliases apart exactly when it names no edge and relabels no
node. -/
theorem aliasesApart_concat_node {earlier : List PatternStep} {node : NodePattern} :
    AliasesApart (earlier ++ [.node node]) ↔ AliasesApart earlier ∧
      (PatternStep.node node).Introduces earlier := by
  have nodes : nodeAliasesOf (earlier ++ [.node node]) = nodeAliasesOf earlier ++
      [node.aliasName] :=
    nodeAliasesOf_append _ _
  have edges : edgeAliasesOf (earlier ++ [.node node]) = edgeAliasesOf earlier := by
    rw [edgeAliasesOf_append]
    exact List.append_nil _
  constructor
  · rintro ⟨oneKind, oneEdge, oneLabel⟩
    rw [edges] at oneKind oneEdge
    rw [nodes] at oneKind
    refine ⟨⟨fun x member => oneKind x (List.mem_append_left _ member),
        oneEdge, ?_⟩, ?_, ?_⟩
    · intro x label declared label' declared'
      apply oneLabel x
      · rw [labelsOf_append]
        exact List.mem_append_left _ declared
      · rw [labelsOf_append]
        exact List.mem_append_left _ declared'
    · exact oneKind _ (List.mem_append_right _ List.mem_cons_self)
    · intro label labelled given declared
      apply oneLabel node.aliasName
      · rw [labelsOf_append]
        exact List.mem_append_left _ declared
      · rw [labelsOf_append]
        exact List.mem_append_right _ (labelsOf_singleton_node.mpr ⟨rfl, labelled⟩)
  · rintro ⟨⟨oneKind, oneEdge, oneLabel⟩, notEdge, sameLabel⟩
    refine ⟨?_, edges ▸ oneEdge, ?_⟩
    · intro x bound
      rw [edges]
      rw [nodes] at bound
      rcases List.mem_append.mp bound with before | here
      · exact oneKind x before
      · rw [List.mem_singleton.mp here]
        exact notEdge
    · intro x label declared label' declared'
      rw [labelsOf_append] at declared declared'
      rcases List.mem_append.mp declared with before | here
      · rcases List.mem_append.mp declared' with before' | here'
        · exact oneLabel x label before label' before'
        · obtain ⟨rfl, labelled⟩ := labelsOf_singleton_node.mp here'
          exact sameLabel label' labelled label before
      · obtain ⟨rfl, labelled⟩ := labelsOf_singleton_node.mp here
        rcases List.mem_append.mp declared' with before' | here'
        · exact (sameLabel label labelled label' before').symm
        · exact Option.some.inj (labelled.symm.trans (labelsOf_singleton_node.mp here').2)

/-- An edge keeps the aliases apart exactly when its alias is new. -/
theorem aliasesApart_concat_edge {earlier : List PatternStep} {edge : EdgePattern} :
    AliasesApart (earlier ++ [.edge edge]) ↔ AliasesApart earlier ∧
      (PatternStep.edge edge).Introduces earlier := by
  have nodes : nodeAliasesOf (earlier ++ [.edge edge]) = nodeAliasesOf earlier := by
    rw [nodeAliasesOf_append]
    exact List.append_nil _
  have labels (x : String) : labelsOf (earlier ++ [.edge edge]) x =
      labelsOf earlier x := by
    rw [labelsOf_append]
    exact List.append_nil _
  have edges : edgeAliasesOf (earlier ++ [.edge edge]) = edgeAliasesOf earlier ++
      edge.aliasName.toList := by
    rw [edgeAliasesOf_append]
    cases aliased : edge.aliasName <;> simp [edgeAliasesOf, aliased]
  constructor
  · rintro ⟨oneKind, oneEdge, oneLabel⟩
    rw [edges] at oneKind oneEdge
    rw [nodes] at oneKind
    obtain ⟨before, -, disjoint⟩ := List.nodup_append.mp oneEdge
    refine ⟨⟨fun x bound inEdges => oneKind x bound (List.mem_append_left _ inEdges),
        before, ?_⟩, ?_⟩
    · intro x label declared label' declared'
      exact oneLabel x label (labels x ▸ declared) label' (labels x ▸ declared')
    · intro x aliased
      have listed : x ∈ edge.aliasName.toList := Option.mem_toList.mpr aliased
      exact ⟨fun bound => oneKind x bound (List.mem_append_right _ listed),
        fun inEdges => disjoint x inEdges x listed rfl⟩
  · rintro ⟨⟨oneKind, oneEdge, oneLabel⟩, introduces⟩
    have fresh : ∀ x ∈ edge.aliasName.toList, x ∉ nodeAliasesOf earlier ∧
        x ∉ edgeAliasesOf earlier :=
      fun x listed => introduces x (Option.mem_toList.mp listed)
    refine ⟨?_, ?_, fun x => labels x ▸ oneLabel x⟩
    · intro x bound inEdges
      rw [nodes] at bound
      rw [edges] at inEdges
      rcases List.mem_append.mp inEdges with before | here
      · exact oneKind x bound before
      · exact (fresh x here).1 bound
    · rw [edges, List.nodup_append]
      refine ⟨oneEdge, by cases edge.aliasName <;> simp, ?_⟩
      rintro x before y here rfl
      exact (fresh x here).2 before

/-- A step keeps the aliases apart exactly when it introduces its own. -/
theorem aliasesApart_concat {earlier : List PatternStep} {step : PatternStep} :
    AliasesApart (earlier ++ [step]) ↔ AliasesApart earlier ∧
      step.Introduces earlier := by
  cases step with
  | node node => exact aliasesApart_concat_node
  | edge edge => exact aliasesApart_concat_edge

/-- Steps that all introduce their aliases keep the aliases apart, and only they
do. -/
theorem aliasesApart_append {earlier later : List PatternStep} :
    AliasesApart (earlier ++ later) ↔ AliasesApart earlier ∧
      AliasesFresh earlier later := by
  induction later generalizing earlier with
  | nil => simp [AliasesFresh]
  | cons step rest inductionHypothesis =>
      rw [List.append_cons, inductionHypothesis, aliasesApart_concat, AliasesFresh,
        and_assoc]

/-- Aliases are apart exactly where every step brings fresh ones. -/
theorem aliasesApart_iff {steps : List PatternStep} :
    AliasesApart steps ↔ AliasesFresh [] steps := by
  have whole : AliasesApart ([] ++ steps) ↔ AliasesApart [] ∧ AliasesFresh [] steps :=
    aliasesApart_append
  rwa [List.nil_append, and_iff_right aliasesApart_nil] at whole

/-! ### Names of validated queries -/

/-- The edges with an alias are at one position when the edge aliases are
distinct. -/
theorem position_unique {steps : List PatternStep}
    (oneEdge : (edgeAliasesOf steps).Nodup) {x : String} {i j : Nat}
    {edge edge' : EdgePattern} (found : steps[i]? = some (.edge edge))
    (aliased : edge.aliasName = some x) (found' : steps[j]? = some (.edge edge'))
    (aliased' : edge'.aliasName = some x) : i = j := by
  have listed {rest : List PatternStep} {k : Nat} {e : EdgePattern}
      (at_ : rest[k]? = some (.edge e))
      (named : e.aliasName = some x) : x ∈ edgeAliasesOf rest :=
    List.mem_filterMap.mpr ⟨_, List.mem_of_getElem? at_, named⟩
  induction steps generalizing i j with
  | nil => cases found
  | cons step rest inductionHypothesis =>
      have split : edgeAliasesOf (step :: rest) = edgeAliasesOf [step] ++
          edgeAliasesOf rest :=
        edgeAliasesOf_append [step] rest
      rw [split, List.nodup_append] at oneEdge
      cases i with
      | zero =>
          cases j with
          | zero => rfl
          | succ j =>
              exact absurd rfl (oneEdge.2.2 x (listed (k := 0) found aliased) x
                (listed found' aliased'))
      | succ i =>
          cases j with
          | zero =>
              exact absurd rfl (oneEdge.2.2 x (listed (k := 0) found' aliased') x
                (listed found aliased))
          | succ j =>
              exact congrArg Nat.succ (inductionHypothesis oneEdge.2.1 found found')

/-- An alias with a label is that of a node. -/
theorem mem_nodeAliasesOf_of_labelsOf {steps : List PatternStep} {x : String}
    {label : Label} (declared : label ∈ labelsOf steps x) :
    x ∈ nodeAliasesOf steps := by
  obtain ⟨step, member, labelled⟩ := List.mem_filterMap.mp declared
  cases step with
  | edge edge => cases labelled
  | node node =>
      dsimp only at labelled
      split at labelled
      case isTrue named => exact List.mem_filterMap.mpr ⟨_, member, congrArg some named⟩
      case isFalse => cases labelled

/-- Where the aliases are apart, a name stands for one element. -/
theorem AliasesApart.single {steps : List PatternStep} (apart : AliasesApart steps)
    {x : String} {element element' : Element} (stands : StandsFor steps x element)
    (stands' : StandsFor steps x element') : element = element' := by
  have notBoth {position : Nat} {edge : EdgePattern} (bound : x ∈ nodeAliasesOf steps)
      (found : steps[position]? = some (.edge edge))
      (aliased : edge.aliasName = some x) : False :=
    apart.oneKind x bound
      (List.mem_filterMap.mpr ⟨_, List.mem_of_getElem? found, aliased⟩)
  cases stands with
  | labelled declared =>
      cases stands' with
      | labelled declared' => rw [apart.oneLabel x _ declared _ declared']
      | unlabelled bound undeclared =>
          rw [undeclared] at declared
          cases declared
      | edge found aliased =>
          exact (notBoth (mem_nodeAliasesOf_of_labelsOf declared) found aliased).elim
  | unlabelled bound undeclared =>
      cases stands' with
      | labelled declared =>
          rw [undeclared] at declared
          cases declared
      | unlabelled => rfl
      | edge found aliased => exact (notBoth bound found aliased).elim
  | edge found aliased =>
      cases stands' with
      | labelled declared =>
          exact (notBoth (mem_nodeAliasesOf_of_labelsOf declared) found aliased).elim
      | unlabelled bound undeclared => exact (notBoth bound found aliased).elim
      | edge found' aliased' =>
          rw [position_unique apart.oneEdge found aliased found' aliased']

/-- The body of a `NOT EXISTS` is an edge between two unlabelled nodes of the
outer pattern. -/
structure EdgeBetween (outer body : List PatternStep) (fromNode : NodePattern)
    (edge : EdgePattern) (toNode : NodePattern) : Prop where
  steps : body = [.node fromNode, .edge edge, .node toNode]
  fromBound : fromNode.aliasName ∈ nodeAliasesOf outer
  toBound : toNode.aliasName ∈ nodeAliasesOf outer
  fromUnlabelled : fromNode.label = none
  toUnlabelled : toNode.label = none

section Bodies

variable {outer body : List PatternStep} {fromNode toNode : NodePattern}
variable {edge : EdgePattern}

/-- The subquery brings the alias of its edge alone. -/
theorem EdgeBetween.edgeAliases (between : EdgeBetween outer body fromNode edge toNode) :
    edgeAliasesOf body = edge.aliasName.toList := by
  rw [between.steps]
  cases aliased : edge.aliasName <;> simp [edgeAliasesOf, aliased]

/-- The subquery gives no alias a label. -/
theorem EdgeBetween.labels (between : EdgeBetween outer body fromNode edge toNode)
    (x : String) : labelsOf body x = [] := by
  rw [between.steps]
  simp [labelsOf, between.fromUnlabelled, between.toUnlabelled]

/-- The nodes of the subquery are those of the outer query. -/
theorem EdgeBetween.nodeAliases
    (between : EdgeBetween outer body fromNode edge toNode) {x : String}
    (bound : x ∈ nodeAliasesOf body) : x ∈ nodeAliasesOf outer := by
  rw [between.steps] at bound
  have either : x = fromNode.aliasName ∨ x = toNode.aliasName := by
    simpa [nodeAliasesOf] using bound
  cases either with
  | inl first => exact first ▸ between.fromBound
  | inr last => exact last ▸ between.toBound

/-- Such a body leaves the aliases apart exactly when its edge has a name of its
own. -/
theorem EdgeBetween.aliasesApart_iff
    (between : EdgeBetween outer body fromNode edge toNode)
    (apart : AliasesApart outer) : AliasesApart (outer ++ body) ↔
      ∀ x ∈ edgeAliasesOf body, x ∉ nodeAliasesOf outer ∧ x ∉ edgeAliasesOf outer := by
  constructor
  · intro whole x named
    have inWhole : x ∈ edgeAliasesOf (outer ++ body) := by
      rw [edgeAliasesOf_append]
      exact List.mem_append_right _ named
    constructor
    · intro bound
      apply whole.oneKind x ?_ inWhole
      rw [nodeAliasesOf_append]
      exact List.mem_append_left _ bound
    · intro outside
      have distinct := whole.oneEdge
      rw [edgeAliasesOf_append, List.nodup_append] at distinct
      exact distinct.2.2 x outside x named rfl
  · intro own
    have edgeOwn : ∀ x ∈ edge.aliasName, x ∉ nodeAliasesOf outer ∧
        x ∉ edgeAliasesOf outer := by
      intro x aliased
      apply own
      rw [between.edgeAliases]
      exact Option.mem_toList.mpr aliased
    rw [aliasesApart_append, between.steps]
    refine ⟨apart, ⟨apart.oneKind _ between.fromBound, ?_⟩, ?_, ⟨?_, ?_⟩, trivial⟩
    · simp [between.fromUnlabelled]
    · intro x aliased
      rw [nodeAliasesOf_append, edgeAliasesOf_append]
      constructor
      · intro bound
        rcases List.mem_append.mp bound with before | here
        · exact (edgeOwn x aliased).1 before
        · have same : x = fromNode.aliasName := by simpa [nodeAliasesOf] using here
          exact (edgeOwn x aliased).1 (same ▸ between.fromBound)
      · simpa [edgeAliasesOf] using (edgeOwn x aliased).2
    · intro inEdges
      rw [edgeAliasesOf_append, edgeAliasesOf_append] at inEdges
      rcases List.mem_append.mp inEdges with before | here
      · exact apart.oneKind _ between.toBound (by simpa [edgeAliasesOf] using before)
      · have aliased : edge.aliasName = some toNode.aliasName := by
          simpa [edgeAliasesOf] using here
        exact (edgeOwn _ aliased).1 between.toBound
    · simp [between.toUnlabelled]

/-- With a name of its own, the edge of the body is all that the name stands
for, and the body changes nothing else. -/
theorem EdgeBetween.sorted (between : EdgeBetween outer body fromNode edge toNode)
    (own : ∀ x ∈ edgeAliasesOf body, x ∉ nodeAliasesOf outer ∧
      x ∉ edgeAliasesOf outer) {x : String} {element : Element}
    (stands : StandsFor (outer ++ body) x element) :
    if x ∈ edgeAliasesOf body then ∃ position ≥ outer.length, element = .edge position
    else StandsFor outer x element := by
  have outerLabels : labelsOf (outer ++ body) x = labelsOf outer x := by
    rw [labelsOf_append, between.labels, List.append_nil]
  have outerNodes (bound : x ∈ nodeAliasesOf (outer ++ body)) :
      x ∈ nodeAliasesOf outer := by
    rw [nodeAliasesOf_append] at bound
    exact (List.mem_append.mp bound).elim id between.nodeAliases
  split
  case isTrue inner =>
    cases stands with
    | labelled declared =>
        rw [outerLabels] at declared
        exact absurd (mem_nodeAliasesOf_of_labelsOf declared) (own x inner).1
    | unlabelled bound undeclared => exact absurd (outerNodes bound) (own x inner).1
    | @edge position edge found aliased =>
        refine ⟨position, ?_, rfl⟩
        by_contra before
        rw [List.getElem?_append_left (Nat.lt_of_not_le before)] at found
        exact (own x inner).2
          (List.mem_filterMap.mpr ⟨_, List.mem_of_getElem? found, aliased⟩)
  case isFalse notInner =>
    cases stands with
    | labelled declared => exact .labelled (outerLabels ▸ declared)
    | unlabelled bound undeclared =>
        exact .unlabelled (outerNodes bound) (outerLabels ▸ undeclared)
    | @edge position edge found aliased =>
        by_cases before : position < outer.length
        · rw [List.getElem?_append_left before] at found
          exact .edge found aliased
        · rw [List.getElem?_append_right (Nat.le_of_not_lt before)] at found
          exact absurd (List.mem_filterMap.mpr
            ⟨_, List.mem_of_getElem? found, aliased⟩) notInner

end Bodies

namespace SchemaValidator

/-- The node aliases are those the scope has for bound. -/
theorem mem_nodeAliasesOf_iff {pattern : Pattern} {x : String} :
    x ∈ nodeAliasesOf pattern.steps ↔ x ∈ (scopeOf pattern).boundNodes := by
  rw [mem_scopeOf_boundNodes]
  constructor
  · intro listed
    obtain ⟨step, member, named⟩ := List.mem_filterMap.mp listed
    cases step with
    | node node => exact ⟨node, member, Option.some.inj named⟩
    | edge edge => cases named
  · rintro ⟨node, member, rfl⟩
    exact List.mem_filterMap.mpr ⟨_, member, rfl⟩

theorem validateAnchor_unlabelled {outer : Scope} {anchor : NodePattern}
    (valid : validateAnchor outer anchor = []) : anchor.label = none := by
  rw [validateAnchor] at valid
  split at valid
  case isTrue => cases valid
  case isFalse fine =>
    rw [not_or, not_or] at fine
    exact Option.not_isSome_iff_eq_none.mp fine.2.1

/-- A subquery that is accepted is an edge between nodes of the outer query. -/
theorem edgeBetween_of_valid {query : Query} {schema : Schema}
    (valid : violations query schema = []) {subquery : ExistsSubquery}
    (listed : .notExists subquery ∈ query.whereConditions) :
    ∃ fromNode edge toNode, EdgeBetween query.pattern.steps subquery.pattern.steps
      fromNode edge toNode := by
  have checked : validateNotExists schema (scopeOf query.pattern) subquery = [] :=
    whereCondition_valid valid listed
  obtain ⟨fromNode, edge, toNode, validExists⟩ := notExists_valid checked
  rw [validateNotExists, validExists.steps] at checked
  simp only [List.append_eq_nil_iff, List.flatMap_eq_nil_iff] at checked
  have anchors := checked.1.1.1.1
  exact ⟨fromNode, edge, toNode,
    { steps := validExists.steps
      fromBound := mem_nodeAliasesOf_iff.mpr validExists.fromBound
      toBound := mem_nodeAliasesOf_iff.mpr validExists.toBound
      fromUnlabelled := validateAnchor_unlabelled (anchors fromNode (by simp))
      toUnlabelled := validateAnchor_unlabelled (anchors toNode (by simp)) }⟩

end SchemaValidator

/-! ### Validated queries -/

section Queries

variable {query : Query} {schema : Schema}

/-- The steps of a plan bind the aliases of the pattern. -/
theorem aliases_of_plan {queryPlan : QueryPlan}
    (planned : NaivePlanner.plan query = .ok queryPlan) :
    queryPlan.steps.flatMap PlanStep.nodeAliases = nodeAliasesOf query.pattern.steps ∧
      queryPlan.steps.flatMap PlanStep.edgeAliases =
        edgeAliasesOf query.pattern.steps := by
  obtain ⟨first, segments, start, antiJoins, shape⟩ := planShape_of_plan planned
  obtain ⟨-, startNodes, startEdges⟩ := start_isStart shape.started
  obtain ⟨noNodes, noEdges⟩ := aliases_antiJoins shape
  rw [shape.planEq, shape.patternEq]
  constructor
  · rw [List.flatMap_cons, List.flatMap_append, startNodes, nodeAliases_hopsOf,
      noNodes, List.append_nil, ← nodeAliasesOf_segmentSteps]
    exact (nodeAliasesOf_append [.node first] _).symm
  · rw [List.flatMap_cons, List.flatMap_append, startEdges, edgeAliases_hopsOf,
      noEdges, List.append_nil, ← edgeAliasesOf_segmentSteps]
    exact (edgeAliasesOf_append [.node first] _).symm

variable [Chrono]

/-- With the aliases of the pattern apart, an alias that the coordinator looks
up is what the pattern says. -/
theorem classifiesAliases_of_apart (apart : AliasesApart query.pattern.steps) :
    ClassifiesAliases query := by
  intro queryPlan planned rpc hasher partitions carries serve order time bindings
    ends x kind known
  have binds := (execute_always carries).run ends
  rw [Homogeneous, (aliases_of_plan planned).1, (aliases_of_plan planned).2] at binds
  rw [getElem?_aliasIsEdge] at known
  have found : GraphServiceImpl.aliasKind bindings x = some kind := by
    split at known
    case isTrue => exact known
    case isFalse => cases known
  have nonempty : bindings ≠ [] := by
    rintro rfl
    cases found
  rw [aliasKind_eq binds nonempty] at found
  split at found
  case isTrue edge =>
    cases found
    have notNode : x ∉ nodeAliasesOf query.pattern.steps :=
      fun node => apart.oneKind x node edge
    simp [edge, notNode]
  case isFalse notEdge =>
    split at found
    case isFalse => cases found
    case isTrue node =>
      cases found
      simp [node, notEdge]

/-- The names of a validated query are unambiguous exactly when each step of its
pattern, and the edge of each `NOT EXISTS`, introduces its alias.  The condition
is one pass over the query that the validator does not make.  It decides what is
said of every name: that it is one slot of a binding, one element of the pattern
or of the body it stands in, and of the kind that the coordinator takes it for
in every run. -/
theorem aliasesUnambiguous_iff (valid : SchemaValidator.validate query schema = .ok ()) :
    AliasesUnambiguous query ↔ query.AliasesFresh := by
  have checked := SchemaValidator.validate_eq_ok_iff.mp valid
  constructor
  · intro unambiguous
    have outer := unambiguous.apart _ .pattern
    refine ⟨aliasesApart_iff.mp outer, fun subquery listed => ?_⟩
    obtain ⟨fromNode, edge, toNode, between⟩ :=
      SchemaValidator.edgeBetween_of_valid checked listed
    exact (between.aliasesApart_iff outer).mp (unambiguous.apart _ (.body listed))
  · rintro ⟨fresh, own⟩
    have outer := aliasesApart_iff.mpr fresh
    have apart : ∀ steps, query.InScope steps → AliasesApart steps := by
      intro steps inScope
      cases inScope with
      | pattern => exact outer
      | @body subquery listed =>
          obtain ⟨fromNode, edge, toNode, between⟩ :=
            SchemaValidator.edgeBetween_of_valid checked listed
          exact (between.aliasesApart_iff outer).mpr (own subquery listed)
    constructor
    case apart => exact apart
    case single =>
      intro steps inScope x element element' stands stands'
      exact (apart steps inScope).single stands stands'
    case sorted =>
      intro subquery listed x element stands
      obtain ⟨fromNode, edge, toNode, between⟩ :=
        SchemaValidator.edgeBetween_of_valid checked listed
      exact between.sorted (own subquery listed) stands
    case classified => exact classifiesAliases_of_apart outer

end Queries

section

open scoped Social

/-- `MATCH (a:Person)-[:KNOWS]->(b:Person) RETURN b`: every name stands for one
element. -/
theorem acquaintances_unambiguous : AliasesUnambiguous Social.acquaintances := by
  apply (aliasesUnambiguous_iff Social.acquaintances_valid).mpr
  constructor
  · exact ⟨by decide, by decide, by decide, trivial⟩
  · intro subquery listed
    cases listed

/-- `-[alias:KNOWS]->`. -/
def knowsAs (aliasName : String) : EdgePattern :=
  { Social.typed Social.knows with aliasName := some aliasName }

/-- `MATCH (a:Person)-[a:KNOWS]->(b:Person) RETURN a`. -/
def acquaintanceNamedTwice : Query :=
  Social.matching
    [.node (Social.labelled "a" Social.person), .edge (knowsAs "a"),
      .node (Social.labelled "b" Social.person)] "a"

/-- The validator accepts one name for a node and for an edge. -/
theorem acquaintanceNamedTwice_ambiguous :
    SchemaValidator.validate acquaintanceNamedTwice Social.schema = .ok () ∧
      ¬ AliasesUnambiguous acquaintanceNamedTwice := by
  constructor
  · decide
  · intro unambiguous
    exact (unambiguous.apart _ .pattern).oneKind "a" (by decide) (by decide)

end

/-! ### Bare items of a RETURN -/

namespace SchemaValidator

/-- A pattern binds the types of its aliased edges, where they have one. -/
theorem mem_edgeTypes {steps : List PatternStep} {scope : Scope} {x : String} :
    x ∈ (steps.foldl Scope.bindStep scope).edgeTypes ↔
      x ∈ scope.edgeTypes ∨ ∃ edge, .edge edge ∈ steps ∧ edge.aliasName = some x ∧
        edge.edgeType.isSome := by
  induction steps generalizing scope with
  | nil => simp
  | cons step rest inductionHypothesis =>
      rw [List.foldl_cons, inductionHypothesis]
      cases step with
      | node node => simp [Scope.bindStep, Scope.bindNode]
      | edge edge =>
          have here : x ∈ (Scope.bindStep scope (.edge edge)).edgeTypes ↔
              x ∈ scope.edgeTypes ∨ edge.aliasName = some x ∧ edge.edgeType.isSome := by
            rw [Scope.bindStep, Scope.bindEdge]
            cases aliased : edge.aliasName with
            | none => simp
            | some aliasName =>
                cases typed : edge.edgeType with
                | none => simp
                | some edgeType => simp [Std.ExtTreeMap.mem_insert, or_comm]
          rw [here]
          simp only [List.mem_cons, PatternStep.edge.injEq, or_and_right, exists_or,
            exists_eq_left, or_assoc]

theorem mem_scopeOf_edgeTypes {pattern : Pattern} {x : String} :
    x ∈ (scopeOf pattern).edgeTypes ↔
    ∃ edge, .edge edge ∈ pattern.steps ∧ edge.aliasName = some x ∧
      edge.edgeType.isSome := by
  rw [scopeOf, mem_edgeTypes]
  simp

end SchemaValidator

/-- The validator reports the alias of a bare item as unknown, on account of
that item. -/
def ReportsUnknown (query : Query) (schema : Schema) (x : String) : Prop :=
  .unknownAlias x ∈ SchemaValidator.validateReturnItem
    { aliasName := x, property := none } schema
      (SchemaValidator.scopeOf query.pattern) ∧
    ∃ errors, SchemaValidator.validate query schema = .error errors ∧
      .unknownAlias x ∈ errors

/-- The alias is that of an edge, but of no edge with a type and of no node. -/
def OnlyUntyped (pattern : Pattern) (x : String) : Prop :=
  x ∉ nodeAliasesOf pattern.steps ∧ x ∈ edgeAliasesOf pattern.steps ∧
    ∀ edge, .edge edge ∈ pattern.steps → edge.aliasName = some x → edge.edgeType = none

section Returns

variable {query : Query} {schema : Schema} {x : String}

/-- The validator knows the names of nodes and of typed edges. -/
theorem reportsUnknown_iff_unbound
    (returned : { aliasName := x, property := none } ∈ query.returns) :
    ReportsUnknown query schema x ↔ x ∉ nodeAliasesOf query.pattern.steps ∧
      x ∉ (SchemaValidator.scopeOf query.pattern).edgeTypes := by
  rw [ReportsUnknown, SchemaValidator.validateReturnItem,
    SchemaValidator.mem_nodeAliasesOf_iff]
  dsimp only
  constructor
  · rintro ⟨reported, -⟩
    split at reported
    case isTrue unbound => exact unbound
    case isFalse => cases reported
  · intro unbound
    rw [if_pos unbound]
    have reported : .unknownAlias x ∈ SchemaValidator.violations query schema := by
      rw [SchemaValidator.violations]
      apply List.mem_append_left
      apply List.mem_append_right
      apply List.mem_flatMap.mpr
      refine ⟨_, returned, ?_⟩
      rw [SchemaValidator.validateReturnItem]
      dsimp only
      rw [if_pos unbound]
      exact List.mem_singleton_self _
    exact ⟨List.mem_singleton_self _, _, if_neg (List.ne_nil_of_mem reported), reported⟩

/-- A bare item is reported as unknown if and only if the pattern does not bind
its alias, exactly when the alias is not only that of untyped edges.  Such an
edge is in none of the maps that the validator looks an alias up in, though the
pattern binds it.  The query need not be valid otherwise. -/
theorem reportsUnknown_iff
    (returned : { aliasName := x, property := none } ∈ query.returns) :
    (ReportsUnknown query schema x ↔
        x ∉ nodeAliasesOf query.pattern.steps ∧ x ∉ edgeAliasesOf query.pattern.steps) ↔
      ¬ OnlyUntyped query.pattern x := by
  have typedBound : x ∈ (SchemaValidator.scopeOf query.pattern).edgeTypes →
      x ∈ edgeAliasesOf query.pattern.steps := by
    intro typed
    obtain ⟨edge, member, aliased, -⟩ := SchemaValidator.mem_scopeOf_edgeTypes.mp typed
    exact List.mem_filterMap.mpr ⟨_, member, aliased⟩
  rw [reportsUnknown_iff_unbound returned]
  constructor
  · rintro agrees ⟨notNode, inEdges, untyped⟩
    refine (agrees.mp ⟨notNode, ?_⟩).2 inEdges
    intro typed
    obtain ⟨edge, member, aliased, hasType⟩ :=
      SchemaValidator.mem_scopeOf_edgeTypes.mp typed
    rw [untyped edge member aliased] at hasType
    cases hasType
  · intro settled
    constructor
    · rintro ⟨notNode, notTyped⟩
      refine ⟨notNode, fun inEdges => settled ⟨notNode, inEdges, ?_⟩⟩
      intro edge member aliased
      by_contra typed
      exact notTyped (SchemaValidator.mem_scopeOf_edgeTypes.mpr
        ⟨edge, member, aliased, Option.isSome_iff_ne_none.mpr typed⟩)
    · rintro ⟨notNode, notEdge⟩
      exact ⟨notNode, fun typed => notEdge (typedBound typed)⟩

end Returns

section

open scoped Social

/-- The endpoint of an acquaintance is bound, and returned without complaint. -/
theorem acquaintances_reportsUnknown_iff :
    ReportsUnknown Social.acquaintances Social.schema "b" ↔
    "b" ∉ nodeAliasesOf Social.acquaintances.pattern.steps ∧
      "b" ∉ edgeAliasesOf Social.acquaintances.pattern.steps :=
  (reportsUnknown_iff (by decide)).mpr fun only => only.1 (by decide)

/-- `MATCH (a:Person)-[e]->(b:Person) RETURN e`. -/
def untypedReturned : Query :=
  Social.matching
    [.node (Social.labelled "a" Social.person),
      .edge { knowsAs "e" with edgeType := none },
     .node (Social.labelled "b" Social.person)] "e"

/-- The alias of an edge without a type is bound, yet reported as unknown. -/
theorem untypedReturned_reportsUnknown :
    (∀ step ∈ untypedReturned.pattern.steps,
      SchemaValidator.validateStep Social.schema step = []) ∧
      ¬ (ReportsUnknown untypedReturned Social.schema "e" ↔
        "e" ∉ nodeAliasesOf untypedReturned.pattern.steps ∧
          "e" ∉ edgeAliasesOf untypedReturned.pattern.steps) := by
  refine ⟨by decide, fun agrees => ?_⟩
  have reported : ReportsUnknown untypedReturned Social.schema "e" :=
    ⟨by decide, [.unknownAlias "e"], by decide, by decide⟩
  exact (agrees.mp reported).2 (by decide)

end

end GraphEngine
