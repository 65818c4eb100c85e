/-
Module: GraphEngine.Lib.ClientSimulation
Layer: Lib
Purpose: Compare two client programs that meet the same reads and the same
  enumerations.  `Similar Lost R left right` pairs the two trees node by node
  and relates the results at the leaves by `R`; two failures are paired whatever
  their errors say, and the left program may give up anywhere with an error of
  `Lost`.
Trusted boundary: none
Main exports: Client.SameClass, Client.Similar, Client.Similar.bind,
  Client.Similar.foldlM, Client.Similar.collect, Client.Similar.sameClass_run
-/
import GraphEngine.Lib.ClientRules

namespace GraphEngine

namespace Client

variable {Cell State Err α α' β β' : Type}

/-- Two outcomes of one class: related results, or two failures. -/
inductive SameClass (R : α → β → Prop) : Except Err α → Except Err β → Prop where
  | ok {a : α} {b : β} (related : R a b) : SameClass R (.ok a) (.ok b)
  | error (e e' : Err) : SameClass R (.error e) (.error e')

/-- Two programs with the same reads and enumerations whose leaves are of one
class, up to where the left one gives up. -/
inductive Similar (Lost : Err → Prop) (R : α → β → Prop) :
    Client Cell State Err α → Client Cell State Err β → Prop where
  | lost {e : Err} {right : Client Cell State Err β} (gaveUp : Lost e) :
      Similar Lost R (.done (.error e)) right
  | done {left : Except Err α} {right : Except Err β} (leaves : SameClass R left right) :
      Similar Lost R (.done left) (.done right)
  | choose {size : Nat} {left : Equiv.Perm (Fin size) → Client Cell State Err α}
      {right : Equiv.Perm (Fin size) → Client Cell State Err β}
      (rest : ∀ order, Similar Lost R (left order) (right order)) :
      Similar Lost R (.choose size left) (.choose size right)
  | read {cell : Cell} {left : State → Client Cell State Err α}
      {right : State → Client Cell State Err β}
      (rest : ∀ state, Similar Lost R (left state) (right state)) :
      Similar Lost R (.read cell left) (.read cell right)

namespace Similar

variable {Lost : Err → Prop}

/-! ### Leaves -/

/-- Related values are returned alike. -/
theorem pure {R : α → β → Prop} {a : α} {b : β} (related : R a b) :
    Similar Lost R (pure a : Client Cell State Err α) (pure b) :=
  .done (.ok related)

/-- Programs that fail are similar, whatever they report. -/
theorem fail {R : α → β → Prop} (e e' : Err) :
    Similar Lost R (fail e : Client Cell State Err α) (fail e') :=
  .done (.error e e')

/-- A program is similar to itself up to equality of results. -/
theorem refl (prog : Client Cell State Err α) : Similar Lost (· = ·) prog prog := by
  induction prog with
  | done outcome =>
      cases outcome with
      | ok a => exact .done (.ok rfl)
      | error e => exact .done (.error e e)
  | choose size next inductionHypothesis => exact .choose inductionHypothesis
  | read cell next inductionHypothesis => exact .read inductionHypothesis

/-- The left program may report its errors otherwise. -/
theorem mapErrorLeft {R : α → β → Prop} {left : Client Cell State Err α}
    {right : Client Cell State Err β}
    (similar : Similar (fun _ => False) R left right) (f : Err → Err) :
    Similar Lost R (left.mapError f) right := by
  induction similar with
  | lost gaveUp => cases gaveUp
  | done leaves =>
      cases leaves with
      | ok related => exact .done (.ok related)
      | error e e' => exact .done (.error _ _)
  | choose _ inductionHypothesis => exact .choose inductionHypothesis
  | read _ inductionHypothesis => exact .read inductionHypothesis

/-- Where the right program meets a specification, the left one ends with a
result related to one of that specification, fails where the right one may, or
gives up. -/
theorem meets {serve : Cell → State} {R : α → β → Prop} {Post : β → Prop}
    {Fault : Err → Prop} {left : Client Cell State Err α}
    {right : Client Cell State Err β} (similar : Similar Lost R left right)
    (met : right.Meets serve Post Fault) :
    left.Meets serve (fun a => ∃ b, R a b ∧ Post b)
      (fun e => Lost e ∨ ∃ e', Fault e') := by
  induction similar with
  | lost gaveUp => exact .inl gaveUp
  | done leaves =>
      cases leaves with
      | ok related => exact ⟨_, related, met⟩
      | error e e' => exact .inr ⟨e', met⟩
  | choose _ inductionHypothesis =>
      exact fun order => inductionHypothesis order (met order)
  | read _ inductionHypothesis => exact inductionHypothesis _ met

/-- What the right program ensures of its results holds of the results of the
left one. -/
theorem always {Post : α → Prop} {left right : Client Cell State Err α}
    (similar : Similar Lost (· = ·) left right) (ensured : right.Always Post) :
    left.Always Post := by
  induction similar with
  | lost gaveUp => exact True.intro
  | done leaves =>
      cases leaves with
      | ok same => exact same ▸ ensured
      | error e e' => exact True.intro
  | choose _ inductionHypothesis =>
      exact fun order => inductionHypothesis order (ensured order)
  | read _ inductionHypothesis =>
      exact fun state => inductionHypothesis state (ensured state)

/-! ### Sequences and loops -/

/-- Similar programs followed by similar bodies are similar. -/
theorem bind {R : α → α' → Prop} {S : β → β' → Prop}
    {left : Client Cell State Err α} {right : Client Cell State Err α'}
    {body : α → Client Cell State Err β} {body' : α' → Client Cell State Err β'}
    (first : Similar Lost R left right)
    (rest : ∀ a a', R a a' → Similar Lost S (body a) (body' a')) :
    Similar Lost S (left >>= body) (right >>= body') := by
  rw [bind_def, bind_def]
  induction first with
  | lost gaveUp => exact .lost gaveUp
  | done leaves =>
      cases leaves with
      | ok related => exact rest _ _ related
      | error e e' => exact .done (.error e e')
  | choose _ inductionHypothesis => exact .choose inductionHypothesis
  | read _ inductionHypothesis => exact .read inductionHypothesis

/-- Sequencing after equal results. -/
theorem bindEq {S : β → β' → Prop} {left right : Client Cell State Err α}
    {body : α → Client Cell State Err β} {body' : α → Client Cell State Err β'}
    (first : Similar Lost (· = ·) left right)
    (rest : ∀ a, Similar Lost S (body a) (body' a)) :
    Similar Lost S (left >>= body) (right >>= body') := by
  apply first.bind
  intro a a' same
  cases same
  exact rest a

/-- Sequencing after one and the same program. -/
theorem bindSame {S : β → β' → Prop} (prog : Client Cell State Err α)
    {body : α → Client Cell State Err β} {body' : α → Client Cell State Err β'}
    (rest : ∀ a, Similar Lost S (body a) (body' a)) :
    Similar Lost S (prog >>= body) (prog >>= body') :=
  (refl prog).bindEq rest

/-- Post-processing the left-hand result. -/
theorem bindLeft {R : α → β → Prop} {S : α' → β → Prop}
    {left : Client Cell State Err α} {right : Client Cell State Err β}
    {body : α → Client Cell State Err α'} (first : Similar Lost R left right)
    (rest : ∀ a b, R a b → Similar Lost S (body a) (Pure.pure b)) :
    Similar Lost S (left >>= body) right := by
  have self : right >>= Pure.pure = right := bind_pure right
  rw [← self]
  exact first.bind rest

/-- Loops with similar bodies are similar. -/
theorem collect {body body' : α → Client Cell State Err (List β)} (l : List α)
    (each : ∀ a ∈ l, Similar Lost (· = ·) (body a) (body' a)) :
    Similar Lost (· = ·) (collect body l) (collect body' l) := by
  induction l with
  | nil => exact .pure rfl
  | cons a rest inductionHypothesis =>
      apply (each a List.mem_cons_self).bindEq
      intro found
      apply (inductionHypothesis fun b member =>
        each b (List.mem_cons_of_mem a member)).bindEq
      intro more
      exact .pure rfl

/-- The loop rule: an iteration keeps the two accumulators related. -/
theorem foldlM {R : β → β' → Prop} {body : β → α → Client Cell State Err β}
    {body' : β' → α → Client Cell State Err β'} (l : List α) {start : β}
    {start' : β'} (init : R start start')
    (step : ∀ acc acc', ∀ a ∈ l, R acc acc' →
      Similar Lost R (body acc a) (body' acc' a)) :
    Similar Lost R (l.foldlM body start) (l.foldlM body' start') := by
  induction l generalizing start start' with
  | nil => exact .pure init
  | cons a rest inductionHypothesis =>
      simp only [List.foldlM_cons]
      apply (step _ _ a List.mem_cons_self init).bind
      intro next next' related
      apply inductionHypothesis related
      intro acc acc' b member
      exact step acc acc' b (List.mem_cons_of_mem a member)

/-! ### Outcomes -/

/-- Under every history of the cells and every choice of enumeration orders, the
left program gives up or the two outcomes are of one class. -/
theorem sameClass_run {R : α → β → Prop} {left : Client Cell State Err α}
    {right : Client Cell State Err β} (similar : Similar Lost R left right)
    (serve : Nat → Cell → State)
    (order : Nat → (size : Nat) → Equiv.Perm (Fin size)) (time : Nat) :
    (∃ e, left.run serve order time = .error e ∧ Lost e) ∨
      SameClass R (left.run serve order time) (right.run serve order time) := by
  induction similar generalizing time with
  | lost gaveUp => exact .inl ⟨_, rfl, gaveUp⟩
  | done leaves => exact .inr leaves
  | choose _ inductionHypothesis => exact inductionHypothesis _ _
  | read _ inductionHypothesis => exact inductionHypothesis _ _

end Similar

end Client

end GraphEngine
