/-
Module: GraphEngine.Lib.PegRuns
Layer: Lib
Purpose: What a parsing expression does at a place of the input, fuel aside: one
  rule for each way in which an operator succeeds or fails.
Trusted boundary: none
Main exports: Grammar.Yields, Grammar.run_mono, Grammar.Yields.unique
-/
import GraphEngine.Lib.Peg

namespace GraphEngine

namespace Grammar

variable {ρ : Type} {g : Grammar ρ} {size : Nat} {isAtomic : Bool} {e e' : Peg ρ}
variable {rest : List Char}

/-- More fuel changes nothing. -/
theorem run_succ {fuel : Nat} {outcome : Outcome ρ}
    (ran : run g size fuel isAtomic e rest = some outcome) :
    run g size (fuel + 1) isAtomic e rest = some outcome := by
  induction fuel generalizing isAtomic e rest outcome with
  | zero => simp [run] at ran
  | succ fuel ih =>
      cases e with
      | literal | startOfInput | endOfInput => exact ran
      | char => cases rest <;> exact ran
      | trivia =>
          rw [run] at ran ⊢
          split
          case isTrue inside => rwa [if_pos inside] at ran
          case isFalse outside =>
              rw [if_neg outside] at ran
              exact ih ran
      | rule name =>
          rw [run, Option.map_eq_some_iff] at ran
          obtain ⟨inner, body, rfl⟩ := ran
          rw [run, ih body, Option.map_some]
      | seq first second =>
          rw [run, Option.bind_eq_some_iff] at ran
          obtain ⟨inner, head, ran⟩ := ran
          rw [run, ih head, Option.bind_some]
          cases inner with
          | none => exact ran
          | some matched =>
              obtain ⟨later, tail, rfl⟩ := Option.map_eq_some_iff.mp ran
              exact Option.map_eq_some_iff.mpr ⟨later, ih tail, rfl⟩
      | choice first second =>
          rw [run, Option.bind_eq_some_iff] at ran
          obtain ⟨inner, head, ran⟩ := ran
          rw [run, ih head, Option.bind_some]
          cases inner with
          | none => exact ih ran
          | some matched => exact ran
      | optional body =>
          rw [run, Option.map_eq_some_iff] at ran
          obtain ⟨inner, head, rfl⟩ := ran
          rw [run, ih head, Option.map_some]
      | many body =>
          rw [run, Option.bind_eq_some_iff] at ran
          obtain ⟨inner, head, ran⟩ := ran
          rw [run, ih head, Option.bind_some]
          cases inner with
          | none => exact ran
          | some matched =>
              obtain ⟨later, tail, rfl⟩ := Option.map_eq_some_iff.mp ran
              exact Option.map_eq_some_iff.mpr ⟨later, ih tail, rfl⟩
      | notAhead body =>
          rw [run, Option.map_eq_some_iff] at ran
          obtain ⟨inner, head, rfl⟩ := ran
          rw [run, ih head, Option.map_some]

/-- More fuel gives the same outcome. -/
theorem run_mono {fuel fuel' : Nat} {outcome : Outcome ρ}
    (ran : run g size fuel isAtomic e rest = some outcome) (more : fuel ≤ fuel') :
    run g size fuel' isAtomic e rest = some outcome := by
  induction more with
  | refl => exact ran
  | step _ ih => exact run_succ ih

/-- With enough fuel the expression has this outcome here. -/
def Yields (g : Grammar ρ) (size : Nat) (isAtomic : Bool) (e : Peg ρ)
    (rest : List Char) (outcome : Outcome ρ) : Prop :=
  ∃ fuel, run g size fuel isAtomic e rest = some outcome

namespace Yields

/-- An expression has one outcome on a text. -/
theorem unique {outcome outcome' : Outcome ρ}
    (yields : g.Yields size isAtomic e rest outcome)
    (yields' : g.Yields size isAtomic e rest outcome') : outcome = outcome' := by
  obtain ⟨fuel, ran⟩ := yields
  obtain ⟨fuel', ran'⟩ := yields'
  have both := run_mono ran (Nat.le_max_left fuel fuel')
  rw [run_mono ran' (Nat.le_max_right fuel fuel')] at both
  exact (Option.some.inj both).symm

/-- Two runs with the same fuel. -/
theorem both {rest' : List Char} {isAtomic' : Bool} {outcome outcome' : Outcome ρ}
    (yields : g.Yields size isAtomic e rest outcome)
    (yields' : g.Yields size isAtomic' e' rest' outcome') :
    ∃ fuel, run g size fuel isAtomic e rest = some outcome ∧
      run g size fuel isAtomic' e' rest' = some outcome' := by
  obtain ⟨fuel, ran⟩ := yields
  obtain ⟨fuel', ran'⟩ := yields'
  exact ⟨max fuel fuel', run_mono ran (Nat.le_max_left _ _),
    run_mono ran' (Nat.le_max_right _ _)⟩

/-! ### Characters -/

/-- A literal in front of the rest is taken. -/
theorem literal (text rest : List Char) :
    g.Yields size isAtomic (.literal text) (text ++ rest) (some ([], rest)) := by
  have stripped : stripText text (text ++ rest) = some rest := stripText_eq_some.mpr rfl
  exact ⟨1, by rw [run, stripped]; rfl⟩

/-- A literal that is not in front fails. -/
theorem literal_none {text : List Char} (apart : ¬ text <+: rest) :
    g.Yields size isAtomic (.literal text) rest none := by
  have stripped : stripText text rest = none := by
    cases found : stripText text rest with
    | none => rfl
    | some rest' => exact absurd ⟨rest', (stripText_eq_some.mp found).symm⟩ apart
  exact ⟨1, by rw [run, stripped]; rfl⟩

/-- A character of the class is taken. -/
theorem char {accepts : Char → Bool} {c : Char} (accepted : accepts c = true)
    (rest : List Char) :
    g.Yields size isAtomic (.char accepts) (c :: rest) (some ([], rest)) :=
  ⟨1, by rw [run, if_pos accepted]⟩

/-- A character outside the class fails, and so does the end. -/
theorem char_none {accepts : Char → Bool}
    (refused : ∀ c ∈ rest.head?, accepts c = false) :
    g.Yields size isAtomic (.char accepts) rest none := by
  cases rest with
  | nil => exact ⟨1, rfl⟩
  | cons c rest =>
      exact ⟨1, by rw [run, if_neg (by rw [refused c rfl]; exact Bool.false_ne_true)]⟩

/-- The whole input is at its start. -/
theorem startOfInput :
    g.Yields rest.length isAtomic .startOfInput rest (some ([], rest)) :=
  ⟨1, by rw [run, if_pos rfl]⟩

/-- Nothing is left at the end. -/
theorem endOfInput : g.Yields size isAtomic .endOfInput [] (some ([], [])) := ⟨1, rfl⟩

/-! ### Operators -/

section Operators

variable {rest' rest'' : List Char} {pairs pairs' : List (Pair ρ)}

/-- A sequence takes what its parts take in turn. -/
theorem seq (first : g.Yields size isAtomic e rest (some (pairs, rest')))
    (second : g.Yields size isAtomic e' rest' (some (pairs', rest''))) :
    g.Yields size isAtomic (.seq e e') rest (some (pairs ++ pairs', rest'')) := by
  obtain ⟨fuel, ran, ran'⟩ := first.both second
  exact ⟨fuel + 1, by simp only [run, ran, ran', Option.bind_some, Option.map_some]⟩

/-- A sequence fails with its first part. -/
theorem seq_none (first : g.Yields size isAtomic e rest none) :
    g.Yields size isAtomic (.seq e e') rest none := by
  obtain ⟨fuel, ran⟩ := first
  exact ⟨fuel + 1, by simp only [run, ran, Option.bind_some]⟩

/-- A sequence fails with its second part. -/
theorem seq_none_later (first : g.Yields size isAtomic e rest (some (pairs, rest')))
    (second : g.Yields size isAtomic e' rest' none) :
    g.Yields size isAtomic (.seq e e') rest none := by
  obtain ⟨fuel, ran, ran'⟩ := first.both second
  exact ⟨fuel + 1, by
    simp only [run, ran, ran', Option.bind_some, Option.map_some, Option.map_none]⟩

/-- A choice takes what its first alternative takes. -/
theorem choice_first (first : g.Yields size isAtomic e rest (some (pairs, rest'))) :
    g.Yields size isAtomic (.choice e e') rest (some (pairs, rest')) := by
  obtain ⟨fuel, ran⟩ := first
  exact ⟨fuel + 1, by simp only [run, ran, Option.bind_some]⟩

/-- A choice does what its second alternative does where the first fails. -/
theorem choice_second {outcome : Outcome ρ}
    (first : g.Yields size isAtomic e rest none)
    (second : g.Yields size isAtomic e' rest outcome) :
    g.Yields size isAtomic (.choice e e') rest outcome := by
  obtain ⟨fuel, ran, ran'⟩ := first.both second
  exact ⟨fuel + 1, by simp only [run, ran, ran', Option.bind_some]⟩

/-- An option takes what its body takes. -/
theorem optional (present : g.Yields size isAtomic e rest (some (pairs, rest'))) :
    g.Yields size isAtomic (.optional e) rest (some (pairs, rest')) := by
  obtain ⟨fuel, ran⟩ := present
  exact ⟨fuel + 1, by simp only [run, ran, Option.map_some, Option.getD_some]⟩

/-- An option takes nothing where its body fails. -/
theorem optional_absent (absent : g.Yields size isAtomic e rest none) :
    g.Yields size isAtomic (.optional e) rest (some ([], rest)) := by
  obtain ⟨fuel, ran⟩ := absent
  exact ⟨fuel + 1, by simp only [run, ran, Option.map_some, Option.getD_none]⟩

/-- A repetition ends where its body fails. -/
theorem many_done (absent : g.Yields size isAtomic e rest none) :
    g.Yields size isAtomic (.many e) rest (some ([], rest)) := by
  obtain ⟨fuel, ran⟩ := absent
  exact ⟨fuel + 1, by simp only [run, ran, Option.bind_some]⟩

/-- A repetition takes one more round. -/
theorem many_more (first : g.Yields size isAtomic e rest (some (pairs, rest')))
    (later : g.Yields size isAtomic (.many e) rest' (some (pairs', rest''))) :
    g.Yields size isAtomic (.many e) rest (some (pairs ++ pairs', rest'')) := by
  obtain ⟨fuel, ran, ran'⟩ := first.both later
  exact ⟨fuel + 1, by simp only [run, ran, ran', Option.bind_some, Option.map_some]⟩

/-- A lookahead holds where its body fails. -/
theorem notAhead (absent : g.Yields size isAtomic e rest none) :
    g.Yields size isAtomic (.notAhead e) rest (some ([], rest)) := by
  obtain ⟨fuel, ran⟩ := absent
  exact ⟨fuel + 1, by simp only [run, ran, Option.map_some]; rfl⟩

/-- A lookahead fails where its body takes something. -/
theorem notAhead_none (present : g.Yields size isAtomic e rest (some (pairs, rest'))) :
    g.Yields size isAtomic (.notAhead e) rest none := by
  obtain ⟨fuel, ran⟩ := present
  exact ⟨fuel + 1, by simp only [run, ran, Option.map_some]; rfl⟩

/-- A rule that leaves no pair of its own. -/
theorem rule_silent {name : ρ} (silent : (isAtomic || g.silent name) = true)
    (body : g.Yields size (isAtomic || g.atomic name) (g.body name) rest
      (some (pairs, rest'))) :
    g.Yields size isAtomic (.rule name) rest (some (pairs, rest')) := by
  obtain ⟨fuel, ran⟩ := body
  exact ⟨fuel + 1, by simp only [run, ran, Option.map_some, silent, if_true]⟩

/-- A rule that leaves a pair with the text that it took. -/
theorem rule {name : ρ} {text : List Char} (visible : g.silent name = false)
    (body : g.Yields size (g.atomic name) (g.body name) (text ++ rest')
      (some (pairs, rest'))) :
    g.Yields size false (.rule name) (text ++ rest')
      (some ([.node name text pairs], rest')) := by
  obtain ⟨fuel, ran⟩ := body
  have covered :
      (text ++ rest').take ((text ++ rest').length - rest'.length) = text := by
    simp
  refine ⟨fuel + 1, ?_⟩
  simp only [run, Bool.false_or, ran, Option.map_some, visible, Bool.false_eq_true,
    if_false, covered]

/-- A visible rule makes one pair of what its body takes. -/
theorem exists_rule {name : ρ} (visible : g.silent name = false)
    (body : g.Yields size (g.atomic name) (g.body name) rest (some (pairs, rest'))) :
    ∃ text, g.Yields size false (.rule name) rest
      (some ([.node name text pairs], rest')) := by
  obtain ⟨taken, covers, -⟩ := matches_of_run body.choose_spec
  subst covers
  exact ⟨taken, rule visible body⟩

/-- A rule fails with its body. -/
theorem rule_none {name : ρ}
    (body : g.Yields size (isAtomic || g.atomic name) (g.body name) rest none) :
    g.Yields size isAtomic (.rule name) rest none := by
  obtain ⟨fuel, ran⟩ := body
  exact ⟨fuel + 1, by simp only [run, ran, Option.map_some, Option.map_none]⟩

/-- Trivia are skipped as the grammar's rule for them says, and without pairs. -/
theorem trivia {outcome : Outcome ρ}
    (skipped : g.Yields size true (.rule g.trivia) rest outcome) :
    g.Yields size false .trivia rest outcome := by
  obtain ⟨fuel, ran⟩ := skipped
  exact ⟨fuel + 1, by rw [run, if_neg Bool.false_ne_true]; exact ran⟩

end Operators

/-! ### Runs of characters -/

/-- Repeating a class of characters takes all that belong to it. -/
theorem many_char {accepts : Char → Bool} {text : List Char}
    (accepted : ∀ c ∈ text, accepts c = true)
    (ends : ∀ c ∈ rest.head?, accepts c = false) :
    g.Yields size isAtomic (.many (.char accepts)) (text ++ rest) (some ([], rest)) := by
  induction text with
  | nil => exact many_done (char_none ends)
  | cons c text ih =>
      have first : g.Yields size isAtomic (.char accepts) (c :: (text ++ rest))
          (some ([], text ++ rest)) :=
        char (accepted c List.mem_cons_self) _
      exact many_more first
        (ih fun d member => accepted d (List.mem_cons_of_mem c member))

/-- A word is taken to its end. -/
theorem atLeastOnce_char {accepts : Char → Bool} {text : List Char}
    (accepted : ∀ c ∈ text, accepts c = true) (nonempty : text ≠ [])
    (ends : ∀ c ∈ rest.head?, accepts c = false) :
    g.Yields size isAtomic (.atLeastOnce (.char accepts)) (text ++ rest)
      (some ([], rest)) := by
  cases text with
  | nil => exact absurd rfl nonempty
  | cons c text =>
      have first : g.Yields size isAtomic (.char accepts) (c :: (text ++ rest))
          (some ([], text ++ rest)) :=
        char (accepted c List.mem_cons_self) _
      exact seq first
        (many_char (fun d member => accepted d (List.mem_cons_of_mem c member)) ends)

/-- Repeating any character but one takes all up to that one. -/
theorem many_until {stop : Char} {text : List Char} (others : stop ∉ text)
    (ends : rest.head? = some stop) :
    g.Yields size isAtomic (.many
      (.seq (.notAhead (.literal [stop])) (.char fun _ => true))) (text ++ rest)
      (some ([], rest)) := by
  induction text with
  | nil =>
      obtain ⟨after, rfl⟩ := List.head?_eq_some_iff.mp ends
      have ahead : g.Yields size isAtomic (.literal [stop]) ([stop] ++ after)
          (some ([], after)) :=
        literal _ _
      exact many_done (seq_none (notAhead_none ahead))
  | cons c text ih =>
      rw [List.mem_cons, not_or] at others
      have other : ¬ [stop] <+: c :: (text ++ rest) :=
        fun same => others.1 (List.cons_prefix_cons.mp same).1
      have first : g.Yields size isAtomic (.char fun _ => true) (c :: (text ++ rest))
          (some ([], text ++ rest)) :=
        char rfl _
      exact many_more (seq (notAhead (literal_none other)) first) (ih others.2)

end Yields

end Grammar

end GraphEngine
