/-
Module: GraphEngine.Lib.PegReads
Layer: Lib
Purpose: What a successful parse has read.  Every pair it leaves comes from a
  run of its rule's body over the pair's own text, so that what the body looked
  ahead for is known of the text as well.
Trusted boundary: none
Main exports: Pair.Read, Grammar.read_of_yields, Pair.Read.derived,
  Pair.Read.inner, Grammar.Yields.until_inv
-/
import GraphEngine.Lib.PegRuns
import GraphEngine.Lib.PegTrees

namespace GraphEngine

variable {ρ : Type} {g : Grammar ρ} {size : Nat}

/-- The pair's rule was run over the pair's text, in front of some rest. -/
def Pair.Read (g : Grammar ρ) (size : Nat) : Pair ρ → Prop
  | .node rule text children =>
      ∃ rest, g.Yields size (g.atomic rule) (g.body rule) (text ++ rest)
        (some (children, rest))

namespace Grammar

namespace Yields

variable {isAtomic : Bool} {e e' : Peg ρ} {rest rest' : List Char} {pairs : List (Pair ρ)}

/-! ### Inversion -/

/-- A match takes a front part of the input. -/
theorem taken (yields : g.Yields size isAtomic e rest (some (pairs, rest'))) :
    ∃ text, rest = text ++ rest' ∧ g.Matches isAtomic e text pairs :=
  let ⟨_, ran⟩ := yields
  matches_of_run ran

/-- A literal read is in front of the rest. -/
theorem literal_inv {text : List Char}
    (yields : g.Yields size isAtomic (.literal text) rest (some (pairs, rest'))) :
    rest = text ++ rest' := by
  obtain ⟨taken, split, matched⟩ := yields.taken
  rw [split, text_of_literal matched]

/-- A sequence read is two readings, one behind the other. -/
theorem seq_inv
    (yields : g.Yields size isAtomic (.seq e e') rest (some (pairs, rest'))) :
    ∃ between front back, pairs = front ++ back ∧
      g.Yields size isAtomic e rest (some (front, between)) ∧
      g.Yields size isAtomic e' between (some (back, rest')) := by
  obtain ⟨fuel, ran⟩ := yields
  cases fuel with
  | zero => simp [run] at ran
  | succ fuel =>
      obtain ⟨between, front, back, head, tail, joined⟩ := run_seq_iff.mp ran
      exact ⟨between, front, back, joined.symm, ⟨fuel, head⟩, ⟨fuel, tail⟩⟩

/-- A lookahead that holds takes nothing. -/
theorem notAhead_inv
    (yields : g.Yields size isAtomic (.notAhead e) rest (some (pairs, rest'))) :
    g.Yields size isAtomic e rest none ∧ rest' = rest := by
  obtain ⟨fuel, ran⟩ := yields
  cases fuel with
  | zero => simp [run] at ran
  | succ fuel =>
      simp only [run, Option.map_eq_some_iff] at ran
      obtain ⟨outcome, head, found⟩ := ran
      split at found
      case isTrue failed =>
          cases found
          rw [Option.isNone_iff_eq_none] at failed
          exact ⟨⟨fuel, failed ▸ head⟩, rfl⟩
      case isFalse => cases found

/-- A repetition read is at its end or is one more round. -/
theorem many_inv
    (yields : g.Yields size isAtomic (.many e) rest (some (pairs, rest'))) :
    rest' = rest ∨ ∃ between front back,
      g.Yields size isAtomic e rest (some (front, between)) ∧
      g.Yields size isAtomic (.many e) between (some (back, rest')) := by
  obtain ⟨fuel, ran⟩ := yields
  cases fuel with
  | zero => simp [run] at ran
  | succ fuel =>
      rcases run_many_iff.mp ran with ⟨-, -, same⟩ | ⟨between, front, back, head, tail, -⟩
      · exact .inl same
      · exact .inr ⟨between, front, back, ⟨fuel, head⟩, ⟨fuel, tail⟩⟩

/-- A repetition of characters, none of which is the one looked ahead for, does
not take that one. -/
theorem until_inv {stop : Char}
    (yields : g.Yields size isAtomic (.many (.seq (.notAhead (.literal [stop]))
          (.char fun _ => true))) rest (some (pairs, rest'))) :
    ∃ content, rest = content ++ rest' ∧ stop ∉ content := by
  induction rest generalizing pairs with
  | nil =>
      obtain ⟨content, split, -⟩ := yields.taken
      rw [List.nil_eq_append_iff] at split
      exact ⟨[], by rw [split.2, List.nil_append], List.not_mem_nil⟩
  | cons c rest inductionHypothesis =>
      rcases yields.many_inv with rfl | ⟨between, front, back, once, again⟩
      · exact ⟨[], rfl, List.not_mem_nil⟩
      · obtain ⟨_, _, _, -, ahead, char⟩ := once.seq_inv
        obtain ⟨failed, rfl⟩ := ahead.notAhead_inv
        obtain ⟨_, split, matched⟩ := char.taken
        obtain ⟨c', -, rfl⟩ := text_of_char matched
        cases split
        obtain ⟨content, rfl, absent⟩ := inductionHypothesis again
        refine ⟨c :: content, rfl, fun member => ?_⟩
        rcases List.mem_cons.mp member with rfl | later
        · -- the lookahead would have found it
          have found : g.Yields size isAtomic (.literal [stop])
              ([stop] ++ (content ++ rest')) _ :=
            Yields.literal [stop] (content ++ rest')
          cases failed.unique found
        · exact absent later

end Yields

/-! ### Pairs -/

/-- Every pair left outside atomic rules was read. -/
theorem read_of_yields {e : Peg ρ} {rest rest' : List Char} {pairs : List (Pair ρ)}
    (yields : g.Yields size false e rest (some (pairs, rest'))) :
    ∀ pair ∈ pairs, pair.Read g size := by
  obtain ⟨fuel, ran⟩ := yields
  induction fuel generalizing e rest rest' pairs with
  | zero => simp [run] at ran
  | succ fuel inductionHypothesis =>
      cases e with
      | literal | char | startOfInput | endOfInput | trivia | notAhead =>
          obtain ⟨_, -, matched⟩ := matches_of_run ran
          cases matched
          simp
      | rule name =>
          obtain ⟨inner, entered, rfl⟩ := run_rule_iff.mp ran
          obtain ⟨text, rfl, taken⟩ := matches_of_run entered
          rw [Bool.false_or] at entered taken
          rw [Bool.false_or, take_front]
          split
          case isTrue silent =>
              -- the pairs of a silent rule are those of its body, none if it is atomic
              cases kind : g.atomic name with
              | true =>
                  rw [kind] at taken
                  rw [taken.pairs_eq_nil]
                  simp
              | false =>
                  rw [kind] at entered
                  exact inductionHypothesis entered
          case isFalse =>
              intro pair member
              rw [List.mem_singleton.mp member]
              exact ⟨rest', fuel, entered⟩
      | seq first second =>
          obtain ⟨between, front, back, head, tail, rfl⟩ := run_seq_iff.mp ran
          exact List.forall_mem_append.mpr
            ⟨inductionHypothesis head, inductionHypothesis tail⟩
      | choice first second =>
          rcases run_choice_iff.mp ran with head | ⟨-, other⟩
          · exact inductionHypothesis head
          · exact inductionHypothesis other
      | optional body =>
          rcases run_optional_iff.mp ran with inner | ⟨-, rfl, rfl⟩
          · exact inductionHypothesis inner
          · simp
      | many body =>
          rcases run_many_iff.mp ran with
            ⟨-, rfl, rfl⟩ | ⟨between, front, back, head, tail, rfl⟩
          · simp
          · exact List.forall_mem_append.mpr
              ⟨inductionHypothesis head, inductionHypothesis tail⟩

end Grammar

namespace Pair.Read

variable {rule : ρ} {text : List Char} {children : List (Pair ρ)}

/-- A pair that is read is derived by the grammar. -/
theorem derived {pair : Pair ρ} (read : pair.Read g size) : pair.Derived g := by
  cases pair with
  | node rule text children =>
      obtain ⟨rest, yields⟩ := read
      obtain ⟨taken, split, matched⟩ := yields.taken
      rw [List.append_cancel_right split]
      exact matched

/-- The pairs inside a pair that was read were read. -/
theorem inner (read : (Pair.node rule text children).Read g size)
    (plain : g.atomic rule = false) : ∀ child ∈ children, child.Read g size := by
  obtain ⟨rest, yields⟩ := read
  rw [plain] at yields
  exact Grammar.read_of_yields yields

end Pair.Read

namespace Grammar

/-- A successful parse from a rule with a token yields one pair of that rule,
which was read. -/
theorem read_of_parse {solid : ρ → Bool} {rank : ρ → Nat} {top maxDepth : Nat}
    (ranked : g.Ranked solid rank top maxDepth) {start : ρ}
    {source rest : List Char} {pairs : List (Pair ρ)}
    (visible : g.silent start = false)
    (parsed : parse g top maxDepth start source = some (pairs, rest)) :
    ∃ pair, pairs = [pair] ∧ pair.asRule = start ∧ pair.Read g source.length := by
  obtain ⟨pair, rfl, rule, -⟩ := derived_of_parse visible parsed
  have ran := parse_run ranked start source
  rw [parsed] at ran
  exact ⟨pair, rfl, rule, read_of_yields ⟨_, ran⟩ pair List.mem_cons_self⟩

end Grammar

end GraphEngine
