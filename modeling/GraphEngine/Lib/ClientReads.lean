/-
Module: GraphEngine.Lib.ClientReads
Layer: Lib
Purpose: How often a client program reads, which cells, and what of their
  contents matters to it.  `ReadsWithin C E prog n` says that on no path `prog`
  reads more than `n` times, that it reads cells of `C` alone, and that two
  contents related by `E` make no difference to what it does next.  A program so
  disciplined ends alike under two histories of the cells that `E` relates.
Trusted boundary: none
Main exports: Client.ReadsWithin, Client.ReadsWithin.bind,
  Client.ReadsWithin.collect, Client.ReadsWithin.foldlM, Client.readCount,
  Client.ReadsWithin.run_eq, Client.ReadsWithin.readCount_le
-/
import GraphEngine.Lib.ClientRules
import Mathlib.Algebra.BigOperators.Group.List.Basic
import Mathlib.Data.ENat.Basic

namespace GraphEngine

namespace Client

variable {Cell State Err α β : Type}

/-- On every path at most `n` reads, each of a cell of `C` and blind to the
difference between contents that `E` relates. -/
def ReadsWithin (C : Cell → Prop) (E : State → State → Prop) :
    Client Cell State Err α → ℕ∞ → Prop
  | .done _, _ => True
  | .choose _ next, n => ∀ order, ReadsWithin C E (next order) n
  | .read cell next, n =>
      ∃ m, m + 1 ≤ n ∧ C cell ∧
        (∀ state state', E state state' → next state = next state') ∧
      ∀ state, ReadsWithin C E (next state) m

/-- How often a run reads. -/
def readCount (serve : Nat → Cell → State)
    (order : Nat → (size : Nat) → Equiv.Perm (Fin size)) :
    Nat → Client Cell State Err α → Nat
  | _, .done _ => 0
  | time, .choose size next => readCount serve order (time + 1) (next (order time size))
  | time, .read cell next => readCount serve order (time + 1) (next (serve time cell)) + 1

/-- Enumerating a list and then mapping what is met is enumerating the mapped
list. -/
theorem unordered_map_bind {γ : Type} (f : α → γ) (l : List α)
    (body : List γ → Client Cell State Err β) :
    (unordered l >>= fun met => body (met.map f)) = unordered (l.map f) >>= body := by
  have sized {m : List γ} {n : Nat} (size : m.length = n) :
      (unordered m : Client Cell State Err (List γ)) =
      .choose n fun order =>
        Pure.pure (List.ofFn fun i => m.get (Fin.cast size.symm (order i))) := by
    subst size
    rfl
  rw [sized (List.length_map f), unordered, bind_def, bind_def, Client.bind, Client.bind]
  congr 1
  funext order
  change body ((permuted l order).map f) = body _
  congr 1
  rw [permuted, List.map_ofFn]
  congr 1
  funext i
  simp

namespace ReadsWithin

variable {C : Cell → Prop} {E : State → State → Prop}

/-! ### Structural rules -/

/-- Returning reads nothing. -/
theorem pure (a : α) (n : ℕ∞) :
    ReadsWithin C E (pure a : Client Cell State Err α) n := trivial

/-- Failing reads nothing. -/
theorem fail (e : Err) (n : ℕ∞) :
    ReadsWithin C E (fail e : Client Cell State Err α) n := trivial

/-- Enumerating reads nothing. -/
theorem unordered (l : List α) (n : ℕ∞) :
    ReadsWithin C E (unordered l : Client Cell State Err (List α)) n :=
  fun _ => trivial

/-- A bound may be raised. -/
theorem mono {prog : Client Cell State Err α} {n m : ℕ∞}
    (within : ReadsWithin C E prog n) (more : n ≤ m) : ReadsWithin C E prog m := by
  induction prog generalizing n m with
  | done outcome => trivial
  | choose size next inductionHypothesis =>
      exact fun order => inductionHypothesis order (within order) more
  | read cell next inductionHypothesis =>
      obtain ⟨rest, fits, allowed, blind, later⟩ := within
      exact ⟨rest, fits.trans more, allowed, blind, later⟩

/-- A program blind to some difference is blind to every smaller one. -/
theorem weaken {E' : State → State → Prop} {prog : Client Cell State Err α} {n : ℕ∞}
    (within : ReadsWithin C E prog n)
    (smaller : ∀ state state', E' state state' → E state state') :
    ReadsWithin C E' prog n := by
  induction prog generalizing n with
  | done outcome => trivial
  | choose size next inductionHypothesis =>
      exact fun order => inductionHypothesis order (within order)
  | read cell next inductionHypothesis =>
      obtain ⟨rest, fits, allowed, blind, later⟩ := within
      refine ⟨rest, fits, allowed, ?_, fun state =>
        inductionHypothesis state (later state)⟩
      exact fun state state' related => blind state state' (smaller state state' related)

/-- One program after another costs what both cost. -/
theorem bind {M : α → Prop} {prog : Client Cell State Err α}
    {body : α → Client Cell State Err β} {n m : ℕ∞} (first : ReadsWithin C E prog n)
    (always : prog.Always M) (rest : ∀ a, M a → ReadsWithin C E (body a) m) :
    ReadsWithin C E (prog >>= body) (n + m) := by
  rw [bind_def]
  induction prog generalizing n with
  | done outcome =>
      cases outcome with
      | ok a => exact (rest a always).mono le_add_self
      | error e => trivial
  | choose size next inductionHypothesis =>
      exact fun order => inductionHypothesis order (first order) (always order)
  | read cell next inductionHypothesis =>
      obtain ⟨left, fits, allowed, blind, later⟩ := first
      refine ⟨left + m, ?_, allowed, ?_, fun state =>
        inductionHypothesis state (later state) (always state)⟩
      · rw [add_right_comm]
        exact add_le_add_left fits m
      · intro state state' related
        exact congrArg (Client.bind · body) (blind state state' related)

/-- Sequencing whatever the first result is. -/
theorem andThen {prog : Client Cell State Err α}
    {body : α → Client Cell State Err β} {n m : ℕ∞} (first : ReadsWithin C E prog n)
    (rest : ∀ a, ReadsWithin C E (body a) m) :
    ReadsWithin C E (prog >>= body) (n + m) :=
  first.bind (.trivial prog) fun a _ => rest a

/-- A pure computation before the rest. -/
theorem afterPure {x : Except Err α} {body : α → Client Cell State Err β} {n : ℕ∞}
    (rest : ∀ a, x = .ok a → ReadsWithin C E (body a) n) :
    ReadsWithin C E (Client.ofExcept x >>= body) n := by
  cases x with
  | ok a => exact rest a rfl
  | error e => trivial

/-- An enumeration before the rest. -/
theorem afterUnordered {l : List α} {body : List α → Client Cell State Err β}
    {n : ℕ∞} (rest : ∀ out, out.Perm l → ReadsWithin C E (body out) n) :
    ReadsWithin C E (Client.unordered l >>= body) n :=
  fun order => rest _ (permuted_perm l order)

/-- A single read, to whose content the rest is blind. -/
theorem acquireThen {cell : Cell} {body : State → Client Cell State Err β}
    (allowed : C cell)
    (blind : ∀ state state', E state state' → body state = body state')
    (rest : ∀ state, ReadsWithin C E (body state) 0) :
    ReadsWithin C E (Client.acquire cell >>= body) 1 :=
  ⟨0, by rw [zero_add], allowed, blind, rest⟩

/-- Reporting errors otherwise reads nothing. -/
theorem mapError {Err' : Type} {prog : Client Cell State Err α} {n : ℕ∞}
    (within : ReadsWithin C E prog n) (f : Err → Err') :
    ReadsWithin C E (prog.mapError f) n := by
  induction prog generalizing n with
  | done outcome => cases outcome <;> trivial
  | choose size next inductionHypothesis =>
      exact fun order => inductionHypothesis order (within order)
  | read cell next inductionHypothesis =>
      obtain ⟨rest, fits, allowed, blind, later⟩ := within
      refine ⟨rest, fits, allowed, ?_, fun state =>
        inductionHypothesis state (later state)⟩
      intro state state' related
      exact congrArg (Client.mapError f) (blind state state' related)

/-! ### Loop rules -/

/-- A loop reads at most as often as all its rounds together. -/
theorem foldlM {body : β → α → Client Cell State Err β} {cost : α → ℕ∞} (l : List α)
    (start : β) (each : ∀ acc, ∀ a ∈ l, ReadsWithin C E (body acc a) (cost a)) :
    ReadsWithin C E (l.foldlM body start) (l.map cost).sum := by
  induction l generalizing start with
  | nil => exact pure start _
  | cons a rest inductionHypothesis =>
      rw [List.foldlM_cons, List.map_cons, List.sum_cons]
      apply (each start a List.mem_cons_self).andThen
      intro next
      exact inductionHypothesis next fun acc b member =>
        each acc b (List.mem_cons_of_mem a member)

/-- A loop costs the sum of its bodies. -/
theorem collect {body : α → Client Cell State Err (List β)} {cost : α → ℕ∞} (l : List α)
    (each : ∀ a ∈ l, ReadsWithin C E (body a) (cost a)) :
    ReadsWithin C E (Client.collect body l) (l.map cost).sum := by
  induction l with
  | nil => exact pure [] _
  | cons a rest inductionHypothesis =>
      rw [Client.collect, List.map_cons, List.sum_cons]
      apply (each a List.mem_cons_self).andThen
      intro found
      rw [← add_zero (rest.map cost).sum]
      apply (inductionHypothesis fun b member =>
        each b (List.mem_cons_of_mem a member)).andThen
      intro more
      exact pure _ _

/-- Rounds that read nothing. -/
theorem foldlM_silent {body : β → α → Client Cell State Err β} {l : List α}
    (start : β) (each : ∀ acc a, ReadsWithin C E (body acc a) 0) :
    ReadsWithin C E (l.foldlM body start) 0 := by
  have whole : ReadsWithin C E (l.foldlM body start) (l.map fun _ => 0).sum :=
    foldlM l start fun acc a _ => each acc a
  rwa [List.map_const', List.sum_replicate, nsmul_zero] at whole

/-- A loop whose bodies read nothing reads nothing. -/
theorem collect_silent {body : α → Client Cell State Err (List β)} {l : List α}
    (each : ∀ a, ReadsWithin C E (body a) 0) :
    ReadsWithin C E (Client.collect body l) 0 := by
  have whole : ReadsWithin C E (Client.collect body l) (l.map fun _ => 0).sum :=
    collect l fun a _ => each a
  rwa [List.map_const', List.sum_replicate, nsmul_zero] at whole

/-- Rounds that read once at most. -/
theorem foldlM_once {body : β → α → Client Cell State Err β} {l : List α} {n : Nat}
    (size : l.length ≤ n) (start : β)
    (each : ∀ acc, ∀ a ∈ l, ReadsWithin C E (body acc a) 1) :
    ReadsWithin C E (l.foldlM body start) n := by
  have whole : ReadsWithin C E (l.foldlM body start) (l.map fun _ => 1).sum :=
    foldlM l start each
  apply whole.mono
  rw [List.map_const', List.sum_replicate, nsmul_one, Nat.cast_le]
  exact size

/-- A loop of at most `n` bodies that read once costs `n`. -/
theorem collect_once {body : α → Client Cell State Err (List β)} {l : List α}
    {n : Nat} (size : l.length ≤ n) (each : ∀ a ∈ l, ReadsWithin C E (body a) 1) :
    ReadsWithin C E (Client.collect body l) n := by
  have whole : ReadsWithin C E (Client.collect body l) (l.map fun _ => 1).sum :=
    collect l each
  apply whole.mono
  rw [List.map_const', List.sum_replicate, nsmul_one, Nat.cast_le]
  exact size

/-! ### Runs -/

/-- Two histories that `E` relates on the cells of `C` make no difference. -/
theorem run_eq {prog : Client Cell State Err α} {n : ℕ∞}
    (within : ReadsWithin C E prog n) {serve serve' : Nat → Cell → State}
    (related : ∀ time cell, C cell → E (serve time cell) (serve' time cell))
    (order : Nat → (size : Nat) → Equiv.Perm (Fin size)) (time : Nat) :
    prog.run serve order time = prog.run serve' order time := by
  induction prog generalizing n time with
  | done outcome => rfl
  | choose size next inductionHypothesis => exact inductionHypothesis _ (within _) _
  | read cell next inductionHypothesis =>
      obtain ⟨rest, -, allowed, blind, later⟩ := within
      rw [Client.run, Client.run, ← blind _ _ (related time cell allowed)]
      exact inductionHypothesis _ (later _) _

/-- No run reads more often than the bound says. -/
theorem readCount_le {prog : Client Cell State Err α} {n : ℕ∞}
    (within : ReadsWithin C E prog n) (serve : Nat → Cell → State)
    (order : Nat → (size : Nat) → Equiv.Perm (Fin size)) (time : Nat) :
    (prog.readCount serve order time : ℕ∞) ≤ n := by
  induction prog generalizing n time with
  | done outcome => exact zero_le
  | choose size next inductionHypothesis => exact inductionHypothesis _ (within _) _
  | read cell next inductionHypothesis =>
      obtain ⟨rest, fits, -, -, later⟩ := within
      rw [readCount, Nat.cast_add, Nat.cast_one]
      exact (add_le_add_left (inductionHypothesis _ (later _) _) 1).trans fits

end ReadsWithin

end Client

end GraphEngine
