/-
Module: GraphEngine.Lib.Client
Layer: Lib
Purpose: Programs of one client that reads shared cells owned by other
  processes.  A program is a tree: at every node it either ends, reads the
  current content of a cell, or fixes the order in which an unordered collection
  is enumerated.  The tree fixes what the client does; what a cell holds when it
  is read and which enumeration order is met are left to the environment.
Trusted boundary: none
Main exports: Client, Client.mapError, Client.unordered, Client.collect,
  Client.run, Client.Returns, Client.returns_bind_iff,
  Client.returns_foldlM_error_iff
-/
import Mathlib.Data.List.FinRange
import Mathlib.Data.List.Perm.Basic
import Mathlib.Logic.Equiv.Defs

namespace GraphEngine

/-- A client program that ends with an `α` or an error `Err`.  Two things are
outside its control: the order in which a collection of some size is enumerated,
and what a shared cell holds when it is read.  A program is a tree that branches
on both. -/
inductive Client (Cell State Err α : Type) where
  | done (outcome : Except Err α)
  | choose (size : Nat) (next : Equiv.Perm (Fin size) → Client Cell State Err α)
  | read (cell : Cell) (next : State → Client Cell State Err α)

namespace Client

variable {Cell State Err α β γ : Type}

/-! ### The monad of client programs -/

/-- Sequencing: an error ends the whole program. -/
def bind :
    Client Cell State Err α → (α → Client Cell State Err β) → Client Cell State Err β
  | .done (.ok a), f => f a
  | .done (.error e), _ => .done (.error e)
  | .choose size next, f => .choose size fun order => (next order).bind f
  | .read cell next, f => .read cell fun state => (next state).bind f

instance : Monad (Client Cell State Err) where
  pure a := .done (.ok a)
  bind := Client.bind

/-- Returning is being done. -/
theorem pure_def (a : α) : (pure a : Client Cell State Err α) = .done (.ok a) := rfl

/-- Sequencing is `bind`. -/
theorem bind_def (x : Client Cell State Err α) (f : α → Client Cell State Err β) :
    x >>= f = x.bind f := rfl

@[simp] theorem pure_bind (a : α) (f : α → Client Cell State Err β) :
    ((pure a : Client Cell State Err α) >>= f) = f a := rfl

/-- Returning what came changes nothing. -/
theorem bind_pure_self (x : Client Cell State Err α) : x.bind pure = x := by
  induction x with
  | done outcome => cases outcome <;> rfl
  | choose size next ih => simp only [Client.bind, ih]
  | read cell next ih => simp only [Client.bind, ih]

/-- Sequencing is associative. -/
theorem bind_assoc (x : Client Cell State Err α) (f : α → Client Cell State Err β)
    (g : β → Client Cell State Err γ) :
    (x.bind f).bind g = x.bind fun a => (f a).bind g := by
  induction x with
  | done outcome => cases outcome <;> rfl
  | choose size next ih => simp only [Client.bind, ih]
  | read cell next ih => simp only [Client.bind, ih]

instance : LawfulMonad (Client Cell State Err) :=
  LawfulMonad.mk' _
    (fun x => bind_pure_self x)
    (fun _ _ => rfl)
    (fun x f g => bind_assoc x f g)

/-- End with an error. -/
def fail (e : Err) : Client Cell State Err α := .done (.error e)

/-- Recover from an error. -/
def tryCatch :
    Client Cell State Err α → (Err → Client Cell State Err α) →
      Client Cell State Err α
  | .done (.ok a), _ => .done (.ok a)
  | .done (.error e), handler => handler e
  | .choose size next, handler => .choose size fun order => (next order).tryCatch handler
  | .read cell next, handler => .read cell fun state => (next state).tryCatch handler

instance : MonadExcept Err (Client Cell State Err) where
  throw := fail
  tryCatch := Client.tryCatch

/-- Report an error of the program as an error of the caller. -/
def mapError {Err' : Type} (f : Err → Err') :
    Client Cell State Err α → Client Cell State Err' α
  | .done (.ok a) => .done (.ok a)
  | .done (.error e) => .done (.error (f e))
  | .choose size next => .choose size fun order => (next order).mapError f
  | .read cell next => .read cell fun state => (next state).mapError f

/-- Errors may be renamed before or after a program is taken apart. -/
theorem mapError_bind {Err' : Type} (f : Err → Err') (prog : Client Cell State Err α)
    (body : α → Client Cell State Err β) :
    (prog >>= body).mapError f = prog.mapError f >>= fun a => (body a).mapError f := by
  rw [bind_def, bind_def]
  induction prog with
  | done outcome => cases outcome <;> rfl
  | choose size next ih => simp only [Client.bind, mapError, ih]
  | read cell next ih => simp only [Client.bind, mapError, ih]

/-- Renaming errors twice is renaming them once. -/
theorem mapError_mapError {Err' Err'' : Type} (f : Err → Err') (g : Err' → Err'')
    (prog : Client Cell State Err α) :
    (prog.mapError f).mapError g = prog.mapError fun e => g (f e) := by
  induction prog with
  | done outcome => cases outcome <;> rfl
  | choose size next ih => simp only [mapError, ih]
  | read cell next ih => simp only [mapError, ih]

/-- Run a pure fallible computation. -/
def ofExcept (x : Except Err α) : Client Cell State Err α := .done x

/-- Read what `cell` holds now. -/
def acquire (cell : Cell) : Client Cell State Err State := .read cell pure

/-- The list enumerated in the order that `order` prescribes. -/
def permuted (l : List α) (order : Equiv.Perm (Fin l.length)) : List α :=
  List.ofFn fun i => l.get (order i)

/-- An enumeration of a list has the elements of the list. -/
theorem permuted_perm (l : List α) (order : Equiv.Perm (Fin l.length)) :
    (permuted l order).Perm l := by
  have shuffled := Equiv.Perm.ofFn_comp_perm order l.get
  rw [List.ofFn_get] at shuffled
  exact shuffled

/-- Every permutation of a list is one of its enumerations. -/
theorem exists_permuted {l l' : List α} (perm : l'.Perm l) :
    ∃ order, permuted l order = l' := by
  classical
  have size := perm.length_eq
  let order : Equiv.Perm (Fin l.length) :=
    { toFun := fun i => perm.idxBij (i.cast size.symm)
      invFun := fun i => (perm.symm.idxBij i).cast size
      left_inv := fun i => by simp only [perm.idxBij_symm_idxBij, Fin.cast_cast,
        Fin.cast_eq_self]
      right_inv := fun i => by simp only [perm.idxBij_idxBij_symm, Fin.cast_cast,
        Fin.cast_eq_self] }
  refine ⟨order, List.ext_getElem ?_ fun n _ bound => ?_⟩
  · exact (permuted_perm l order).length_eq.trans size.symm
  · simp only [permuted, List.getElem_ofFn]
    exact perm.getElem_idxBij_eq_getElem ⟨n, bound⟩

/-- What holds between earlier and later elements in every order holds between
any two. -/
theorem rel_of_permuted {R : α → α → Prop} {l : List α}
    (each : ∀ order, (permuted l order).Pairwise R) {i j : Fin l.length}
    (distinct : i ≠ j) : R (l.get i) (l.get j) := by
  have size : ∀ order, (permuted l order).length = l.length :=
    fun order => (permuted_perm l order).length_eq
  rcases lt_or_gt_of_ne distinct with before | after
  · have related := List.pairwise_iff_getElem.mp (each (Equiv.refl _)) i j
      (by rw [size]; exact i.isLt) (by rw [size]; exact j.isLt) before
    simpa [permuted] using related
  · have related := List.pairwise_iff_getElem.mp (each (Equiv.swap i j)) j i
      (by rw [size]; exact j.isLt) (by rw [size]; exact i.isLt) after
    simpa [permuted] using related

/-- Enumerate an unordered collection, given as some list of its elements. -/
def unordered (l : List α) : Client Cell State Err (List α) :=
  .choose l.length fun order => pure (permuted l order)

/-- A loop whose body extends an accumulator with what it computes for each
element. -/
def collect (body : α → Client Cell State Err (List β)) :
    List α → Client Cell State Err (List β)
  | [] => pure []
  | a :: rest => do
      let found ← body a
      let more ← collect body rest
      pure (found ++ more)

/-- A loop with a richer accumulator, every iteration of which erases to the
plain one, erases to the plain loop. -/
theorem map_foldlM {erase : γ → β} {noted : γ → α → Client Cell State Err γ}
    {plain : β → α → Client Cell State Err β}
    (each : ∀ acc a, erase <$> noted acc a = plain (erase acc) a) (l : List α)
    (start : γ) : erase <$> l.foldlM noted start = l.foldlM plain (erase start) := by
  induction l generalizing start with
  | nil => rfl
  | cons a rest inductionHypothesis =>
      rw [List.foldlM_cons, List.foldlM_cons, map_bind, ← each, bind_map_left]
      exact bind_congr inductionHypothesis

/-! ### Evaluation under oracles -/

/-- Evaluate under explicit oracles: `serve t c` is what cell `c` holds at time
`t`, and `order t` the enumeration order met at time `t`.  Every read and every
enumeration takes one unit of time. -/
def run (serve : Nat → Cell → State)
    (order : Nat → (size : Nat) → Equiv.Perm (Fin size)) :
    Nat → Client Cell State Err α → Except Err α
  | _, .done outcome => outcome
  | time, .choose size next => run serve order (time + 1) (next (order time size))
  | time, .read cell next => run serve order (time + 1) (next (serve time cell))

/-- The outcomes a program can have while every cell keeps the content `serve`
gives it. -/
inductive Returns (serve : Cell → State) :
    Client Cell State Err α → Except Err α → Prop where
  | done (outcome : Except Err α) : Returns serve (.done outcome) outcome
  | choose {size : Nat} {next : Equiv.Perm (Fin size) → Client Cell State Err α}
      {outcome : Except Err α} (order : Equiv.Perm (Fin size))
      (rest : Returns serve (next order) outcome) :
        Returns serve (.choose size next) outcome
  | read {cell : Cell} {next : State → Client Cell State Err α} {outcome : Except Err α}
      (rest : Returns serve (next (serve cell)) outcome) :
        Returns serve (.read cell next) outcome

/-- Evaluation with constant cells yields one of the frozen outcomes. -/
theorem returns_run (serve : Cell → State)
    (order : Nat → (size : Nat) → Equiv.Perm (Fin size)) (time : Nat)
    (prog : Client Cell State Err α) :
    Returns serve prog (prog.run (fun _ => serve) order time) := by
  induction prog generalizing time with
  | done outcome => exact .done outcome
  | choose size next ih => exact .choose (order time size) (ih _ _)
  | read cell next ih => exact .read (ih _ _)

/-- Every program has an outcome. -/
theorem exists_returns (serve : Cell → State) (prog : Client Cell State Err α) :
    ∃ outcome, Returns serve prog outcome :=
  ⟨_, returns_run serve (fun _ _ => Equiv.refl _) 0 prog⟩

/-! ### Outcomes of sequences -/

/-- A sequence ends as its second part does after a result of the first, or with
the first part's failure. -/
theorem returns_bind_iff {serve : Cell → State} {prog : Client Cell State Err α}
    {f : α → Client Cell State Err β} {outcome : Except Err β} :
    Returns serve (prog >>= f) outcome ↔
      (∃ a, Returns serve prog (.ok a) ∧ Returns serve (f a) outcome) ∨
        ∃ e, Returns serve prog (.error e) ∧ outcome = .error e := by
  rw [bind_def]
  induction prog with
  | done first =>
      cases first with
      | ok a =>
          constructor
          · exact fun rest => .inl ⟨a, .done _, rest⟩
          · rintro (⟨_, ⟨⟩, rest⟩ | ⟨_, ⟨⟩, _⟩)
            exact rest
      | error e =>
          constructor
          · rintro ⟨⟩
            exact .inr ⟨e, .done _, rfl⟩
          · rintro (⟨_, ⟨⟩, _⟩ | ⟨_, ⟨⟩, rfl⟩)
            exact .done _
  | choose size next inductionHypothesis =>
      constructor
      · rintro (_ | ⟨order, rest⟩)
        rcases (inductionHypothesis order).mp rest
          with ⟨a, first, second⟩ | ⟨e, first, same⟩
        · exact .inl ⟨a, .choose order first, second⟩
        · exact .inr ⟨e, .choose order first, same⟩
      · rintro (⟨a, _ | ⟨order, first⟩, second⟩ | ⟨e, _ | ⟨order, first⟩, same⟩)
        · exact .choose order ((inductionHypothesis order).mpr (.inl ⟨a, first, second⟩))
        · exact .choose order ((inductionHypothesis order).mpr (.inr ⟨e, first, same⟩))
  | read cell next inductionHypothesis =>
      constructor
      · rintro (_ | _ | rest)
        rcases (inductionHypothesis _).mp rest with ⟨a, first, second⟩ | ⟨e, first, same⟩
        · exact .inl ⟨a, .read first, second⟩
        · exact .inr ⟨e, .read first, same⟩
      · rintro (⟨a, _ | _ | first, second⟩ | ⟨e, _ | _ | first, same⟩)
        · exact .read ((inductionHypothesis _).mpr (.inl ⟨a, first, second⟩))
        · exact .read ((inductionHypothesis _).mpr (.inr ⟨e, first, same⟩))

/-- A loop fails where one of its rounds does, after the rounds before it
succeeded. -/
theorem returns_foldlM_error_iff {serve : Cell → State}
    {body : β → α → Client Cell State Err β} {l : List α} {start : β} {e : Err} :
    Returns serve (l.foldlM body start) (.error e) ↔
      ∃ done a later acc, l = done ++ a :: later ∧
        Returns serve (done.foldlM body start) (.ok acc) ∧
        Returns serve (body acc a) (.error e) := by
  induction l generalizing start with
  | nil =>
      constructor
      · rintro ⟨⟩
      · rintro ⟨done, a, later, acc, split, _⟩
        simp at split
  | cons a l inductionHypothesis =>
      rw [List.foldlM_cons, returns_bind_iff]
      constructor
      · rintro (⟨next, first, rest⟩ | ⟨_, first, ⟨⟩⟩)
        · obtain ⟨done, b, later, acc, rfl, before, fails⟩ := inductionHypothesis.mp rest
          refine ⟨a :: done, b, later, acc, rfl, ?_, fails⟩
          rw [List.foldlM_cons]
          exact returns_bind_iff.mpr (.inl ⟨next, first, before⟩)
        · exact ⟨[], a, l, start, rfl, .done _, first⟩
      · rintro ⟨done, b, later, acc, split, before, fails⟩
        cases done with
        | nil =>
            cases split
            cases before
            exact .inr ⟨e, fails, rfl⟩
        | cons c done =>
            rw [List.cons_append, List.cons.injEq] at split
            obtain ⟨rfl, rfl⟩ := split
            rw [List.foldlM_cons, returns_bind_iff] at before
            rcases before with ⟨next, first, rest⟩ | ⟨_, _, ⟨⟩⟩
            exact .inl ⟨next, first,
              inductionHypothesis.mpr ⟨done, b, later, acc, rfl, rest, fails⟩⟩

end Client

end GraphEngine
