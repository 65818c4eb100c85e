/-
Module: GraphEngine.Lib.ClientRules
Layer: Lib
Purpose: Hoare-style rules for client programs whose cells keep their content.
  `Meets serve Post Fault prog` says that whatever enumeration orders are met,
  `prog` ends with a result satisfying `Post` or with an error satisfying
  `Fault`.  There is one rule for each way to build a program.  `MeetsBy` adds
  that an enumeration order can be met whichever it is.  `Always Post prog` says
  of the results alone that they satisfy `Post`, also when the cells change
  between two reads, and `ReadsInTurn cells prog` which cells are read.
Trusted boundary: none
Main exports: Client.Meets, Client.Meets.ok, Client.Meets.error,
  Client.Meets.bind, Client.Meets.collect, Client.Meets.foldlM, Client.MeetsBy,
  Client.Always, Client.ReadsInTurn, Client.Determined
-/
import GraphEngine.Lib.Client
import GraphEngine.Lib.Collections

namespace GraphEngine

namespace Client

variable {Cell State Err α β : Type}

/-- Every frozen outcome is a result satisfying `Post` or an error satisfying
`Fault`. -/
def Meets (serve : Cell → State) (Post : α → Prop) (Fault : Err → Prop) :
    Client Cell State Err α → Prop
  | .done (.ok a) => Post a
  | .done (.error e) => Fault e
  | .choose _ next => ∀ order, Meets serve Post Fault (next order)
  | .read cell next => Meets serve Post Fault (next (serve cell))

namespace Meets

variable {serve : Cell → State} {Fault : Err → Prop}

/-! ### From the rules to the outcomes -/

/-- A successful outcome of a program that `Meets` its postcondition satisfies
it. -/
theorem ok {Post : α → Prop} {prog : Client Cell State Err α}
    (meets : prog.Meets serve Post Fault) {a : α} (returns : Returns serve prog (.ok a)) :
    Post a := by
  generalize outcomeEq : (Except.ok a : Except Err α) = outcome at returns
  induction returns with
  | done outcome => cases outcomeEq; exact meets
  | choose order _ inductionHypothesis =>
      exact inductionHypothesis (meets order) outcomeEq
  | read _ inductionHypothesis => exact inductionHypothesis meets outcomeEq

/-- A failure of a program that `Meets` its postcondition is one of the faults
allowed. -/
theorem error {Post : α → Prop} {prog : Client Cell State Err α}
    (meets : prog.Meets serve Post Fault) {e : Err}
    (returns : Returns serve prog (.error e)) : Fault e := by
  generalize outcomeEq : (Except.error e : Except Err α) = outcome at returns
  induction returns with
  | done outcome => cases outcomeEq; exact meets
  | choose order _ inductionHypothesis =>
      exact inductionHypothesis (meets order) outcomeEq
  | read _ inductionHypothesis => exact inductionHypothesis meets outcomeEq

/-- A program that can meet no fault has a successful outcome. -/
theorem exists_ok {Post : α → Prop} {prog : Client Cell State Err α}
    (meets : prog.Meets serve Post fun _ => False) :
    ∃ a, Returns serve prog (.ok a) ∧ Post a := by
  induction prog with
  | done outcome =>
      cases outcome with
      | ok a => exact ⟨a, .done _, meets⟩
      | error e => exact meets.elim
  | choose size next inductionHypothesis =>
      obtain ⟨a, returns, post⟩ :=
        inductionHypothesis (Equiv.refl _) (meets (Equiv.refl _))
      exact ⟨a, .choose _ returns, post⟩
  | read cell next inductionHypothesis =>
      obtain ⟨a, returns, post⟩ := inductionHypothesis _ meets
      exact ⟨a, .read returns, post⟩

/-! ### Structural rules -/

/-- Returning meets what holds of the value. -/
theorem pure {Post : α → Prop} {a : α} (post : Post a) :
    (pure a : Client Cell State Err α).Meets serve Post Fault := post

/-- Failing meets what holds of the error. -/
theorem fail {Post : α → Prop} {e : Err} (fault : Fault e) :
    (fail e : Client Cell State Err α).Meets serve Post Fault := fault

/-- A pure computation, with its errors reported otherwise. -/
theorem ofExcept_mapError {ε : Type} {Post : α → Prop} {x : Except ε α} {f : ε → Err}
    (ok : ∀ a, x = .ok a → Post a) (error : ∀ e, x = .error e → Fault (f e)) :
    (ofExcept (x.mapError f) : Client Cell State Err α).Meets serve Post Fault := by
  cases x with
  | ok a => exact ok a rfl
  | error e => exact error e rfl

/-- Reporting errors otherwise changes the faults alone. -/
theorem mapError {Err' : Type} {Post : α → Prop} {Fault' : Err' → Prop}
    {prog : Client Cell State Err α} {f : Err → Err'}
    (meets : prog.Meets serve Post fun e => Fault' (f e)) :
    (prog.mapError f).Meets serve Post Fault' := by
  induction prog with
  | done outcome =>
      cases outcome with
      | ok a => exact meets
      | error e => exact meets
  | choose size next inductionHypothesis =>
      exact fun order => inductionHypothesis order (meets order)
  | read cell next inductionHypothesis => exact inductionHypothesis _ meets

/-- The rule of consequence: both postconditions may be weakened. -/
theorem mono {Post Post' : α → Prop} {Fault' : Err → Prop}
    {prog : Client Cell State Err α} (meets : prog.Meets serve Post Fault)
    (weaker : ∀ a, Post a → Post' a) (fault : ∀ e, Fault e → Fault' e) :
    prog.Meets serve Post' Fault' := by
  induction prog with
  | done outcome =>
      cases outcome with
      | ok a => exact weaker a meets
      | error e => exact fault e meets
  | choose size next inductionHypothesis =>
      exact fun order => inductionHypothesis order (meets order)
  | read cell next inductionHypothesis => exact inductionHypothesis _ meets

/-- Weakening the postcondition alone. -/
theorem imp {Post Post' : α → Prop} {prog : Client Cell State Err α}
    (meets : prog.Meets serve Post Fault) (weaker : ∀ a, Post a → Post' a) :
    prog.Meets serve Post' Fault :=
  meets.mono weaker fun _ fault => fault

/-- Two postconditions hold together. -/
theorem and {Post Post' : α → Prop} {Fault' : Err → Prop} {prog : Client Cell State Err α}
    (first : prog.Meets serve Post Fault) (second : prog.Meets serve Post' Fault') :
    prog.Meets serve (fun a => Post a ∧ Post' a) Fault := by
  induction prog with
  | done outcome =>
      cases outcome with
      | ok a => exact ⟨first, second⟩
      | error e => exact first
  | choose size next inductionHypothesis =>
      exact fun order => inductionHypothesis order (first order) (second order)
  | read cell next inductionHypothesis => exact inductionHypothesis _ first second

/-- The rule of sequencing: what the first program meets is what the second may
rely on. -/
theorem bind {M : α → Prop} {Post : β → Prop} {prog : Client Cell State Err α}
    {body : α → Client Cell State Err β} (first : prog.Meets serve M Fault)
    (rest : ∀ a, M a → (body a).Meets serve Post Fault) :
    (prog >>= body).Meets serve Post Fault := by
  rw [bind_def]
  induction prog with
  | done outcome =>
      cases outcome with
      | ok a => exact rest a first
      | error e => exact first
  | choose size next inductionHypothesis =>
      exact fun order => inductionHypothesis order (first order)
  | read cell next inductionHypothesis => exact inductionHypothesis _ first

/-- A frozen cell gives its content. -/
theorem acquire (cell : Cell) :
    (acquire cell : Client Cell State Err State).Meets serve (· = serve cell) Fault := rfl

/-- An enumeration is a permutation of the collection. -/
theorem unordered (l : List α) :
    (unordered l : Client Cell State Err (List α)).Meets serve (·.Perm l) Fault :=
  fun order => permuted_perm l order

/-! ### Loop rules -/

/-- The loop rule with an accumulator: `I visited acc` relates the elements
already visited to the accumulator, and every iteration carries it one element
further. -/
theorem foldlM {I : List α → β → Prop} {body : β → α → Client Cell State Err β}
    (l : List α) {start : β} (init : I [] start)
    (step : ∀ visited a later acc, l = visited ++ a :: later → I visited acc →
      (body acc a).Meets serve (I (visited ++ [a])) Fault) :
    (l.foldlM body start).Meets serve (I l) Fault := by
  suffices general : ∀ (rest visited : List α) (acc : β), l = visited ++ rest →
      I visited acc → (rest.foldlM body acc).Meets serve (I l) Fault from
    general l [] start rfl init
  intro rest
  induction rest with
  | nil =>
      intro visited acc split holds
      rw [split, List.append_nil]
      exact Meets.pure holds
  | cons a rest inductionHypothesis =>
      intro visited acc split holds
      rw [List.foldlM_cons]
      refine Meets.bind (step visited a rest acc split holds) fun acc' holds' => ?_
      exact inductionHypothesis (visited ++ [a]) acc'
        (by rw [split, List.append_cons]) holds'

/-- The loop rule for `collect`: what the body ensures for each element holds of
the pieces, in order, of which the collected list is the concatenation. -/
theorem collect {P : α → List β → Prop} {body : α → Client Cell State Err (List β)}
    (l : List α) (each : ∀ a ∈ l, (body a).Meets serve (P a) Fault) :
    (collect body l).Meets serve
      (fun out => ∃ pieces, List.Forall₂ P l pieces ∧ out = pieces.flatten) Fault := by
  induction l with
  | nil => exact ⟨[], .nil, rfl⟩
  | cons a rest inductionHypothesis =>
      refine Meets.bind (each a List.mem_cons_self) fun found postFound => ?_
      refine Meets.bind
        (inductionHypothesis fun b member => each b (List.mem_cons_of_mem a member)) ?_
      rintro more ⟨pieces, related, rfl⟩
      exact ⟨found :: pieces, .cons postFound related, rfl⟩

/-- The loop rule for membership: an element is collected exactly when some
iteration yields it. -/
theorem collect_mem {Y : α → β → Prop} {body : α → Client Cell State Err (List β)}
    (l : List α)
    (each : ∀ a ∈ l, (body a).Meets serve (fun out => ∀ b, b ∈ out ↔ Y a b) Fault) :
    (Client.collect body l).Meets serve
      (fun out => ∀ b, b ∈ out ↔ ∃ a ∈ l, Y a b) Fault := by
  refine (Meets.collect l each).imp ?_
  rintro out ⟨pieces, related, rfl⟩ b
  exact mem_flatten_partners related

/-- The loop rule up to order: the collected list is a permutation of the pieces
prescribed. -/
theorem collect_perm {F : α → List β} {body : α → Client Cell State Err (List β)}
    (l : List α) (each : ∀ a ∈ l, (body a).Meets serve (·.Perm (F a)) Fault) :
    (Client.collect body l).Meets serve (·.Perm (l.flatMap F)) Fault := by
  refine (Meets.collect l each).imp ?_
  rintro out ⟨pieces, related, rfl⟩
  clear each
  induction related with
  | nil => exact .nil
  | cons head _ inductionHypothesis => exact head.append inductionHypothesis

end Meets

/-! ### Choices of the environment -/

/-- One of several choices is made while the program runs, and whichever is
made, the program behaves as `Post` says of that choice.  Every choice can be
made: with it the program ends well, unless it fails on the way. -/
structure MeetsBy {ι : Type} (serve : Cell → State) (Choice : ι → Prop)
    (Post : ι → α → Prop) (Fault : Err → Prop) (prog : Client Cell State Err α) :
    Prop where
  sound : prog.Meets serve (fun a => ∃ choice, Choice choice ∧ Post choice a) Fault
  possible : ∀ choice, Choice choice →
    (∃ a, Returns serve prog (.ok a) ∧ Post choice a) ∨ ∃ e, Returns serve prog (.error e)

namespace MeetsBy

variable {ι : Type} {serve : Cell → State} {Choice : ι → Prop} {Fault : Err → Prop}

/-- The order in which a collection is enumerated is a choice. -/
theorem unordered (l : List α) :
    (unordered l : Client Cell State Err (List α)).MeetsBy serve
    (·.Perm l) (fun order enumerated => enumerated = order) Fault where
  sound order := ⟨_, permuted_perm l order, rfl⟩
  possible order perm := by
    rcases exists_permuted perm with ⟨picks, same⟩
    exact .inl ⟨order, .choose picks (same ▸ .done _), rfl⟩

/-- A program that behaves alike for every choice. -/
theorem ofMeets {Post : ι → α → Prop} {prog : Client Cell State Err α} {some : ι}
    (choice : Choice some)
    (meets : prog.Meets serve
      (fun a => ∀ choice, Choice choice → Post choice a) Fault) :
    prog.MeetsBy serve Choice Post Fault where
  sound := meets.imp fun _ each => ⟨some, choice, each some choice⟩
  possible other chosen := by
    rcases exists_returns serve prog with ⟨outcome, returns⟩
    cases outcome with
    | ok a => exact .inl ⟨a, returns, meets.ok returns other chosen⟩
    | error e => exact .inr ⟨e, returns⟩

/-- The choice is made in the first part. -/
theorem bind {M : ι → α → Prop} {Post : ι → β → Prop}
    {prog : Client Cell State Err α} {body : α → Client Cell State Err β}
    (first : prog.MeetsBy serve Choice M Fault)
    (rest : ∀ choice a, Choice choice → M choice a →
      (body a).Meets serve (Post choice) Fault) :
    (prog >>= body).MeetsBy serve Choice Post Fault where
  sound := by
    refine Meets.bind first.sound ?_
    rintro a ⟨choice, chosen, holds⟩
    exact (rest choice a chosen holds).imp fun _ post => ⟨choice, chosen, post⟩
  possible choice chosen := by
    rcases first.possible choice chosen with ⟨a, returns, holds⟩ | ⟨e, fails⟩
    · rcases exists_returns serve (body a) with ⟨outcome, second⟩
      have both := returns_bind_iff.mpr (.inl ⟨a, returns, second⟩)
      cases outcome with
      | ok b => exact .inl ⟨b, both, (rest choice a chosen holds).ok second⟩
      | error e => exact .inr ⟨e, both⟩
    · exact .inr ⟨e, returns_bind_iff.mpr (.inr ⟨e, fails, rfl⟩)⟩

/-- The choice is made in the second part. -/
theorem after {M : α → Prop} {Post : ι → β → Prop} {prog : Client Cell State Err α}
    {body : α → Client Cell State Err β} (first : prog.Meets serve M Fault)
    (rest : ∀ a, M a → (body a).MeetsBy serve Choice Post Fault) :
    (prog >>= body).MeetsBy serve Choice Post Fault where
  sound := Meets.bind first fun a holds => (rest a holds).sound
  possible choice chosen := by
    rcases exists_returns serve prog with ⟨outcome, returns⟩
    cases outcome with
    | error e => exact .inr ⟨e, returns_bind_iff.mpr (.inr ⟨e, returns, rfl⟩)⟩
    | ok a =>
        rcases (rest a (first.ok returns)).possible choice chosen
          with ⟨b, second, post⟩ | ⟨e, fails⟩
        · exact .inl ⟨b, returns_bind_iff.mpr (.inl ⟨a, returns, second⟩), post⟩
        · exact .inr ⟨e, returns_bind_iff.mpr (.inl ⟨a, returns, fails⟩)⟩

/-- The rule of consequence, for every choice. -/
theorem mono {Post Post' : ι → α → Prop} {Fault' : Err → Prop}
    {prog : Client Cell State Err α} (meets : prog.MeetsBy serve Choice Post Fault)
    (weaker : ∀ choice a, Post choice a → Post' choice a)
    (fault : ∀ e, Fault e → Fault' e) : prog.MeetsBy serve Choice Post' Fault' where
  sound := meets.sound.mono
    (fun a ⟨choice, chosen, post⟩ => ⟨choice, chosen, weaker choice a post⟩) fault
  possible choice chosen :=
    (meets.possible choice chosen).imp_left fun ⟨a, returns, post⟩ =>
      ⟨a, returns, weaker choice a post⟩

end MeetsBy

/-! ### Results whatever is read -/

/-- Whatever the cells hold when they are read and whatever orders are met, a
result satisfies `Post`. -/
def Always (Post : α → Prop) : Client Cell State Err α → Prop
  | .done (.ok a) => Post a
  | .done (.error _) => True
  | .choose _ next => ∀ order, Always Post (next order)
  | .read _ next => ∀ state, Always Post (next state)

namespace Always

/-- The cells may change between any two reads. -/
theorem run {Post : α → Prop} {prog : Client Cell State Err α}
    (always : prog.Always Post) {serve : Nat → Cell → State}
    {order : Nat → (size : Nat) → Equiv.Perm (Fin size)} {time : Nat} {a : α}
    (ends : prog.run serve order time = .ok a) : Post a := by
  induction prog generalizing time with
  | done outcome =>
      cases ends
      exact always
  | choose size next inductionHypothesis => exact inductionHypothesis _ (always _) ends
  | read cell next inductionHypothesis => exact inductionHypothesis _ (always _) ends

/-- What always holds of a result holds of it in every run, faults aside. -/
theorem meets {Post : α → Prop} {prog : Client Cell State Err α}
    (always : prog.Always Post) (serve : Cell → State) :
    prog.Meets serve Post fun _ => True := by
  induction prog with
  | done outcome =>
      cases outcome with
      | ok a => exact always
      | error e => exact True.intro
  | choose size next inductionHypothesis =>
      exact fun order => inductionHypothesis order (always order)
  | read cell next inductionHypothesis => exact inductionHypothesis _ (always _)

/-- Returning always gives the value. -/
theorem pure {Post : α → Prop} {a : α} (post : Post a) :
    (pure a : Client Cell State Err α).Always Post := post

/-- A program that fails gives no value. -/
theorem fail {Post : α → Prop} (e : Err) :
    (fail e : Client Cell State Err α).Always Post := trivial

/-- What comes out of an evaluation is all that is given. -/
theorem ofExcept {Post : α → Prop} {x : Except Err α} (each : ∀ a, x = .ok a → Post a) :
    (ofExcept x : Client Cell State Err α).Always Post := by
  cases x with
  | ok a => exact each a rfl
  | error e => exact trivial

/-- A postcondition may be weakened. -/
theorem imp {Post Post' : α → Prop} {prog : Client Cell State Err α}
    (always : prog.Always Post) (weaker : ∀ a, Post a → Post' a) :
    prog.Always Post' := by
  induction prog with
  | done outcome =>
      cases outcome with
      | ok a => exact weaker a always
      | error e => exact trivial
  | choose size next inductionHypothesis =>
      exact fun order => inductionHypothesis order (always order)
  | read cell next inductionHypothesis =>
      exact fun state => inductionHypothesis state (always state)

/-- What the first program always gives is what the second may rely on. -/
theorem bind {M : α → Prop} {Post : β → Prop} {prog : Client Cell State Err α}
    {body : α → Client Cell State Err β} (first : prog.Always M)
    (rest : ∀ a, M a → (body a).Always Post) : (prog >>= body).Always Post := by
  rw [bind_def]
  induction prog with
  | done outcome =>
      cases outcome with
      | ok a => exact rest a first
      | error e => exact trivial
  | choose size next inductionHypothesis =>
      exact fun order => inductionHypothesis order (first order)
  | read cell next inductionHypothesis =>
      exact fun state => inductionHypothesis state (first state)

/-- A function of the value holds of it what held of its image. -/
theorem map {Post : β → Prop} {prog : Client Cell State Err α} {f : α → β}
    (always : prog.Always fun a => Post (f a)) : (f <$> prog).Always Post := by
  rw [← bind_pure_comp]
  exact bind always fun _ post => pure post

/-- Nothing need be known of what a program reads. -/
theorem trivial (prog : Client Cell State Err α) : prog.Always fun _ => True := by
  induction prog with
  | done outcome => cases outcome <;> exact True.intro
  | choose size next inductionHypothesis => exact inductionHypothesis
  | read cell next inductionHypothesis => exact inductionHypothesis

/-- Of a state acquired at some time nothing is known. -/
theorem acquire (cell : Cell) :
    (acquire cell : Client Cell State Err State).Always fun _ => True :=
  trivial _

/-- An enumeration has the elements of the collection. -/
theorem unordered (l : List α) :
    (unordered l : Client Cell State Err (List α)).Always (·.Perm l) :=
  fun order => permuted_perm l order

/-- The loop rule: every iteration keeps the invariant. -/
theorem foldlM {I : β → Prop} {body : β → α → Client Cell State Err β} (l : List α)
    {start : β} (init : I start)
    (step : ∀ a ∈ l, ∀ acc, I acc → (body acc a).Always I) :
    (l.foldlM body start).Always I := by
  induction l generalizing start with
  | nil => exact pure init
  | cons a rest inductionHypothesis =>
      rw [List.foldlM_cons]
      apply bind (step a List.mem_cons_self start init)
      intro next holds
      exact inductionHypothesis holds fun b member =>
        step b (List.mem_cons_of_mem a member)

/-- What every iteration ensures of the elements it yields holds of all elements
collected. -/
theorem collect {P : β → Prop} {body : α → Client Cell State Err (List β)} (l : List α)
    (each : ∀ a ∈ l, (body a).Always fun out => ∀ b ∈ out, P b) :
    (Client.collect body l).Always fun out => ∀ b ∈ out, P b := by
  induction l with
  | nil => exact pure (by simp)
  | cons a rest inductionHypothesis =>
      apply bind (each a List.mem_cons_self)
      intro found here
      apply bind
        (inductionHypothesis fun b member => each b (List.mem_cons_of_mem a member))
      intro more later
      apply pure
      intro b member
      cases List.mem_append.mp member with
      | inl inFound => exact here b inFound
      | inr inMore => exact later b inMore

end Always

/-! ### The cells read -/

/-- Whatever it reads, the program reads these cells in this order; one that
fails may stop early. -/
def ReadsInTurn : List Cell → Client Cell State Err α → Prop
  | cells, .done (.ok _) => cells = []
  | _, .done (.error _) => True
  | cells, .choose _ next => ∀ order, ReadsInTurn cells (next order)
  | cells, .read cell next =>
      ∃ rest, cells = cell :: rest ∧ ∀ state, ReadsInTurn rest (next state)

namespace ReadsInTurn

/-- An evaluation reads no cell. -/
theorem ofExcept (x : Except Err α) :
    ReadsInTurn [] (ofExcept x : Client Cell State Err α) := by
  cases x with
  | ok a => exact rfl
  | error e => exact trivial

/-- Acquiring a cell reads that cell. -/
theorem acquire (cell : Cell) :
    ReadsInTurn [cell] (acquire cell : Client Cell State Err State) :=
  ⟨[], rfl, fun _ => rfl⟩

/-- The cells of the first program come before those of the second. -/
theorem bind {cells cells' : List Cell} {prog : Client Cell State Err α}
    {body : α → Client Cell State Err β} (first : ReadsInTurn cells prog)
    (rest : ∀ a, ReadsInTurn cells' (body a)) :
    ReadsInTurn (cells ++ cells') (prog >>= body) := by
  rw [bind_def]
  induction prog generalizing cells with
  | done outcome =>
      cases outcome with
      | ok a =>
          rw [show cells = [] from first]
          exact rest a
      | error e => exact trivial
  | choose size next inductionHypothesis =>
      exact fun order => inductionHypothesis order (first order)
  | read cell next inductionHypothesis =>
      obtain ⟨later, rfl, reads⟩ := first
      exact ⟨later ++ cells', rfl, fun state => inductionHypothesis state (reads state)⟩

/-- A program followed by one that reads nothing. -/
theorem thenSilent {cells : List Cell} {prog : Client Cell State Err α}
    {body : α → Client Cell State Err β} (first : ReadsInTurn cells prog)
    (rest : ∀ a, ReadsInTurn [] (body a)) : ReadsInTurn cells (prog >>= body) := by
  have both := bind first rest
  rwa [List.append_nil] at both

/-- A program after one that reads nothing. -/
theorem afterSilent {cells : List Cell} {prog : Client Cell State Err α}
    {body : α → Client Cell State Err β} (first : ReadsInTurn [] prog)
    (rest : ∀ a, ReadsInTurn cells (body a)) : ReadsInTurn cells (prog >>= body) :=
  bind first rest

/-- A loop reads what its iterations read, one after the other. -/
theorem foldlM {body : β → α → Client Cell State Err β} {cellsOf : α → List Cell}
    (l : List α) (start : β) (each : ∀ acc a, ReadsInTurn (cellsOf a) (body acc a)) :
    ReadsInTurn (l.flatMap cellsOf) (l.foldlM body start) := by
  induction l generalizing start with
  | nil => exact rfl
  | cons a rest inductionHypothesis =>
      rw [List.foldlM_cons, List.flatMap_cons]
      exact bind (each start a) inductionHypothesis

/-- A loop whose bodies read no cell reads none. -/
theorem mapM {body : α → Client Cell State Err β} (l : List α)
    (each : ∀ a, ReadsInTurn [] (body a)) : ReadsInTurn [] (l.mapM body) := by
  induction l with
  | nil => exact rfl
  | cons a rest inductionHypothesis =>
      rw [List.mapM_cons]
      exact thenSilent (each a) fun b => thenSilent inductionHypothesis fun more => rfl

end ReadsInTurn

/-! ### Programs with one outcome -/

/-- Whatever orders are met, the program ends as a pure computation does. -/
def Determined (serve : Cell → State) (prog : Client Cell State Err α)
    (result : Except Err α) : Prop :=
  prog.Meets serve (fun a => result = .ok a) (fun e => result = .error e)

namespace Determined

variable {serve : Cell → State}

/-- A determined program has one result, whatever order it enumerates in. -/
theorem eq_of_returns {prog : Client Cell State Err α}
    {result outcome : Except Err α} (determined : Determined serve prog result)
    (returns : Returns serve prog outcome) : outcome = result := by
  cases outcome with
  | ok a => exact (Meets.ok determined returns).symm
  | error e => exact (Meets.error determined returns).symm

/-- An evaluation is determined. -/
theorem ofExcept (result : Except Err α) :
    Determined serve (ofExcept result : Client Cell State Err α) result := by
  cases result with
  | ok a => rfl
  | error e => rfl

/-- Determined programs compose, an error of the first being the error of both. -/
theorem bind {prog : Client Cell State Err α} {result : Except Err α}
    {body : α → Client Cell State Err β} {rest : α → Except Err β}
    (first : Determined serve prog result)
    (second : ∀ a, Determined serve (body a) (rest a)) :
    Determined serve (prog >>= body) (result >>= rest) := by
  rw [bind_def]
  induction prog with
  | done outcome =>
      cases outcome with
      | ok a =>
          have same : result = .ok a := first
          rw [same]
          exact second a
      | error e =>
          have same : result = .error e := first
          rw [same]
          exact rfl
  | choose size next inductionHypothesis =>
      exact fun order => inductionHypothesis order (first order)
  | read cell next inductionHypothesis => exact inductionHypothesis _ first

/-- A read continues with what the cell holds. -/
theorem acquire_bind (cell : Cell) {body : State → Client Cell State Err α}
    {result : Except Err α} (rest : Determined serve (body (serve cell)) result) :
    Determined serve (Client.acquire cell >>= body) result := rest

/-- A fold with determined bodies is determined. -/
theorem foldlM {body : β → α → Client Cell State Err β}
    {pureBody : β → α → Except Err β} (l : List α) (start : β)
    (each : ∀ acc a, Determined serve (body acc a) (pureBody acc a)) :
    Determined serve (l.foldlM body start) (l.foldlM pureBody start) := by
  induction l generalizing start with
  | nil => exact rfl
  | cons a rest inductionHypothesis =>
      rw [List.foldlM_cons, List.foldlM_cons]
      exact bind (each start a) inductionHypothesis

/-- A loop with determined bodies is determined. -/
theorem mapM {body : α → Client Cell State Err β} {pureBody : α → Except Err β}
    (l : List α) (each : ∀ a, Determined serve (body a) (pureBody a)) :
    Determined serve (l.mapM body) (l.mapM pureBody) := by
  induction l with
  | nil => exact rfl
  | cons a rest inductionHypothesis =>
      rw [List.mapM_cons, List.mapM_cons]
      exact bind (each a) fun b => bind inductionHypothesis fun later =>
        ofExcept (.ok (b :: later))

end Determined

end Client

end GraphEngine
