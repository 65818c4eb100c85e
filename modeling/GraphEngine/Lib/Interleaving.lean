/-
Module: GraphEngine.Lib.Interleaving
Layer: Lib
Purpose: Interleave a client program with overwrites of the cells it reads.  A
  run is a sequence of labelled steps: the client reads a cell, the client meets
  an enumeration order, or another process overwrites a cell. A run that never
  overwrites a cell between two reads of it is a frozen run: every read agrees
  with one content per cell, a content the cell really had during the run.
Trusted boundary: none
Main exports: Client.Event, Client.Step, Client.Run, Client.Undisturbed,
  Client.Run.frozen, Client.CleanCut, Client.Run.returns_atCut,
  Client.run_ofSchedule, Client.Run.reads
-/
import GraphEngine.Lib.ClientRules
import Mathlib.Logic.Function.Basic

namespace GraphEngine

namespace Client

variable {Cell State Err α : Type} [DecidableEq Cell]

/-! ### Labelled steps -/

/-- What one step of a run did. -/
inductive Event (Cell State : Type) where
  | swap (cell : Cell) (state : State)
  | read (cell : Cell) (state : State)
  | order {size : Nat} (order : Equiv.Perm (Fin size))

/-- The content of the cells and what is left of the client program. -/
structure Config (Cell State Err α : Type) where
  cells : Cell → State
  prog : Client Cell State Err α

/-- One step: an overwrite by another process, or one node of the client
program. -/
inductive Step :
    Config Cell State Err α → Event Cell State → Config Cell State Err α → Prop where
  | swap (cfg : Config Cell State Err α) (cell : Cell) (state : State) :
      Step cfg (.swap cell state) ⟨Function.update cfg.cells cell state, cfg.prog⟩
  | read (cells : Cell → State) (cell : Cell) (next : State → Client Cell State Err α) :
      Step ⟨cells, .read cell next⟩ (.read cell (cells cell)) ⟨cells, next (cells cell)⟩
  | order (cells : Cell → State) {size : Nat}
      (next : Equiv.Perm (Fin size) → Client Cell State Err α)
      (order : Equiv.Perm (Fin size)) :
      Step ⟨cells, .choose size next⟩ (.order order) ⟨cells, next order⟩

/-- A finite run with its labels. -/
inductive Run : Config Cell State Err α → List (Event Cell State) →
    Config Cell State Err α → Prop where
  | nil (cfg : Config Cell State Err α) : Run cfg [] cfg
  | cons {cfg mid last : Config Cell State Err α} {event : Event Cell State}
      {trace : List (Event Cell State)} (step : Step cfg event mid)
      (rest : Run mid trace last) :
      Run cfg (event :: trace) last

/-- A run that starts with a read. -/
theorem Run.read_cons {cells : Cell → State} {prog : Client Cell State Err α}
    {cell : Cell} {state : State} {next : State → Client Cell State Err α}
    {trace : List (Event Cell State)} {last : Config Cell State Err α}
    (shape : prog = .read cell next) (holds : cells cell = state)
    (rest : Run ⟨cells, next state⟩ trace last) :
    Run ⟨cells, prog⟩ (.read cell state :: trace) last := by
  subst shape holds
  exact .cons (.read _ _ _) rest

/-- A content that `cell` had at some point of a run: its initial one, or one
swapped in. -/
def ServedDuring (cells : Cell → State) (trace : List (Event Cell State)) (cell : Cell)
    (state : State) : Prop :=
  state = cells cell ∨ Event.swap cell state ∈ trace

/-- No cell is overwritten between two reads of it. -/
def Undisturbed (trace : List (Event Cell State)) : Prop :=
  ∀ (before between after : List (Event Cell State)) (cell : Cell)
    (first second state : State),
    trace = before ++ .read cell first :: (between ++ .read cell second :: after) →
      Event.swap cell state ∉ between

/-! ### What the reads of a run see -/

/-- The content of the cells after the overwrites of a trace. -/
def overwritten (cells : Cell → State) : List (Event Cell State) → Cell → State
  | [] => cells
  | .swap cell state :: rest => overwritten (Function.update cells cell state) rest
  | .read _ _ :: rest => overwritten cells rest
  | .order _ :: rest => overwritten cells rest

/-- Swaps take effect one after the other. -/
theorem overwritten_append (cells : Cell → State)
    (before after : List (Event Cell State)) :
    overwritten cells (before ++ after) =
      overwritten (overwritten cells before) after := by
  induction before generalizing cells with
  | nil => rfl
  | cons event rest inductionHypothesis =>
      cases event <;> exact inductionHypothesis _

/-- A cell keeps its content along a trace that does not overwrite it. -/
theorem overwritten_of_not_swapped {trace : List (Event Cell State)} {cell : Cell}
    (untouched : ∀ state, Event.swap cell state ∉ trace) (cells : Cell → State) :
    overwritten cells trace cell = cells cell := by
  induction trace generalizing cells with
  | nil => rfl
  | cons event rest inductionHypothesis =>
      have later : ∀ state, Event.swap cell state ∉ rest :=
        fun state member => untouched state (List.mem_cons_of_mem event member)
      cases event with
      | swap other state =>
          have different : cell ≠ other := by
            rintro rfl
            exact untouched state List.mem_cons_self
          rw [overwritten, inductionHypothesis later, Function.update_of_ne different]
      | read other state => exact inductionHypothesis later cells
      | order order => exact inductionHypothesis later cells

/-- A read sees what the overwrites before it left in the cell. -/
theorem Run.read_eq {cfg last : Config Cell State Err α}
    {before after : List (Event Cell State)} {cell : Cell} {state : State}
    (run : Run cfg (before ++ .read cell state :: after) last) :
    state = overwritten cfg.cells before cell := by
  induction before generalizing cfg with
  | nil =>
      cases run with
      | cons step rest => cases step; rfl
  | cons event before inductionHypothesis =>
      cases run with
      | cons step rest =>
          have seen := inductionHypothesis rest
          cases step <;> exact seen

/-- What the overwrites of a trace leave in a cell is a content the cell had
during the trace. -/
theorem overwritten_served (cells : Cell → State) (trace : List (Event Cell State))
    (cell : Cell) : ServedDuring cells trace cell (overwritten cells trace cell) := by
  induction trace generalizing cells with
  | nil => exact .inl rfl
  | cons event rest inductionHypothesis =>
      cases event with
      | swap other state =>
          rcases inductionHypothesis (Function.update cells other state)
            with initial | swapped
          · rw [overwritten]
            by_cases same : cell = other
            · subst same
              rw [initial, Function.update_self]
              exact .inr List.mem_cons_self
            · rw [initial, Function.update_of_ne same]
              exact .inl rfl
          · exact .inr (List.mem_cons_of_mem _ swapped)
      | read other state =>
          exact (inductionHypothesis cells).imp id (List.mem_cons_of_mem _)
      | order order =>
          exact (inductionHypothesis cells).imp id (List.mem_cons_of_mem _)

omit [DecidableEq Cell] in
/-- What is served during a run is served during a longer one. -/
theorem ServedDuring.append {cells : Cell → State}
    {before after : List (Event Cell State)} {cell : Cell} {state : State}
    (served : ServedDuring cells before cell state) :
    ServedDuring cells (before ++ after) cell state :=
  served.imp id (List.mem_append_left after)

/-- Every read sees a content the cell had during the run. -/
theorem Run.read_served {cfg last : Config Cell State Err α}
    {trace : List (Event Cell State)} (run : Run cfg trace last) {cell : Cell}
    {state : State} (member : Event.read cell state ∈ trace) :
    ServedDuring cfg.cells trace cell state := by
  obtain ⟨before, after, rfl⟩ := List.append_of_mem member
  rw [run.read_eq]
  exact (overwritten_served cfg.cells before cell).append

/-- Along an undisturbed run two reads of one cell see the same content. -/
theorem Run.reads_agree {cfg last : Config Cell State Err α}
    {trace : List (Event Cell State)} (run : Run cfg trace last)
    (undisturbed : Undisturbed trace) {cell : Cell} {first second : State}
    (firstMember : Event.read cell first ∈ trace)
    (secondMember : Event.read cell second ∈ trace) : first = second := by
  -- Of two reads in a row, the later one sees what the earlier one saw.
  have ordered : ∀ {before between after : List (Event Cell State)} {early late : State},
      trace = before ++ .read cell early :: (between ++ .read cell late :: after) →
        early = late := by
    intro before between after early late split
    have untouched : ∀ state, Event.swap cell state ∉ between :=
      fun state => undisturbed before between after cell early late state split
    have earlyEq : early = overwritten cfg.cells before cell := by
      subst split
      exact run.read_eq
    have lateEq : late = overwritten cfg.cells
        (before ++ .read cell early :: between) cell := by
      subst split
      rw [← List.cons_append, ← List.append_assoc] at run
      exact run.read_eq
    rw [lateEq, overwritten_append, overwritten, overwritten_of_not_swapped untouched,
      earlyEq]
  obtain ⟨before, after, split⟩ := List.append_of_mem firstMember
  rw [split, List.mem_append, List.mem_cons] at secondMember
  rcases secondMember with earlier | same | later
  · obtain ⟨start, between, rfl⟩ := List.append_of_mem earlier
    have reordered : trace = start ++ .read cell second ::
        (between ++ .read cell first :: after) := by
      rw [split, List.append_assoc, List.cons_append]
    exact (ordered reordered).symm
  · cases same; rfl
  · obtain ⟨between, rest, rfl⟩ := List.append_of_mem later
    exact ordered split

/-- A run all of whose reads agree with `frozen` is a frozen evaluation. -/
theorem Run.returns {cfg : Config Cell State Err α}
    {trace : List (Event Cell State)} {cells : Cell → State}
    {outcome : Except Err α} (run : Run cfg trace ⟨cells, .done outcome⟩)
    {frozen : Cell → State}
    (agrees : ∀ cell state, Event.read cell state ∈ trace → frozen cell = state) :
    Returns frozen cfg.prog outcome := by
  generalize lastEq : (⟨cells, .done outcome⟩ : Config Cell State Err α) = last at run
  induction run with
  | nil cfg => subst lastEq; exact .done outcome
  | cons step rest inductionHypothesis =>
      have inner := inductionHypothesis
        (fun cell state member =>
          agrees cell state (List.mem_cons_of_mem _ member)) lastEq
      cases step with
      | swap cell state => exact inner
      | read cells cell next =>
          have seen : frozen cell = cells cell := agrees cell _ List.mem_cons_self
          refine .read ?_
          rw [seen]
          exact inner
      | order cells next order => exact .choose order inner

/-- The cells that a run reads, in order. -/
def cellsRead (trace : List (Event Cell State)) : List Cell :=
  trace.filterMap fun event =>
    match event with
    | .read cell _ => some cell
    | .swap _ _ | .order _ => none

/-- A run that ends has read the first of the cells that its program reads in
turn; all of them if it succeeds. -/
theorem Run.reads {cfg : Config Cell State Err α} {trace : List (Event Cell State)}
    {last : Cell → State} {outcome : Except Err α}
    (run : Run cfg trace ⟨last, .done outcome⟩) {cells : List Cell}
    (inTurn : ReadsInTurn cells cfg.prog) :
    cellsRead trace <+: cells ∧ (outcome.isOk → cellsRead trace = cells) := by
  generalize lastEq : (⟨last, .done outcome⟩ : Config Cell State Err α) = final at run
  induction run generalizing cells with
  | nil cfg =>
      subst lastEq
      refine ⟨List.nil_prefix, fun succeeds => ?_⟩
      cases outcome with
      | ok a => exact inTurn.symm
      | error e => cases succeeds
  | cons step rest inductionHypothesis =>
      cases step with
      | swap cell state => exact inductionHypothesis inTurn lastEq
      | order content next order => exact inductionHypothesis (inTurn order) lastEq
      | read content cell next =>
          obtain ⟨later, rfl, reads⟩ := inTurn
          obtain ⟨before, whole⟩ := inductionHypothesis (reads _) lastEq
          exact ⟨List.prefix_cons_inj _ |>.mpr before, fun succeeds =>
            congrArg (cell :: ·) (whole succeeds)⟩

open Classical in
/-- The content that the reads of a cell agree on, or its initial content if it
is never read. -/
noncomputable def agreedContent (cells : Cell → State) (trace : List (Event Cell State))
    (cell : Cell) : State :=
  if seen : ∃ state, Event.read cell state ∈ trace then seen.choose else cells cell

/-- An undisturbed run is a frozen evaluation at contents that the cells had
during the run. -/
theorem Run.frozen {cfg : Config Cell State Err α} {trace : List (Event Cell State)}
    {cells : Cell → State} {outcome : Except Err α}
    (run : Run cfg trace ⟨cells, .done outcome⟩) (undisturbed : Undisturbed trace) :
    ∃ frozen : Cell → State, (∀ cell, ServedDuring cfg.cells trace cell (frozen cell)) ∧
      Returns frozen cfg.prog outcome := by
  refine ⟨agreedContent cfg.cells trace, fun cell =>
    ?_, run.returns fun cell state member => ?_⟩
  · unfold agreedContent
    split
    case isTrue seen => exact run.read_served seen.choose_spec
    case isFalse => exact .inl rfl
  · have seen : ∃ state, Event.read cell state ∈ trace := ⟨state, member⟩
    rw [agreedContent, dif_pos seen]
    exact run.reads_agree undisturbed seen.choose_spec member

omit [DecidableEq Cell] in
/-- No cell is overwritten between a read of it and the instant that separates
the two parts of a trace. -/
structure CleanCut (early late : List (Event Cell State)) : Prop where
  readBefore : ∀ before after cell seen, early = before ++ .read cell seen :: after →
    ∀ state, Event.swap cell state ∉ after
  readAfter : ∀ before after cell seen, late = before ++ .read cell seen :: after →
    ∀ state, Event.swap cell state ∉ before

/-- Every read sees what its cell holds at the instant of a clean cut. -/
theorem Run.read_eq_atCut {cfg last : Config Cell State Err α}
    {early late : List (Event Cell State)} (run : Run cfg (early ++ late) last)
    (clean : CleanCut early late) {cell : Cell} {state : State}
    (member : Event.read cell state ∈ early ++ late) :
    overwritten cfg.cells early cell = state := by
  rcases List.mem_append.mp member with inEarly | inLate
  · obtain ⟨before, after, split⟩ := List.append_of_mem inEarly
    have untouched := clean.readBefore before after cell state split
    rw [split, List.append_assoc, List.cons_append] at run
    rw [split, overwritten_append, overwritten, overwritten_of_not_swapped untouched]
    exact run.read_eq.symm
  · obtain ⟨before, after, split⟩ := List.append_of_mem inLate
    have untouched := clean.readAfter before after cell state split
    rw [split, ← List.append_assoc] at run
    have seen := run.read_eq
    rw [overwritten_append, overwritten_of_not_swapped untouched] at seen
    exact seen.symm

/-- A run with a clean cut is a frozen evaluation at what the cells hold at that
instant. -/
theorem Run.returns_atCut {cfg : Config Cell State Err α}
    {early late : List (Event Cell State)} {cells : Cell → State}
    {outcome : Except Err α} (run : Run cfg (early ++ late) ⟨cells, .done outcome⟩)
    (clean : CleanCut early late) :
    Returns (overwritten cfg.cells early) cfg.prog outcome :=
  run.returns fun _ _ member => run.read_eq_atCut clean member

omit [DecidableEq Cell] in
/-- Overwrites that all come before the first read disturb nothing. -/
theorem Undisturbed.of_early {early late : List (Event Cell State)}
    (noReads : ∀ cell state, Event.read cell state ∉ early)
    (noSwaps : ∀ cell state, Event.swap cell state ∉ late) :
    Undisturbed (early ++ late) := by
  intro before between after cell first second state split swapped
  have tail : Event.swap cell state ∈ between ++ .read cell second :: after :=
    List.mem_append_left _ swapped
  rcases List.append_eq_append_iff.mp split with ⟨more, -, rest⟩ | ⟨more, earlyEq, rest⟩
  · apply noSwaps cell state
    rw [rest]
    exact List.mem_append_right _ (List.mem_cons_of_mem _ tail)
  · rcases more with _ | ⟨event, more⟩
    · apply noSwaps cell state
      rw [List.nil_append] at rest
      rw [← rest]
      exact List.mem_cons_of_mem _ tail
    · rw [List.cons_append, List.cons.injEq] at rest
      apply noReads cell first
      rw [earlyEq, rest.1]
      exact List.mem_append_right _ List.mem_cons_self

/-! ### Runs from a schedule of overwrites -/

/-- Overwrite cells one after the other. -/
def overwriteAll (cells : Cell → State) (swaps : List (Cell × State)) : Cell → State :=
  swaps.foldl (fun cells swap => Function.update cells swap.1 swap.2) cells

/-- A list of overwrites is a run that leaves the program alone. -/
theorem run_overwriteAll (cells : Cell → State) (prog : Client Cell State Err α)
    (swaps : List (Cell × State)) {trace : List (Event Cell State)}
    {last : Config Cell State Err α}
    (rest : Run ⟨overwriteAll cells swaps, prog⟩ trace last) :
    Run ⟨cells, prog⟩ (swaps.map (fun swap => .swap swap.1 swap.2) ++ trace) last := by
  induction swaps generalizing cells with
  | nil => exact rest
  | cons swap swaps inductionHypothesis =>
      exact .cons (.swap ⟨cells, prog⟩ swap.1 swap.2) (inductionHypothesis _ rest)

/-- Evaluation under oracles is a run, when the history of the cells comes from
a schedule of overwrites: `swaps time` are the overwrites between the times
`time` and `time + 1`. -/
theorem run_ofSchedule {serve : Nat → Cell → State}
    {swaps : Nat → List (Cell × State)}
    (evolves : ∀ time, serve (time + 1) = overwriteAll (serve time) (swaps time))
    (order : Nat → (size : Nat) → Equiv.Perm (Fin size))
    (prog : Client Cell State Err α) (time : Nat) :
    ∃ trace cells,
      Run ⟨serve time, prog⟩ trace ⟨cells, .done (prog.run serve order time)⟩ ∧
      ∀ cell state, Event.swap cell state ∈ trace → ∃ t, (cell, state) ∈ swaps t := by
  induction prog generalizing time with
  | done outcome => exact ⟨[], serve time, .nil _, by simp⟩
  | choose size next inductionHypothesis =>
      obtain ⟨trace, cells, rest, scheduled⟩ :=
        inductionHypothesis (order time size) (time + 1)
      rw [evolves time] at rest
      refine ⟨.order (order time size) ::
        ((swaps time).map (fun swap => .swap swap.1 swap.2) ++ trace),
        cells, .cons (.order _ _ _) (run_overwriteAll _ _ _ rest), ?_⟩
      intro cell state member
      simp only [List.mem_cons, reduceCtorEq, false_or, List.mem_append, List.mem_map,
        Event.swap.injEq, Prod.exists] at member
      rcases member with ⟨c, s, inSwaps, rfl, rfl⟩ | inTrace
      · exact ⟨time, inSwaps⟩
      · exact scheduled cell state inTrace
  | read cell next inductionHypothesis =>
      obtain ⟨trace, cells, rest, scheduled⟩ :=
        inductionHypothesis (serve time cell) (time + 1)
      rw [evolves time] at rest
      refine ⟨.read cell (serve time cell) ::
          ((swaps time).map (fun swap => .swap swap.1 swap.2) ++ trace),
        cells, .cons (.read _ _ _) (run_overwriteAll _ _ _ rest), ?_⟩
      intro other state member
      simp only [List.mem_cons, reduceCtorEq, false_or, List.mem_append, List.mem_map,
        Event.swap.injEq, Prod.exists] at member
      rcases member with ⟨c, s, inSwaps, rfl, rfl⟩ | inTrace
      · exact ⟨time, inSwaps⟩
      · exact scheduled other state inTrace

/-- Without overwrites an evaluation is a run. -/
theorem run_calm (serve : Cell → State)
    (order : Nat → (size : Nat) → Equiv.Perm (Fin size))
    (prog : Client Cell State Err α) (time : Nat) :
    ∃ trace cells,
      Run ⟨serve, prog⟩ trace ⟨cells, .done (prog.run (fun _ => serve) order time)⟩ ∧
      ∀ cell state, Event.swap cell state ∉ trace := by
  obtain ⟨trace, cells, run, scheduled⟩ :=
    @run_ofSchedule Cell State Err α _ (fun _ => serve) (fun _ => [])
      (fun _ => rfl) order prog time
  refine ⟨trace, cells, run, fun cell state member => ?_⟩
  obtain ⟨_, inSwaps⟩ := scheduled cell state member
  cases inSwaps

end Client

end GraphEngine
