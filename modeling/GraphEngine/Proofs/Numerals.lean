/-
Module: GraphEngine.Proofs.Numerals
Layer: Proofs
Purpose: When a computation that may panic returns, and which texts the standard
  library's conversions accept.
Trusted boundary: none
Main exports: Returns, returns_bind, returns_foldlM, foldlM_reaches,
  parseUnsigned_isSome, parseSigned_isSome, parseF64_isSome
-/
import GraphEngine.Lib.Collections
import GraphEngine.Lib.PegTrees
import GraphEngine.Model.Numerals

namespace GraphEngine

/-! ### Computations that do not panic -/

/-- The computation ends without a panic. -/
def Returns {α : Type} (computation : Except PanicMessage α) : Prop :=
  ∃ a, computation = .ok a

section Returns

variable {α β σ : Type}

@[simp] theorem returns_ok (a : α) : Returns (.ok a) := ⟨a, rfl⟩

@[simp] theorem not_returns_error (message : PanicMessage) :
    ¬ Returns (.error message : Except _ α) := by
  rintro ⟨a, ⟨⟩⟩

@[simp] theorem returns_map {f : α → β} {x : Except PanicMessage α} :
    Returns (x.map f) ↔ Returns x := by
  cases x <;> simp [Except.map]

@[simp] theorem returns_expect {message : PanicMessage} {x : Option α} :
    Returns (expect message x) ↔ x.isSome := by
  cases x <;> simp [expect]

theorem expect_eq_ok_iff {message : PanicMessage} {x : Option α} {a : α} :
    expect message x = .ok a ↔ x = some a := by
  cases x <;> simp [expect]

/-- A sequence returns exactly where its parts do. -/
theorem returns_bind {f : α → Except PanicMessage β} {x : Except PanicMessage α} :
    Returns (x >>= f) ↔ ∃ a, x = .ok a ∧ Returns (f a) := by
  cases x with
  | error message => simp [Bind.bind, Except.bind]
  | ok a => simp [Bind.bind, Except.bind]

/-- A step whose continuation, if it is reached, returns under one condition. -/
theorem returns_bind_iff_of_reached {f : α → Except PanicMessage β}
    {x : Except PanicMessage α} {P : Prop}
    (next : ∀ a, x = .ok a → (Returns (f a) ↔ P)) :
    Returns (x >>= f) ↔ Returns x ∧ P := by
  rw [returns_bind]
  constructor
  · rintro ⟨a, done, rest⟩
    exact ⟨⟨a, done⟩, (next a done).mp rest⟩
  · rintro ⟨⟨a, done⟩, rest⟩
    exact ⟨a, done, (next a done).mpr rest⟩

/-- A step whose continuation returns under one condition, whatever the step
delivers. -/
theorem returns_bind_iff {f : α → Except PanicMessage β} {x : Except PanicMessage α}
    {P : Prop} (next : ∀ a, Returns (f a) ↔ P) : Returns (x >>= f) ↔ Returns x ∧ P :=
  returns_bind_iff_of_reached fun a _ => next a

/-- A continuation that returns after every result the step can deliver. -/
theorem returns_bind_of_reached {f : α → Except PanicMessage β}
    {x : Except PanicMessage α} (next : ∀ a, x = .ok a → Returns (f a)) :
    Returns (x >>= f) ↔ Returns x := by
  rw [returns_bind]
  constructor
  · rintro ⟨a, done, _⟩
    exact ⟨a, done⟩
  · rintro ⟨a, done⟩
    exact ⟨a, done, next a done⟩

theorem returns_bind_of_forall {f : α → Except PanicMessage β} {x : Except PanicMessage α}
    (next : ∀ a, Returns (f a)) : Returns (x >>= f) ↔ Returns x :=
  returns_bind_of_reached fun a _ => next a

/-- A loop returns exactly where every body does. -/
theorem returns_mapM {f : α → Except PanicMessage β} {l : List α} :
    Returns (l.mapM f) ↔ ∀ a ∈ l, Returns (f a) := by
  induction l with
  | nil => simp [pure, Except.pure]
  | cons a l ih =>
      rw [List.mapM_cons, returns_bind, List.forall_mem_cons, ← ih]
      constructor
      · rintro ⟨b, done, rest⟩
        rw [returns_bind] at rest
        obtain ⟨bs, dones, _⟩ := rest
        exact ⟨⟨b, done⟩, bs, dones⟩
      · rintro ⟨⟨b, done⟩, bs, dones⟩
        exact ⟨b, done, returns_bind.mpr ⟨bs, dones, returns_ok _⟩⟩

/-- A loop returns if every round does, whatever the state it starts from. -/
theorem returns_foldlM {f : σ → α → Except PanicMessage σ} {P : α → Prop}
    {l : List α} (round : ∀ a ∈ l, ∀ s, Returns (f s a) ↔ P a) (s : σ) :
    Returns (l.foldlM f s) ↔ ∀ a ∈ l, P a := by
  induction l generalizing s with
  | nil => simp [pure, Except.pure]
  | cons a l ih =>
      obtain ⟨first, later⟩ := List.forall_mem_cons.mp round
      rw [List.foldlM_cons, returns_bind, List.forall_mem_cons]
      constructor
      · rintro ⟨s', done, rest⟩
        exact ⟨(first s).mp ⟨s', done⟩, (ih later s').mp rest⟩
      · rintro ⟨here, rest⟩
        obtain ⟨s', done⟩ := (first s).mpr here
        exact ⟨s', done, (ih later s').mpr rest⟩

/-- What no round of a loop undoes. -/
theorem foldlM_keeps {f : σ → α → Except PanicMessage σ} {Q : σ → Prop} {l : List α}
    (kept : ∀ a ∈ l, ∀ s s', f s a = .ok s' → Q s → Q s') {s s' : σ}
    (walked : l.foldlM f s = .ok s') (holds : Q s) : Q s' := by
  induction l generalizing s with
  | nil =>
      cases walked
      exact holds
  | cons a l ih =>
      rw [List.foldlM_cons] at walked
      cases step : f s a with
      | error message =>
          rw [step] at walked
          cases walked
      | ok next =>
          rw [step] at walked
          exact ih (fun b member => kept b (List.mem_cons_of_mem _ member)) walked
            (kept a List.mem_cons_self s next step holds)

/-- What one round of a loop establishes and no round undoes holds at the end. -/
theorem foldlM_reaches {f : σ → α → Except PanicMessage σ} {Q : σ → Prop}
    {l : List α} (kept : ∀ a ∈ l, ∀ s s', f s a = .ok s' → Q s → Q s') {a : α}
    (member : a ∈ l) (sets : ∀ s s', f s a = .ok s' → Q s') {s s' : σ}
    (walked : l.foldlM f s = .ok s') : Q s' := by
  induction l generalizing s with
  | nil => cases member
  | cons b l ih =>
      rw [List.foldlM_cons] at walked
      cases step : f s b with
      | error message =>
          rw [step] at walked
          cases walked
      | ok next =>
          rw [step] at walked
          have later : ∀ a ∈ l, ∀ s s', f s a = .ok s' → Q s → Q s' :=
            fun c here => kept c (List.mem_cons_of_mem _ here)
          rcases List.mem_cons.mp member with rfl | there
          · exact foldlM_keeps later walked (sets s next step)
          · exact ih later there walked

end Returns

/-! ### Numbers -/

/-- A numeral is one digit or more. -/
theorem isNumeral_iff {text : List Char} :
    isNumeral text = true ↔ text ≠ [] ∧ ∀ c ∈ text, c.isDigit = true := by
  simp [isNumeral]

/-- What the grammar takes for digits is a numeral. -/
theorem isNumeral_of_matches {ρ : Type} {g : Grammar ρ} {isAtomic : Bool}
    {text : List Char} {pairs : List (Pair ρ)}
    (matched : g.Matches isAtomic (.atLeastOnce (.char Char.isDigit)) text pairs) :
    isNumeral text = true :=
  isNumeral_iff.mpr (Grammar.text_of_atLeastOnce matched)

/-- A numeral is read exactly where it fits. -/
theorem parseUnsigned_isSome {bits : Nat} {text : List Char}
    (numeral : isNumeral text = true) :
    (parseUnsigned bits text).isSome ↔ digitsValue text < 2 ^ bits := by
  have unsigned : text.head? ≠ some '+' := by
    intro plus
    have digit := (isNumeral_iff.mp numeral).2 '+' (List.mem_of_mem_head? plus)
    exact absurd digit (by decide)
  simp only [parseUnsigned, unsigned, if_false, numeral, true_and]
  split <;> simp_all

/-- The number that a text with an optional minus sign denotes. -/
def signedValue (text : List Char) : Int :=
  if text.head? = some '-' then -digitsValue text.tail else digitsValue text

/-- A signed numeral is read exactly where it fits, one further below zero than
above. -/
theorem parseSigned_isSome {sign digits : List Char} (signed : sign = [] ∨ sign = ['-'])
    (numeral : isNumeral digits = true) :
    (parseSigned 64 (sign ++ digits)).isSome ↔
      -2 ^ 63 ≤ signedValue (sign ++ digits) ∧ signedValue (sign ++ digits) < 2 ^ 63 := by
  have noSign : ∀ c, c.isDigit = false → digits.head? ≠ some c := by
    intro c other isHead
    have digit := (isNumeral_iff.mp numeral).2 c (List.mem_of_mem_head? isHead)
    rw [other] at digit
    cases digit
  rcases signed with rfl | rfl
  · simp only [List.nil_append, parseSigned, signedValue, noSign '-' rfl,
      noSign '+' rfl, or_self, if_false, numeral, true_and, Nat.reduceSub]
    split <;> simp_all
  · simp only [List.cons_append, List.nil_append, parseSigned, signedValue,
      List.head?_cons, if_true, true_or, List.tail_cons, numeral, true_and,
      Nat.reduceSub]
    split <;> simp_all

/-- Every fraction the grammar spells is read as a float. -/
theorem parseF64_isSome {sign whole fraction : List Char}
    (signed : sign = [] ∨ sign = ['-']) (numeral : isNumeral whole = true)
    (numeral' : isNumeral fraction = true) :
    (parseF64 (sign ++ (whole ++ '.' :: fraction))).isSome := by
  have point : (whole ++ '.' :: fraction).takeWhile Char.isDigit = whole := by
    rw [List.takeWhile_append_of_pos (isNumeral_iff.mp numeral).2]
    simp
  have rest : (whole ++ '.' :: fraction).dropWhile Char.isDigit = '.' :: fraction := by
    rw [List.dropWhile_append_of_pos (isNumeral_iff.mp numeral).2]
    simp
  have noSign : (whole ++ '.' :: fraction).head? ≠ some '-' := by
    intro isHead
    cases whole with
    | nil => simp [isNumeral] at numeral
    | cons c whole =>
        simp only [List.cons_append, List.head?_cons, Option.some.injEq] at isHead
        have digit := (isNumeral_iff.mp numeral).2 c List.mem_cons_self
        rw [isHead] at digit
        exact absurd digit (by decide)
  rcases signed with rfl | rfl
  · simp only [parseF64, List.nil_append, noSign, if_false, point, rest]
    simp [numeral, numeral']
  · simp [parseF64, point, rest, numeral, numeral']

end GraphEngine
