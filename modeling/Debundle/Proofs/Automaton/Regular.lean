import Debundle.Proofs.Automaton.Table

/-!
# Moves that every state has

Facts about all rows of the table that are checked once: which states are entered from where, where
a program is complete (`entersOnce_of_row`), and which terminals never stand side by side
(`action?_of_barred`).
-/
namespace Debundle.Automaton

/-- All terminals. -/
def terminals : List Terminal :=
  .finish :: Terminal.order

theorem mem_terminals (t : Terminal) : t ∈ terminals := by
  cases t <;> decide

/-- A move, by way of `rowAt`. -/
def moveAt (state : Nat) (t : Terminal) : Option Action :=
  (rowAt state).bind (·.action? t)

theorem action?_eq_moveAt (state : Nat) (t : Terminal) : action? state t = moveAt state t :=
  action?_eq state t

/-- A move after a nonterminal, by way of `rowAt`. -/
def gotoAt (state : Nat) (n : Nonterminal) : Option Nat :=
  (rowAt state).bind (·.goto? n)

/-- No move enters the first state, only that of all statements enters the second one, and only the
first state leads to the last one. A program is complete only at the end of the text, which is never shifted. -/
def entersOnce (state : Nat) : Bool :=
  match rowAt state with
  | none => true
  | some row =>
    (row.moves.all fun m => m.2 != 0 && (m.2 != 2 || state = 0 && m.1 = .nonterminal .statements) &&
        (m.2 != acceptState || state = 0)) &&
      (row.reduces.all fun r => 1 < r.2 ||
        r.1 = [.finish] && ((r.2 = 0 && state = 2) || (r.2 = 1 && state = 0))) &&
      row.shifts.all (·.1 ≠ .finish)

/-- In this state statements are listed: a list of them begins, after which the terminal `t` has
no place, or it goes on. -/
def lists (state : Nat) (t : Terminal) : Bool :=
  gotoAt state .emptyStatement = some 6 &&
    match gotoAt state .statements with
    | some next => gotoAt state .statement = some 3 && (moveAt next t).isNone
    | none => gotoAt state .statement = some 74

/-- In this state there is nothing to do but to reduce by one rule. -/
def onlyReduces (state rule : Nat) : Bool :=
  (rowAt state).any fun row => row.shifts.isEmpty && row.reduces.all (·.2 = rule)

/-- Terminals that have no place right after a terminal. -/
def barred : Terminal → List Terminal
  | .slash => [.star, .starEqual, .semicolon]
  | .star => [.slash, .semicolon]
  | .kwReturn | .kwBreak | .kwContinue | .kwThrow => [.finish, .rbrace]
  | _ => []

def bars (state : Nat) : Bool :=
  match rowAt state with
  | none => true
  | some row => row.shifts.all fun m => (barred m.1).all fun t => (moveAt m.2 t).isNone

/-- What every state of the table has. -/
structure Regular (state : Nat) : Prop where
  entersOnce : entersOnce state = true
  bars : bars state = true

def isRegular (state : Nat) : Bool :=
  entersOnce state && bars state

theorem isRegular_all : (List.range 373).all isRegular = true := by decide +kernel

theorem regular (state : Nat) : Regular state := by
  have test := of_all_states isRegular_all
    (by simp +contextual [isRegular, Automaton.entersOnce, Automaton.bars]) state
  exact Regular.mk (Bool.and_eq_true_iff.1 test).1 (Bool.and_eq_true_iff.1 test).2

theorem onlyReduces_empty : onlyReduces 26 29 = true ∧ onlyReduces 6 4 = true ∧
    onlyReduces 3 202 = true ∧ onlyReduces 74 203 = true := by
  decide +kernel

/-! ## Where the first states are entered, and the rules for a program -/

theorem entersOnce_of_row {state : Nat} {row : Row} (h : rowAt state = some row) :
    (∀ m ∈ row.moves, m.2 ≠ 0 ∧ (m.2 = 2 → state = 0 ∧ m.1 = .nonterminal .statements) ∧
        (m.2 = acceptState → state = 0)) ∧
      (∀ r ∈ row.reduces, 1 < r.2 ∨ r.1 = [.finish] ∧ (r.2 = 0 ∧ state = 2 ∨ r.2 = 1 ∧ state = 0)) ∧
      ∀ s ∈ row.shifts, s.1 ≠ .finish := by
  have test := (regular state).entersOnce
  simp only [entersOnce, h, Bool.and_eq_true, List.all_eq_true, Bool.or_eq_true, decide_eq_true_eq,
    bne_iff_ne, ne_eq] at test
  refine ⟨fun m hm => ?_, test.1.2, test.2⟩
  obtain ⟨⟨h0, h2⟩, hacc⟩ := test.1.1 m hm
  exact ⟨h0, fun h => h2.resolve_left fun hn => hn h, fun h => hacc.resolve_left fun hn => hn h⟩

theorem ne_zero_of_next {p q : Nat} {s : GrammarSymbol} (h : next? p s = some q) : q ≠ 0 := by
  obtain ⟨row, hrow, hm⟩ := mem_moves_of_next? h
  exact ((entersOnce_of_row hrow).1 _ hm).1

theorem eq_zero_of_next_two {p : Nat} {s : GrammarSymbol} (h : next? p s = some 2) :
    p = 0 ∧ s = .nonterminal .statements := by
  obtain ⟨row, hrow, hm⟩ := mem_moves_of_next? h
  exact ((entersOnce_of_row hrow).1 _ hm).2.1 rfl

theorem shift_ne_finish {p q : Nat} (h : action? p .finish = some (.shift q)) : False := by
  rw [action?_eq, Option.bind_eq_some_iff] at h
  obtain ⟨row, hrow, h⟩ := h
  unfold Row.action? at h
  split at h
  · rename_i move hfind
    have ht := List.find?_some hfind
    rw [decide_eq_true_eq] at ht
    exact (entersOnce_of_row hrow).2.2 _ (List.mem_of_find?_eq_some hfind) ht
  · simp at h

/-! ## States with one rule -/

theorem eq_of_onlyReduces {state rule : Nat} {t : Terminal} {a : Action}
    (h : onlyReduces state rule = true) (ha : action? state t = some a) : a = .reduce rule := by
  rw [action?_eq] at ha
  obtain ⟨row, hrow, ha⟩ := Option.bind_eq_some_iff.1 ha
  rw [onlyReduces, hrow, Option.any_some, Bool.and_eq_true, List.isEmpty_iff,
    List.all_eq_true] at h
  unfold Row.action? at ha
  rw [h.1] at ha
  simp only [List.find?_nil] at ha
  obtain ⟨r, hr, rfl⟩ := Option.map_eq_some_iff.1 ha
  have := h.2 r (List.mem_of_find?_eq_some hr)
  rw [of_decide_eq_true this]

/-! ## Terminals that never stand side by side -/

theorem action?_of_barred {p q : Nat} {t u : Terminal} (h : action? p t = some (.shift q))
    (hu : u ∈ barred t) : action? q u = none := by
  obtain ⟨row, hrow, hm⟩ := mem_moves_of_next? (next?_terminal.2 h)
  have test := (regular p).bars
  simp only [bars, hrow, List.all_eq_true] at test
  have hs : (t, q) ∈ row.shifts := by simpa [Row.moves] using hm
  rw [action?_eq_moveAt]
  simpa using test _ hs u hu

end Debundle.Automaton
