import Debundle.Grammar.Rule

/-!
# Rows of the automaton

A state shifts some terminals, reduces by a rule before others, and goes on after a nonterminal.
A terminal that has both moves is shifted.
-/
namespace Debundle.Automaton

inductive Action where
  | shift (state : Nat)
  | reduce (rule : Nat)
  deriving DecidableEq

structure Row where
  shifts : List (Terminal × Nat)
  reduces : List (List Terminal × Nat)
  gotos : List (Nonterminal × Nat)

def Row.action? (row : Row) (t : Terminal) : Option Action :=
  match row.shifts.find? (·.1 = t) with
  | some move => some (.shift move.2)
  | none => (row.reduces.find? fun r => decide (t ∈ r.1)).map (.reduce ·.2)

def Row.goto? (row : Row) (n : Nonterminal) : Option Nat :=
  (row.gotos.find? (·.1 = n)).map Prod.snd

end Debundle.Automaton
