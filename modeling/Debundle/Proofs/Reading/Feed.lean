import Debundle.Proofs.Automaton.Table

/-!
# Giving tokens to the automaton

The bound in `Derivation.feed` is never reached, so `feed` satisfies its own recursion equation
(`feed_eq`). A stack built by the automaton holds a derivation of every symbol that was read
(`Stacked`), so what the automaton accepts is derived from the grammar.
-/
namespace Debundle

/-- How many rules with one symbol can be reduced by in a row, counted from the last one. -/
def Nonterminal.rank : Nonterminal → Nat
  | .array => 12
  | .object | .primaryLead => 11
  | .functionExpression | .primary => 10
  | .member => 9
  | .memberLead | .construction | .call => 8
  | .constructionLead | .target | .callLead => 7
  | .update | .targetLead => 6
  | .unary | .updateLead => 5
  | .unaryLead | .binary => 4
  | .block | .varStatement | .emptyStatement | .expressionStatement | .ifStatement | .doStatement
  | .whileStatement | .forStatement | .forInStatement | .forInVarStatement | .continueStatement
  | .breakStatement | .returnStatement | .withStatement | .switchStatement | .labeledStatement
  | .throwStatement | .tryStatement | .debuggerStatement | .functionDeclaration
  | .binaryLead | .conditional => 3
  | .statement | .assignment | .conditionalLead => 2
  | .statements | .expression | .assignmentLead | .declarations | .caseClause
  | .defaultClause => 1
  | _ => 0

/-- Terminals stand above all nonterminals, far enough for a rule without symbols. -/
def GrammarSymbol.rank : GrammarSymbol → Nat
  | .terminal _ => 40
  | .nonterminal n => n.rank

theorem Nonterminal.rank_le (n : Nonterminal) : n.rank ≤ 12 := by
  cases n <;> decide

namespace Derivation

open Automaton

def rankAt (state : Nat) : Nat :=
  if state = acceptState then 0 else ((past state).head?.map GrammarSymbol.rank).getD 40

/-- Every reduction makes this smaller. -/
def weight (stack : List Frame) : Nat :=
  20 * stack.length + rankAt (topState stack)

@[simp] theorem topState_cons (frame : Frame) (stack : List Frame) :
    topState (frame :: stack) = frame.state := rfl

theorem rankAt_le (state : Nat) : rankAt state ≤ 40 := by
  unfold rankAt
  split_ifs
  · omega
  · cases (past state).head? with
    | none => simp
    | some s =>
      cases s with
      | terminal t => simp [GrammarSymbol.rank]
      | nonterminal n =>
        have := n.rank_le
        simp only [Option.map_some, Option.getD_some, GrammarSymbol.rank]
        omega

theorem rankAt_of_goto {p q : Nat} {n : Nonterminal} (h : goto? p n = some q) :
    rankAt q = n.rank := by
  by_cases hq : q = acceptState
  · subst hq
    cases eq_program_of_next (s := .nonterminal n) h
    rfl
  · obtain ⟨more, hp, -⟩ := past_of_next (s := .nonterminal n) h hq
    simp [rankAt, hq, hp, GrammarSymbol.rank]

def ranksFall (r : Rule) : Bool :=
  match r.body with
  | [s] => r.head.rank < s.rank
  | _ => true

theorem ranksFall_all : Rule.all.toList.all ranksFall = true := by decide

theorem rank_lt_of_unit {i : Nat} {r : Rule} (hr : Rule.all[i]? = some r) {s : GrammarSymbol}
    (hs : r.body = [s]) : r.head.rank < s.rank := by
  have := List.all_eq_true.1 ranksFall_all r (Array.mem_toList_iff.2 (Array.mem_of_getElem? hr))
  simpa [ranksFall, hs] using this

/-- The states in which a rule without symbols is reduced by were entered by a terminal. -/
def emptiesAfterTerminal (state : Nat) : Bool :=
  match rowAt state with
  | none => true
  | some row => row.reduces.all fun r =>
    match ruleAt r.2 with
    | none => true
    | some rule => !rule.body.isEmpty || rankAt state == 40

theorem emptiesAfterTerminal_all : (List.range 373).all emptiesAfterTerminal = true := by
  decide +kernel

theorem rankAt_of_empty {state i : Nat} {t : Terminal} {r : Rule}
    (h : action? state t = some (.reduce i)) (hr : Rule.all[i]? = some r) (hb : r.body = []) :
    rankAt state = 40 := by
  obtain ⟨row, hrow, ts, hmem, -⟩ := mem_reduces_of_action? h
  have test := of_all_states emptiesAfterTerminal_all
    (by simp +contextual [emptiesAfterTerminal]) state
  rw [emptiesAfterTerminal, hrow] at test
  have := List.all_eq_true.1 test _ hmem
  simpa [← rules_getElem?, hr, hb] using this

theorem reduce?_eq_some_iff {i : Nat} {s s' : List Frame} :
    reduce? i s = some s' ↔ ∃ r parts below q, Rule.all[i]? = some r ∧ s = parts ++ below ∧
      parts.length = r.body.length ∧ goto? (topState below) r.head = some q ∧
      s' = ⟨q, .node i (parts.reverse.map Frame.tree)⟩ :: below := by
  constructor
  · intro h
    unfold reduce? at h
    obtain ⟨r, hr, h⟩ := Option.bind_eq_some_iff.1 h
    obtain ⟨q, hq, h⟩ := Option.bind_eq_some_iff.1 h
    split_ifs at h with hlen
    cases h
    exact ⟨r, s.take r.body.length, s.drop r.body.length, q, hr, (List.take_append_drop _ s).symm,
      by simp [hlen], hq, rfl⟩
  · rintro ⟨r, parts, below, q, hr, rfl, hlen, hq, rfl⟩
    unfold reduce?
    simp [hr, ← hlen, hq]

theorem weight_lt_of_reduce? {t : Terminal} {i : Nat} {s s' : List Frame}
    (ha : action? (topState s) t = some (.reduce i)) (h : reduce? i s = some s') :
    weight s' < weight s := by
  obtain ⟨r, parts, below, q, hr, rfl, hlen, hq, rfl⟩ := reduce?_eq_some_iff.1 h
  obtain ⟨r', hr', hpast⟩ := past_of_reduce ha
  obtain rfl : r = r' := Option.some.inj (hr.symm.trans hr')
  have hrank := r.head.rank_le
  simp only [weight, topState_cons, List.length_cons, List.length_append, rankAt_of_goto hq]
  match hb : r.body with
  | [] =>
    rw [hb, List.length_nil, List.length_eq_zero_iff] at hlen
    subst hlen
    have := rankAt_of_empty ha hr hb
    simp only [List.length_nil, this]
    omega
  | [s] =>
    rw [hb] at hlen hpast
    obtain ⟨more, hm⟩ := hpast
    have hlt := rank_lt_of_unit hr hb
    have htop : rankAt (topState (parts ++ below)) = s.rank := by
      have hne : topState (parts ++ below) ≠ acceptState := by
        intro he
        rw [he, past_ends.2.1] at hm
        simp at hm
      simp [rankAt, hne, ← hm]
    simp only [List.length_singleton] at hlen
    omega
  | s :: s' :: rest =>
    rw [hb] at hlen
    simp only [List.length_cons] at hlen
    omega

/-! ## Feeding without a bound -/

theorem feedOnce_congr {again again' : List Frame → Feed} {token : Token} {stack : List Frame}
    (h : ∀ s, weight s < weight stack → again s = again' s) :
    feedOnce again token stack = feedOnce again' token stack := by
  unfold feedOnce
  split_ifs
  · rfl
  · generalize hact : action? (topState stack) token.terminal = act
    match act with
    | none => dsimp only
    | some (.shift next) => dsimp only
    | some (.reduce rule) =>
      dsimp only
      generalize hr : reduce? rule stack = reduced
      match reduced with
      | none => dsimp only
      | some s =>
        dsimp only
        exact h s (weight_lt_of_reduce? hact hr)

theorem feedUpTo_eq_of_weight {token : Token} {stack : List Frame} {n m : Nat}
    (hn : weight stack < n) (hm : weight stack < m) :
    feedUpTo token n stack = feedUpTo token m stack := by
  induction n generalizing stack m with
  | zero => omega
  | succ n ih =>
    obtain ⟨m, rfl⟩ : ∃ k, m = k + 1 := ⟨m - 1, by omega⟩
    rw [feedUpTo, feedUpTo]
    exact feedOnce_congr fun s hs => ih (by omega) (by omega)

theorem weight_lt_fuel (stack : List Frame) : weight stack < 100 * (stack.length + 2) := by
  have := rankAt_le (topState stack)
  unfold weight
  omega

theorem feed_eq (token : Token) (stack : List Frame) :
    feed token stack = feedOnce (feed token) token stack := by
  have hw := weight_lt_fuel stack
  have hf : 100 * (stack.length + 2) = 100 * (stack.length + 2) - 1 + 1 := by omega
  rw [feed, hf, feedUpTo]
  refine feedOnce_congr fun s hs => ?_
  rw [feed]
  exact feedUpTo_eq_of_weight (by omega) (weight_lt_fuel s)

/-- What giving a token does, one move at a time. -/
inductive Feeds (token : Token) : List Frame → Feed → Prop
  | accept {frame : Frame} {rest : List Frame} (top : frame.state = acceptState)
      (finish : token.terminal = .finish) : Feeds token (frame :: rest) (.accepted frame.tree)
  | refuse {s : List Frame} (open_ : ¬ (topState s = acceptState ∧ token.terminal = .finish))
      (none : action? (topState s) token.terminal = none) : Feeds token s (.refused s)
  | shift {s : List Frame} {q : Nat} (move : action? (topState s) token.terminal = some (.shift q)) :
      Feeds token s (.shifted (⟨q, .leaf token⟩ :: s))
  | reduce {s s' : List Frame} {i : Nat} {o : Feed}
      (move : action? (topState s) token.terminal = some (.reduce i))
      (reduced : reduce? i s = some s') (rest : Feeds token s' o) : Feeds token s o
  | stuck {s : List Frame} {i : Nat}
      (move : action? (topState s) token.terminal = some (.reduce i))
      (misfit : reduce? i s = none) : Feeds token s .broken

theorem action?_acceptState_finish : action? acceptState .finish = none := by
  rw [action?_eq]
  decide +kernel

theorem open_of_action? {token : Token} {s : List Frame} {a : Action}
    (h : action? (topState s) token.terminal = some a) :
    ¬ (topState s = acceptState ∧ token.terminal = .finish) := by
  rintro ⟨ht, hf⟩
  rw [ht, hf, action?_acceptState_finish] at h
  cases h

theorem feedOnce_refuse {again : List Frame → Feed} {token : Token} {s : List Frame}
    (open_ : ¬ (topState s = acceptState ∧ token.terminal = .finish))
    (h : action? (topState s) token.terminal = none) : feedOnce again token s = .refused s := by
  unfold feedOnce
  rw [if_neg (by simpa using open_), h]

theorem feedOnce_shift {again : List Frame → Feed} {token : Token} {s : List Frame} {q : Nat}
    (h : action? (topState s) token.terminal = some (.shift q)) :
    feedOnce again token s = .shifted (⟨q, .leaf token⟩ :: s) := by
  unfold feedOnce
  rw [if_neg (by simpa using open_of_action? h), h]

theorem feedOnce_reduce {again : List Frame → Feed} {token : Token} {s s' : List Frame} {i : Nat}
    (h : action? (topState s) token.terminal = some (.reduce i)) (hr : reduce? i s = some s') :
    feedOnce again token s = again s' := by
  unfold feedOnce
  rw [if_neg (by simpa using open_of_action? h), h]
  dsimp only
  rw [hr]

theorem feedOnce_stuck {again : List Frame → Feed} {token : Token} {s : List Frame} {i : Nat}
    (h : action? (topState s) token.terminal = some (.reduce i)) (hr : reduce? i s = none) :
    feedOnce again token s = .broken := by
  unfold feedOnce
  rw [if_neg (by simpa using open_of_action? h), h]
  dsimp only
  rw [hr]

theorem feed_eq_of_feeds {token : Token} {s : List Frame} {o : Feed} (h : Feeds token s o) :
    feed token s = o := by
  induction h with
  | accept top finish =>
    rw [feed_eq]
    unfold feedOnce
    rw [if_pos (by simp [top, finish])]
  | refuse open_ none => rw [feed_eq, feedOnce_refuse open_ none]
  | shift move => rw [feed_eq, feedOnce_shift move]
  | reduce move reduced rest ih => rw [feed_eq, feedOnce_reduce move reduced, ih]
  | stuck move misfit => rw [feed_eq, feedOnce_stuck move misfit]

theorem feeds_feed (token : Token) (s : List Frame) : Feeds token s (feed token s) := by
  induction hw : weight s using Nat.strongRecOn generalizing s with
  | _ w ih =>
    rw [feed_eq]
    by_cases hopen : topState s = acceptState ∧ token.terminal = .finish
    · obtain _ | ⟨frame, rest⟩ := s
      · exact absurd hopen.1 (by decide)
      · have top : frame.state = acceptState := hopen.1
        unfold feedOnce
        rw [if_pos (by simp [top, hopen.2])]
        exact .accept top hopen.2
    · rcases hact : action? (topState s) token.terminal with _ | q | i
      · rw [feedOnce_refuse hopen hact]
        exact .refuse hopen hact
      · rw [feedOnce_shift hact]
        exact .shift hact
      · rcases hr : reduce? i s with _ | s'
        · rw [feedOnce_stuck hact hr]
          exact .stuck hact hr
        · rw [feedOnce_reduce hact hr]
          exact .reduce hact hr (ih _ (hw ▸ weight_lt_of_reduce? hact hr) s' rfl)

end Derivation

end Debundle
