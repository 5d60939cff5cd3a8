import Debundle.Proofs.Reading.Forming

/-!
# Neighbours

Which terminals begin and end what a symbol derives, and which can stand next to each other
(`Derives.orderly`). The tables are coarse: they have one entry for all operands and one for all
statements, and are closed under the rules of the grammar.
-/
namespace Debundle

open Derivation

namespace Terminal

/-- What an expression begins with. -/
def operandStarts : List Terminal :=
  [.name, .number, .string, .regex, .kwThis, .kwNull, .kwTrue, .kwFalse, .kwNew, .kwFunction,
    .lparen, .lbracket, .lbrace, .kwDelete, .kwVoid, .kwTypeof, .plusPlus, .minusMinus, .plus,
    .minus, .tilde, .bang]

/-- What a statement begins with. -/
def statementStarts : List Terminal :=
  operandStarts ++ [.kwVar, .kwIf, .kwDo, .kwWhile, .kwFor, .kwContinue, .kwBreak, .kwReturn,
    .kwWith, .kwSwitch, .kwThrow, .kwTry, .kwDebugger, .semicolon]

/-- What an expression, or a list of some, ends with. -/
def operandEnds : List Terminal :=
  [.name, .number, .string, .regex, .kwThis, .kwNull, .kwTrue, .kwFalse, .rparen, .rbracket,
    .rbrace, .plusPlus, .minusMinus, .comma]

def statementEnds : List Terminal := [.semicolon, .rbrace, .rparen, .colon]

/-- Operators that only stand after an operand. -/
def infixes : List Terminal :=
  [.equal, .plusEqual, .minusEqual, .starEqual, .slashEqual, .percentEqual, .shlEqual, .shrEqual,
    .ushrEqual, .ampEqual, .caretEqual, .barEqual, .barBar, .ampAmp, .bar, .caret, .amp,
    .equalEqual, .bangEqual, .equalEqualEqual, .bangEqualEqual, .less, .greater, .lessEqual,
    .greaterEqual, .shl, .shr, .ushr, .star, .slash, .percent]

/-- Pairs of neighbours that the grammar does not have: a word other than an operator after a
regular expression, a digit after a dot, the end of a block after a restricted word, and an
operator where an operand has to be. -/
def meets (a b : Terminal) : Bool :=
  match a with
  | .regex => b ≠ .name && (!b.isKeyword || b = .kwIn || b = .kwInstanceof)
  | .dot => b ≠ .number
  | .kwReturn | .kwBreak | .kwContinue | .kwThrow => b ≠ .rbrace
  | .equal | .equalEqual | .bang | .bangEqual | .less | .shl | .greater | .shr | .ushr | .plus
  | .minus | .star | .slash | .percent | .amp | .bar | .caret => b ∉ infixes
  | _ => true

end Terminal

open Terminal

/-- The nonterminals that derive the empty text. -/
def Nonterminal.isNullable (n : Nonterminal) : Bool :=
  n ∈ [.program, .parameters, .element]

def Nonterminal.starts : Nonterminal → List Terminal
  | .assignmentOperator => words .assignmentOperator
  | .binaryOperator | .operations => words .binaryOperator
  | .unaryOperator => words .unaryOperator
  | .updateOperator => words .updateOperator
  | .arguments => [.lparen]
  | .block | .functionBody => [.lbrace]
  | .declarations => [.kwVar]
  | .forInit => .kwVar :: operandStarts
  | .catchClause => [.kwCatch]
  | .finallyClause => [.kwFinally]
  | .caseClause | .defaultClause | .clauses => [.kwCase, .kwDefault]
  | .declaration | .parameters | .propertyName => [.name]
  | .property | .propertyKey => [.name, .number, .string]
  | .moreDeclarations | .moreParameters | .moreArguments | .moreElements | .moreProperties =>
    [.comma]
  | .functionExpression | .expression | .expressionLead | .assignment | .assignmentLead
  | .conditional | .conditionalLead | .binary | .binaryLead | .unary | .unaryLead | .update
  | .updateLead | .target | .targetLead | .construction | .constructionLead | .member
  | .memberLead | .call | .callLead | .primary | .primaryLead | .array | .element | .object =>
    operandStarts
  | _ => statementStarts

def Nonterminal.ends : Nonterminal → List Terminal
  | .assignmentOperator => words .assignmentOperator
  | .binaryOperator => words .binaryOperator
  | .unaryOperator => words .unaryOperator
  | .updateOperator => words .updateOperator
  | .block | .functionBody => [.rbrace]
  | .program | .statement | .varStatement | .emptyStatement | .expressionStatement
  | .ifStatement | .doStatement | .whileStatement | .forStatement | .forInStatement
  | .forInVarStatement | .continueStatement | .breakStatement | .returnStatement | .withStatement
  | .switchStatement | .caseClause | .defaultClause | .labeledStatement | .throwStatement
  | .tryStatement | .catchClause | .finallyClause | .debuggerStatement | .functionDeclaration
  | .statements | .clauses => statementEnds
  | _ => operandEnds

namespace GrammarSymbol

def isNullable : GrammarSymbol → Bool
  | .terminal _ => false
  | .nonterminal n => n.isNullable

def starts : GrammarSymbol → List Terminal
  | .terminal t => [t]
  | .nonterminal n => n.starts

def ends : GrammarSymbol → List Terminal
  | .terminal t => [t]
  | .nonterminal n => n.ends

/-- What a list of symbols begins with. -/
def firsts : List GrammarSymbol → List Terminal
  | [] => []
  | s :: ss => s.starts ++ if s.isNullable then firsts ss else []

def lasts : List GrammarSymbol → List Terminal
  | [] => []
  | s :: ss => (if ss.all isNullable then s.ends else []) ++ lasts ss

/-- Whether the ends of each symbol can meet what comes after it. -/
def isOrderly : List GrammarSymbol → Bool
  | [] => true
  | s :: ss => (s.ends.all fun a => (firsts ss).all (meets a)) && isOrderly ss

end GrammarSymbol

open GrammarSymbol

theorem rules_orderly : ∀ r ∈ Rule.all.toList,
    isOrderly r.body = true ∧ (∀ t ∈ firsts r.body, t ∈ r.head.starts) ∧
      (∀ t ∈ lasts r.body, t ∈ r.head.ends) ∧
      (r.body.all isNullable = true → r.head.isNullable = true) := by
  decide +kernel

/-- Tokens begin and end as some symbols do, and neighbours can meet. -/
structure Orderly (first last : List Terminal) (nullable : Bool) (tokens : List Token) : Prop where
  first : ∀ a ∈ tokens.head?, a.terminal ∈ first
  last : ∀ a ∈ tokens.getLast?, a.terminal ∈ last
  nonempty : tokens = [] → nullable = true
  chain : tokens.IsChain fun a b => meets a.terminal b.terminal = true

theorem orderly_nil : Orderly [] [] true [] where
  first := nofun
  last := nofun
  nonempty _ := rfl
  chain := .nil

theorem Orderly.cons {s : GrammarSymbol} {ss : List GrammarSymbol} {tokens more : List Token}
    (h : Orderly s.starts s.ends s.isNullable tokens)
    (hs : Orderly (firsts ss) (lasts ss) (ss.all isNullable) more)
    (hmeets : ∀ a ∈ s.ends, ∀ b ∈ firsts ss, meets a b = true) :
    Orderly (firsts (s :: ss)) (lasts (s :: ss)) ((s :: ss).all isNullable) (tokens ++ more) where
  first a ha := by
    rw [firsts, List.mem_append]
    obtain _ | ⟨b, tokens⟩ := tokens
    · rw [h.nonempty rfl, if_pos rfl]
      exact .inr (hs.first a ha)
    · exact .inl (h.first a ha)
  last a ha := by
    rw [lasts, List.mem_append]
    obtain rfl | hne := eq_or_ne more []
    · rw [hs.nonempty rfl, if_pos rfl]
      rw [List.append_nil] at ha
      exact .inl (h.last a ha)
    · rw [List.getLast?_append_of_ne_nil _ hne] at ha
      exact .inr (hs.last a ha)
  nonempty hnil := by
    obtain ⟨ht, hm⟩ := List.append_eq_nil_iff.1 hnil
    rw [List.all_cons, h.nonempty ht, hs.nonempty hm]
    rfl
  chain := List.isChain_append.2 ⟨h.chain, hs.chain, fun a ha b hb =>
    hmeets _ (h.last a ha) _ (hs.first b hb)⟩

theorem orderly_leavesAll {ss : List GrammarSymbol} {ds : List Derivation}
    (h : List.Forall₂ (fun s d => Orderly s.starts s.ends s.isNullable d.leaves) ss ds)
    (ho : isOrderly ss = true) :
    Orderly (firsts ss) (lasts ss) (ss.all isNullable) (leavesAll ds) := by
  induction h with
  | nil => exact orderly_nil
  | cons hd _ ih =>
    rw [isOrderly, Bool.and_eq_true] at ho
    rw [leavesAll]
    refine hd.cons (ih ho.2) fun a ha b hb => ?_
    exact List.all_eq_true.1 (List.all_eq_true.1 ho.1 a ha) b hb

/-- The tokens of a derivation begin and end as its symbol does, and neighbours can meet. -/
theorem Derives.orderly {s : GrammarSymbol} {d : Derivation} (h : Derives s d) :
    Orderly s.starts s.ends s.isNullable d.leaves := by
  refine Derives.induct (motive := fun s d => Orderly s.starts s.ends s.isNullable d.leaves)
    (fun a => ?_) (fun {i r parts} hr _ ih => ?_) h
  · rw [leaves]
    exact ⟨by simp [starts], by simp [ends], by simp, .singleton _⟩
  · obtain ⟨ho, hfirst, hlast, hnull⟩ :=
      rules_orderly r (Array.mem_toList_iff.2 (Array.mem_of_getElem? hr))
    have := orderly_leavesAll ih ho
    rw [leaves]
    exact ⟨fun a ha => hfirst _ (this.first a ha), fun a ha => hlast _ (this.last a ha),
      fun hnil => hnull (this.nonempty hnil), this.chain⟩

theorem Forms.orderly {s : GrammarSymbol} {v : Build.Value} {tokens : List Token} {after : Terminal}
    (h : Forms s v tokens after) : Orderly s.starts s.ends s.isNullable tokens := by
  obtain ⟨d, hd, -, rfl, -⟩ := h
  exact hd.orderly

end Debundle
