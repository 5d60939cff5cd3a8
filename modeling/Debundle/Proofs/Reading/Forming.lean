import Debundle.Proofs.Reading.Texts

/-!
# Derivations put together from their parts

`Forms s v tokens after` says that some tokens make up a derivation of the symbol `s`, that it
amounts to the value `v`, and that it is read where a token of the class `after` follows. A rule is
formed where its body is (`Forms.rule`), so derivations can be built up without being written down.
-/
namespace Debundle

open Automaton Derivation Build

/-- A derivation amounts to a value, lines apart. -/
def Derivation.Yields (d : Derivation) (v : Value) : Prop :=
  ∃ w first, value d = .ok (w, first) ∧ w.unplaced = v.unplaced

/-- Whether a rule is complete before a terminal: an `else` belongs to the `if` before it, a
semicolon to a `do` that has none, and a slash after a function may begin a regular expression. -/
def Rule.endsAt (r : Rule) (t : Terminal) : Bool :=
  match r.head with
  | .ifStatement => t ≠ .kwElse || r.body.contains (.terminal .kwElse)
  | .doStatement => t ≠ .semicolon || r.body.getLast? = some (.terminal .semicolon)
  | .functionBody => !isSlash t
  | _ => true

/-- Whether a rule of the grammar is complete before a terminal. -/
def Rule.isReadBefore (r : Rule) (t : Terminal) : Bool :=
  r ∈ Rule.all.toList && r.endsAt t

theorem Rule.isReadBefore_of_mem {r : Rule} {t : Terminal} (hr : r ∈ Rule.all.toList)
    (he : r.endsAt t = true) : r.isReadBefore t = true := by
  rw [isReadBefore, decide_eq_true hr, he, Bool.and_self]

theorem mayPrecede_of_endsAt {i : Nat} {r : Rule} {t : Terminal} (hr : Rule.all[i]? = some r)
    (h : r.endsAt t = true) : mayPrecede i t = true := by
  have rules : ∀ p ∈ Rule.all.toList.zipIdx,
      (extension? p.2 = none ∨ (p.1.head = .ifStatement ∧ p.1.body.contains (.terminal .kwElse) = false ∧
        extension? p.2 = some .kwElse) ∨
        (p.1.head = .doStatement ∧ p.1.body.getLast? ≠ some (.terminal .semicolon) ∧
          extension? p.2 = some .semicolon)) ∧
      (endsFunction p.2 = true → p.1.head = .functionBody) := by decide +kernel
  have hmem : (r, i) ∈ Rule.all.toList.zipIdx := by
    rw [List.mem_zipIdx_iff_getElem?, Array.getElem?_toList]
    exact hr
  obtain ⟨hext, hfun⟩ := rules _ hmem
  rw [mayPrecede, Bool.and_eq_true]
  constructor
  · obtain hnone | ⟨hhead, helse, hsome⟩ | ⟨hhead, hlast, hsome⟩ := hext
    · simp [hnone]
    · rw [Rule.endsAt, show r.head = .ifStatement from hhead] at h
      rw [hsome, bne_iff_ne]
      simp only [Bool.or_eq_true, decide_eq_true_eq, show r.body.contains _ = false from helse] at h
      exact fun heq => h.resolve_right Bool.false_ne_true (Option.some.inj heq).symm
    · rw [Rule.endsAt, show r.head = .doStatement from hhead] at h
      rw [hsome, bne_iff_ne]
      simp only [Bool.or_eq_true, decide_eq_true_eq] at h
      exact fun heq => h.resolve_right hlast (Option.some.inj heq).symm
  · by_cases he : endsFunction i = true
    · rw [Rule.endsAt, show r.head = .functionBody from hfun he] at h
      simpa [he] using h
    · simp [he]

theorem Derivation.firstClass_append (tokens more : List Token) (after : Terminal) :
    firstClass (tokens ++ more) after = firstClass tokens (firstClass more after) := by
  cases tokens <;> rfl

/-- Some tokens make up a derivation of a symbol with a value, to be read before a terminal. -/
def Forms (s : GrammarSymbol) (v : Value) (tokens : List Token) (after : Terminal) : Prop :=
  ∃ d, Derives s d ∧ d.Yields v ∧ d.leaves = tokens ∧ d.clear after = true

/-- The same for the parts of a rule. -/
inductive FormsAll : List GrammarSymbol → List Value → List Token → Terminal → Prop
  | nil (after : Terminal) : FormsAll [] [] [] after
  | cons {s : GrammarSymbol} {v : Value} {tokens : List Token} {ss : List GrammarSymbol}
      {vs : List Value} {more : List Token} {after : Terminal}
      (head : Forms s v tokens (firstClass more after)) (tail : FormsAll ss vs more after) :
      FormsAll (s :: ss) (v :: vs) (tokens ++ more) after

theorem Forms.single {s : GrammarSymbol} {v : Value} {tokens : List Token} {after : Terminal}
    (h : Forms s v tokens after) : FormsAll [s] [v] tokens after := by
  have := @FormsAll.cons s v tokens [] [] [] after h (.nil after)
  rwa [List.append_nil] at this

theorem FormsAll.exists_parts {ss : List GrammarSymbol} {vs : List Value} {tokens : List Token}
    {after : Terminal} (h : FormsAll ss vs tokens after) :
    ∃ ds, List.Forall₂ Derives ss ds ∧ List.Forall₂ Yields ds vs ∧ leavesAll ds = tokens ∧
      clearAll ds after = true := by
  induction h with
  | nil after => exact ⟨[], .nil, .nil, rfl, rfl⟩
  | cons head tail ih =>
    obtain ⟨d, hd, hv, hl, hc⟩ := head
    obtain ⟨ds, hds, hvs, hls, hcs⟩ := ih
    refine ⟨d :: ds, .cons hd hds, .cons hv hvs, by rw [leavesAll, hl, hls], ?_⟩
    rw [clearAll, hls, hc, hcs]
    rfl

theorem exists_values {ss : List GrammarSymbol} {parts : List Derivation} {vs : List Value}
    (hd : List.Forall₂ Derives ss parts) (hv : List.Forall₂ Yields parts vs) :
    ∃ ps, List.Forall₂ (fun d p => value d = .ok p) parts ps ∧
      (ps.map Prod.fst).map Value.unplaced = vs.map Value.unplaced ∧
      List.Forall₂ (fun s => Value.Looks (.ofSymbol s)) ss (ps.map Prod.fst) ∧
      List.Forall₂ (fun s => Value.Looks (.ofSymbol s)) ss vs := by
  induction hd generalizing vs with
  | nil =>
    obtain rfl := List.forall₂_nil_left_iff.1 hv
    exact ⟨[], .nil, rfl, .nil, .nil⟩
  | cons hd _ ih =>
    obtain ⟨v, vs, ⟨w, first, hw, hu⟩, hvs, rfl⟩ := List.forall₂_cons_left_iff.1 hv
    obtain ⟨ps, hps, hus, hlooks, hlooks'⟩ := ih hvs
    have hl := (has_value (T := fun _ => True) hd (fun _ _ => trivial) w first hw).looks
    exact ⟨(w, first) :: ps, .cons hw hps, by simpa [hu] using hus, .cons hl hlooks,
      .cons (hl.of_unplaced hu.symm) hlooks'⟩

theorem yields_node {i : Nat} {r : Rule} {parts : List Derivation} {vs : List Value} {v : Value}
    (hr : Rule.all[i]? = some r) (hd : List.Forall₂ Derives r.body parts)
    (hv : List.Forall₂ Yields parts vs) (ha : apply r.label none vs = .ok v) :
    Yields (.node i parts) v := by
  obtain ⟨ps, hps, hu, -, looks⟩ := exists_values hd hv
  obtain ⟨w, hw, hwu⟩ := (steady_of_mem hr).apply (ps.findSome? Prod.snd) looks hu ha
  exact ⟨w, _, (value_node_eq_ok_iff hr).2 ⟨ps, hps, rfl, hw⟩, hwu⟩

theorem apply_of_value {i : Nat} {r : Rule} {parts : List Derivation} {vs : List Value}
    {p : Value × Option Token} (hr : Rule.all[i]? = some r)
    (hd : List.Forall₂ Derives r.body parts) (hv : List.Forall₂ Yields parts vs)
    (hp : value (.node i parts) = .ok p) : ∃ v, apply r.label none vs = .ok v := by
  obtain ⟨ps, hps, hu, looks, -⟩ := exists_values hd hv
  obtain ⟨qs, hqs, -, ha⟩ := (value_node_eq_ok_iff hr).1 (show value _ = .ok (p.1, p.2) from hp)
  obtain rfl : qs = ps := by
    have := (values_eq_ok_iff.2 hqs).symm.trans (values_eq_ok_iff.2 hps)
    exact Except.ok.inj this
  obtain ⟨v, hv, -⟩ := (steady_of_mem hr).apply none looks hu.symm ha
  exact ⟨v, hv⟩

namespace Forms

variable {s : GrammarSymbol} {v : Value} {tokens : List Token} {after : Terminal}

theorem of_unplaced {w : Value} (h : Forms s v tokens after) (hw : w.unplaced = v.unplaced) :
    Forms s w tokens after := by
  obtain ⟨d, hd, ⟨u, first, hu, huv⟩, hl, hc⟩ := h
  exact ⟨d, hd, ⟨u, first, hu, huv.trans hw.symm⟩, hl, hc⟩

theorem leaf (a : Token) (ha : a.spellsKeyword = false) (after : Terminal) :
    Forms (.terminal a.terminal) (.token a) [a] after :=
  ⟨.leaf a, .leaf a, ⟨_, _, rfl, rfl⟩, rfl, by simp [clear, ha]⟩

theorem rule {n : Nonterminal} {ss : List GrammarSymbol} {vs : List Value} (label : Label)
    (h : FormsAll ss vs tokens after) (ha : apply label none vs = .ok v := by exact rfl)
    (hr : Rule.isReadBefore ⟨n, ss, label⟩ after = true := by rfl) :
    Forms (.nonterminal n) v tokens after := by
  obtain ⟨hr, he⟩ := Bool.and_eq_true_iff.1 hr
  obtain ⟨i, hi⟩ := Array.getElem?_of_mem (Array.mem_toList_iff.1 (of_decide_eq_true hr))
  obtain ⟨ds, hds, hvs, hl, hc⟩ := h.exists_parts
  refine ⟨.node i ds, .node hi hds, yields_node hi hds hvs ha, hl, ?_⟩
  rw [clear, hc, mayPrecede_of_endsAt hi he]
  simp

theorem pass {n m : Nonterminal} (h : Forms (.nonterminal n) v tokens after)
    (hr : Rule.isReadBefore ⟨m, [.nonterminal n], .pass⟩ after = true := by rfl) :
    Forms (.nonterminal m) v tokens after :=
  rule .pass h.single rfl hr

theorem propertyWord {r : Rule} (hr : r ∈ Rule.all.toList) (hb : r.body = [.terminal .name])
    (hh : r.head = .propertyName ∨ r.head = .propertyKey) {a : Token} (hn : a.terminal = .name)
    (ha : apply r.label none [.token a] = .ok v) : Forms (.nonterminal r.head) v [a] after := by
  have named : ∀ p ∈ Rule.all.toList.zipIdx, p.1.body = [.terminal .name] →
      p.1.head = .propertyName ∨ p.1.head = .propertyKey → namesProperty p.2 = true := by
    decide +kernel
  obtain ⟨i, hi⟩ := Array.getElem?_of_mem (Array.mem_toList_iff.1 hr)
  have hname : namesProperty i = true := by
    refine named (r, i) ?_ hb hh
    rw [List.mem_zipIdx_iff_getElem?, Array.getElem?_toList]
    exact hi
  have hds : List.Forall₂ Derives r.body [.leaf a] := by
    rw [hb, ← hn]
    exact .cons (.leaf a) .nil
  refine ⟨.node i [.leaf a], .node hi hds,
    yields_node hi hds (.cons ⟨_, _, rfl, rfl⟩ .nil) ha, rfl, ?_⟩
  rw [clear, hname, (of_namesProperty hi hname).2.2]
  rfl

end Forms

theorem FormsAll.token {tokens : List Token} {after : Terminal} {ss : List GrammarSymbol} {vs : List Value}
    (t : Terminal) (k : String) (h : FormsAll ss vs tokens after) (hk : (Token.of t k).spellsKeyword = false := by rfl) :
    FormsAll (.terminal t :: ss) (.token (.of t k) :: vs) (.of t k :: tokens) after :=
  .cons (.leaf (.of t k) hk _) h

/-- A text that is spelled by tokens which form a program is read to the tree of that program. -/
theorem parse_of_forms {t : Node} {tokens : List Token} {text : String}
    (h : Forms (.nonterminal .program) (.node t) tokens .finish)
    (hs : SpelledBy (maskHashbang text.toList) tokens) (file : String) :
    ∃ t', (parse file text).result = .ok t' ∧ t'.unplaced = t.unplaced := by
  obtain ⟨d, hd, ⟨w, first, hw, hu⟩, rfl, hc⟩ := h
  cases w with
  | node t' =>
    obtain ⟨t'', ht, hu'⟩ := parse_of_spelled hd hc hs (tree_eq_ok_iff.2 ⟨first, hw⟩) file
    exact ⟨t'', ht, hu'.trans (by simpa [Value.unplaced] using hu)⟩
  | token | word | list => simp [Value.unplaced] at hu

/-! ## Operators and their chains -/

/-- The nonterminals that stand for one token whose text matters. -/
def Nonterminal.isWord (n : Nonterminal) : Bool :=
  n ∈ [.assignmentOperator, .binaryOperator, .unaryOperator, .updateOperator]

theorem wordRule_mem : ∀ n ∈ [Nonterminal.assignmentOperator, .binaryOperator, .unaryOperator,
      .updateOperator], ∀ t ∈ n.words,
    (⟨n, [.terminal t], .word⟩ : Rule) ∈ Rule.all.toList ∧ t ≠ .name := by
  decide

theorem Forms.word {n : Nonterminal} (hn : n.isWord = true) {a : Token} (ha : a.terminal ∈ n.words)
    (after : Terminal) : Forms (.nonterminal n) (.word a.text) [a] after := by
  have hn := of_decide_eq_true hn
  obtain ⟨hmem, hname⟩ := wordRule_mem n hn _ ha
  refine Forms.rule .word (Forms.single (.leaf a ?_ after)) rfl (Rule.isReadBefore_of_mem hmem ?_)
  · simp [Token.spellsKeyword, hname]
  · simp only [List.mem_cons, List.not_mem_nil, or_false] at hn
    obtain rfl | rfl | rfl | rfl := hn <;> rfl

/-- The values of operators and the operands after them. -/
def Build.chainValues (ps : List (String × Node)) : List Value :=
  ps.flatMap fun p => [.word p.1, .node p.2]

@[simp] theorem Build.pairs_chainValues (ps : List (String × Node)) :
    pairs (chainValues ps) = ps := by
  induction ps with
  | nil => rfl
  | cons p ps ih => simpa [chainValues, pairs] using ih

/-- Some tokens are a chain: an operand, and then operators with operands after them. The first
operand is of a symbol of its own, since it may begin a statement. -/
inductive Chained (n : Nonterminal) (x : Node) :
    List (String × Node) → List Token → Terminal → Prop
  | operand {tokens : List Token} {after : Terminal}
      (forms : Forms (.nonterminal n) (.node x) tokens after) : Chained n x [] tokens after
  | step {ps : List (String × Node)} {tokens more : List Token} {a : Token} {y : Node}
      {after : Terminal} (chain : Chained n x ps tokens a.terminal)
      (operator : a.terminal ∈ Nonterminal.binaryOperator.words)
      (forms : Forms (.nonterminal .unary) (.node y) more after) :
      Chained n x (ps ++ [(a.text, y)]) (tokens ++ a :: more) after

namespace Chained

variable {n : Nonterminal} {x y : Node} {a : Token} {ps qs : List (String × Node)}
  {tokens more : List Token} {after : Terminal}

theorem append (h : Chained n x ps tokens a.terminal)
    (ha : a.terminal ∈ Nonterminal.binaryOperator.words) (h' : Chained .unary y qs more after) :
    Chained n x (ps ++ (a.text, y) :: qs) (tokens ++ a :: more) after := by
  induction h' with
  | operand forms => exact h.step ha forms
  | step chain operator forms ih =>
    have := ih.step operator forms
    simpa using this

theorem split (h : Chained n x ps tokens after) :
    (ps = [] ∧ Forms (.nonterminal n) (.node x) tokens after) ∨
      ∃ first rest, tokens = first ++ rest ∧
        Forms (.nonterminal n) (.node x) first (firstClass rest after) ∧
        Forms (.nonterminal .operations) (.list (chainValues ps)) rest after := by
  induction h with
  | operand forms => exact .inl ⟨rfl, forms⟩
  | @step ps tokens more a y after chain operator forms ih =>
    have hop : ∀ t, Forms (.nonterminal .binaryOperator) (.word a.text) [a] t :=
      fun t => .word rfl operator t
    obtain ⟨rfl, hx⟩ | ⟨first, rest, rfl, hx, hrest⟩ := ih
    · exact .inr ⟨tokens, a :: more, rfl, hx, .rule .gather (.cons (hop _) forms.single) rfl rfl⟩
    · refine .inr ⟨first, rest ++ a :: more, by simp, ?_, .rule .gather
        (.cons hrest (.cons (hop _) forms.single)) (by simp [apply.eq_def, chainValues]) rfl⟩
      rwa [firstClass_append]

theorem forms (h : Chained .unary x ps tokens after) :
    Forms (.nonterminal .binary) (.node (Chain.fold x ps)) tokens after := by
  obtain ⟨rfl, hx⟩ | ⟨first, rest, rfl, hx, hrest⟩ := h.split
  · exact hx.pass rfl
  · exact .rule .binary (.cons hx hrest.single) (by simp [apply.eq_def]) rfl

theorem formsLead (h : Chained .unaryLead x ps tokens after) :
    Forms (.nonterminal .binaryLead) (.node (Chain.fold x ps)) tokens after := by
  obtain ⟨rfl, hx⟩ | ⟨first, rest, rfl, hx, hrest⟩ := h.split
  · exact .rule .binary hx.single rfl rfl
  · exact .rule .binary (.cons hx hrest.single) (by simp [apply.eq_def]) rfl

end Chained

end Debundle
