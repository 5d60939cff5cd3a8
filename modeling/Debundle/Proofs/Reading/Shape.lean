import Debundle.Proofs.Reading.Apply
import Debundle.Proofs.Tree.Shape

/-!
# Trees of program texts are shaped

Every symbol of the grammar has a sense: the kind of value that its derivations amount to. Each
rule makes a value of the sense of its head from values of the senses of its parts, so the tree of
a program text is a shaped program (`shaped_of_parse`). Its names, operators and literals are told
by tokens of the right classes (`madeOf_tree`).
-/
namespace Debundle

/-- Names are not resolved, and are shown as they are. -/
def Form.IsRead : Form Node → Prop
  | .symbol s => s.home = none ∧ s.shownAs = none
  | _ => True

/-- A tree as it is read from a text. -/
abbrev ReadAs : Category → Node → Prop :=
  Shaped Form.IsRead

/-- The classes of the tokens for which a nonterminal stands, if all its rules are single words. -/
def Nonterminal.words : Nonterminal → List Terminal
  | .assignmentOperator =>
    [.equal, .plusEqual, .minusEqual, .starEqual, .slashEqual, .percentEqual, .shlEqual, .shrEqual,
      .ushrEqual, .ampEqual, .caretEqual, .barEqual]
  | .binaryOperator =>
    [.barBar, .ampAmp, .bar, .caret, .amp, .equalEqual, .bangEqual, .equalEqualEqual,
      .bangEqualEqual, .less, .greater, .lessEqual, .greaterEqual, .kwInstanceof, .kwIn, .shl, .shr,
      .ushr, .plus, .minus, .star, .slash, .percent]
  | .unaryOperator =>
    [.kwDelete, .kwVoid, .kwTypeof, .plusPlus, .minusMinus, .plus, .minus, .tilde, .bang]
  | .updateOperator => [.plusPlus, .minusMinus]
  | .propertyName => [.name]
  | _ => []

section Told

variable (T : Token → Prop)

/-- A token with the property `T`, of one of some classes, has this text. -/
def Tells (classes : List Terminal) (text : String) : Prop :=
  ∃ a : Token, T a ∧ a.terminal ∈ classes ∧ a.text = text

/-- The texts of a form are those of tokens with the property `T`, or the values of such tokens. -/
def Form.Told : Form Node → Prop
  | .labeled label _ => Tells T [.name] label
  | .jump _ label => ∀ l ∈ label, Tells T [.name] l
  | .declare kind _ => Tells T [.kwVar] kind
  | .assign operator .. => Tells T Nonterminal.assignmentOperator.words operator
  | .binary operator .. => Tells T Nonterminal.binaryOperator.words operator
  | .unary operator _ => Tells T Nonterminal.unaryOperator.words operator
  | .update operator _ => Tells T Nonterminal.updateOperator.words operator
  | .dot _ key => Tells T [.name] key
  | .symbol s => Tells T [.name] s.name
  | .regexp source => Tells T [.regex] source
  | .string value => ∃ a, T a ∧ a.terminal = .string ∧ Literal.string a.text = .ok value
  | .number value => ∃ a, T a ∧ a.terminal = .number ∧ Literal.number a.text = .ok value
  | .property _ key _ => ∃ a place, T a ∧ a.terminal ∈ [.name, .string, .number] ∧
      Build.propertyKey place a = .ok key
  | _ => True

/-- A tree that is made of tokens with the property `T`. -/
abbrev MadeOf : Category → Node → Prop :=
  Shaped fun form => form.IsRead ∧ form.Told T

end Told

namespace Build

/-- What the value of a symbol is. -/
inductive Sense where
  | token (t : Terminal)
  | node (c : Category)
  | nodes (c : Category)
  /-- The text of a token of some classes. -/
  | word (classes : List Terminal)
  /-- A list of names. -/
  | names
  /-- The token of a property key. -/
  | key
  /-- Operators with the operands after them. -/
  | operations
  deriving DecidableEq

@[simp] def Sense.ofNonterminal : Nonterminal → Sense
  | .program => .node .program
  | .statement | .block | .varStatement | .emptyStatement | .expressionStatement | .ifStatement
  | .doStatement | .whileStatement | .forStatement | .forInStatement | .forInVarStatement
  | .continueStatement | .breakStatement | .returnStatement | .withStatement | .switchStatement
  | .labeledStatement | .throwStatement | .tryStatement | .debuggerStatement
  | .functionDeclaration => .node .statement
  | .declarations => .node .declaration
  | .declaration => .node .definition
  | .forInit => .node .initial
  | .caseClause | .defaultClause => .node .branch
  | .catchClause => .node .handler
  | .finallyClause => .node .finalizer
  | .parameters | .moreParameters => .names
  | .functionBody | .statements => .nodes .statement
  | .assignmentOperator => .word Nonterminal.assignmentOperator.words
  | .binaryOperator => .word Nonterminal.binaryOperator.words
  | .unaryOperator => .word Nonterminal.unaryOperator.words
  | .updateOperator => .word Nonterminal.updateOperator.words
  | .propertyName => .word Nonterminal.propertyName.words
  | .arguments | .moreArguments => .nodes .expression
  | .element => .node .element
  | .property => .node .property
  | .propertyKey => .key
  | .moreDeclarations => .nodes .definition
  | .clauses => .nodes .branch
  | .operations => .operations
  | .moreElements => .nodes .element
  | .moreProperties => .nodes .property
  | _ => .node .expression

def Sense.ofSymbol : GrammarSymbol → Sense
  | .terminal t => .token t
  | .nonterminal n => .ofNonterminal n

section Has

variable (T : Token → Prop)

/-- Operators alternate with shaped operands. -/
inductive Alternates : List Value → Prop
  | nil : Alternates []
  | cons {operator : String} {operand : Node} {rest : List Value}
      (told : Tells T Nonterminal.binaryOperator.words operator)
      (shaped : MadeOf T .expression operand) (alternates : Alternates rest) :
      Alternates (.word operator :: .node operand :: rest)

/-- A value is of a sense. -/
def Value.Has : Sense → Value → Prop
  | .token t, v => ∃ token : Token, v = .token token ∧ token.terminal = t ∧ T token
  | .node c, v => ∃ n, v = .node n ∧ MadeOf T c n
  | .nodes c, v => ∃ ns : List Node, v = .list (ns.map .node) ∧ ∀ n ∈ ns, MadeOf T c n
  | .word classes, v => ∃ text, v = .word text ∧ Tells T classes text
  | .names, v => ∃ tokens : List Token, v = .list (tokens.map .token) ∧
      ∀ t ∈ tokens, t.terminal = .name ∧ T t
  | .key, v => ∃ token : Token, v = .token token ∧ token.terminal ∈ [.name, .string, .number] ∧
      T token
  | .operations, v => ∃ vs, v = .list vs ∧ Alternates T vs

/-- A rule makes a value of the sense of its head. -/
def Sensible (r : Rule) : Prop :=
  ∀ (first : Option Token) (vs : List Value) (v : Value),
    List.Forall₂ (fun s => Value.Has T (.ofSymbol s)) r.body vs → apply r.label first vs = .ok v →
    v.Has T (.ofNonterminal r.head)

end Has

variable {T : Token → Prop}

/-! ## Rules that pass on what they find -/

/-- The senses that also have everything of a sense. -/
def Sense.covers : Sense → Sense → Bool
  | .node c, .node d => c.covers d
  | .key, .token t => t ∈ [.name, .string, .number]
  | s, t => s = t

theorem Value.Has.cover {s t : Sense} {v : Value} (h : v.Has T t) (hs : s.covers t = true) :
    v.Has T s := by
  unfold Sense.covers at hs
  split at hs
  · obtain ⟨n, rfl, hn⟩ := h
    exact ⟨n, rfl, hn.cover hs⟩
  · obtain ⟨token, rfl, rfl, ht⟩ := h
    exact ⟨token, rfl, by simpa using hs, ht⟩
  · rwa [of_decide_eq_true hs]

/-- Whether the items of a value of the second sense may stand in a list of the first. -/
def Sense.gathers : Sense → Sense → Bool
  | .nodes c, .node d => c.covers d
  | .nodes c, .nodes d => c = d
  | .names, .names => true
  | .names, .token t => isMark t || t = .name
  | _, .token t => isMark t
  | _, _ => false

theorem items_nodes {c : Category} {s : Sense} {v : Value} (h : v.Has T s)
    (hs : (Sense.nodes c).gathers s = true) :
    ∃ ns : List Node, v.items = ns.map .node ∧ ∀ n ∈ ns, MadeOf T c n := by
  cases s with
  | token t =>
    obtain ⟨token, rfl, rfl, -⟩ := h
    have hm : isMark token.terminal = true := hs
    exact ⟨[], by simp [items_token, hm]⟩
  | node d =>
    obtain ⟨n, rfl, hn⟩ := h
    exact ⟨[n], rfl, by simpa using hn.cover hs⟩
  | nodes d =>
    obtain ⟨ns, rfl, hns⟩ := h
    obtain rfl : c = d := of_decide_eq_true hs
    exact ⟨ns, rfl, hns⟩
  | word | names | key | operations => cases hs

theorem items_names {s : Sense} {v : Value} (h : v.Has T s)
    (hs : Sense.names.gathers s = true) :
    ∃ ts : List Token, v.items = ts.map .token ∧ ∀ t ∈ ts, t.terminal = .name ∧ T t := by
  cases s with
  | token t =>
    obtain ⟨token, rfl, rfl, ht⟩ := h
    by_cases hm : isMark token.terminal = true
    · exact ⟨[], by simp [items_token, hm]⟩
    · refine ⟨[token], by simp [items_token, hm], ?_⟩
      simpa [Sense.gathers, hm, ht] using hs
  | names =>
    obtain ⟨ts, rfl, hts⟩ := h
    exact ⟨ts, rfl, hts⟩
  | node | nodes | word | key | operations => cases hs

/-- Whether the parts of a rule can be gathered to a list of a sense. -/
def Sense.gathersAll (s : Sense) (body : List GrammarSymbol) : Bool :=
  match s with
  | .nodes _ | .names => body.all fun x => s.gathers (.ofSymbol x)
  | _ => false

theorem has_gather {s : Sense} {body : List GrammarSymbol} {vs : List Value}
    (hs : s.gathersAll body = true)
    (h : List.Forall₂ (fun x => Value.Has T (.ofSymbol x)) body vs) :
    (Value.list (gather vs)).Has T s := by
  cases s with
  | nodes c =>
    rw [Sense.gathersAll, List.all_eq_true] at hs
    induction h with
    | nil => exact ⟨[], rfl, by simp⟩
    | cons hv _ ih =>
      obtain ⟨ns, hns, hc⟩ := items_nodes hv (hs _ (by simp))
      obtain ⟨ms, hms, hd⟩ := ih fun x hx => hs x (by simp [hx])
      refine ⟨ns ++ ms, ?_, by simpa [or_imp, forall_and] using ⟨hc, hd⟩⟩
      rw [gather_cons, hns, Value.list.inj hms, List.map_append]
  | names =>
    rw [Sense.gathersAll, List.all_eq_true] at hs
    induction h with
    | nil => exact ⟨[], rfl, by simp⟩
    | cons hv _ ih =>
      obtain ⟨ts, hts, hc⟩ := items_names hv (hs _ (by simp))
      obtain ⟨us, hus, hd⟩ := ih fun x hx => hs x (by simp [hx])
      refine ⟨ts ++ us, ?_, fun t ht => (List.mem_append.1 ht).elim (hc t) (hd t)⟩
      rw [gather_cons, hts, Value.list.inj hus, List.map_append]
  | token | node | word | key | operations => cases hs

/-- Rules that only pass on, gather or name what they find. -/
def isPlain (r : Rule) : Bool :=
  let sense := Sense.ofNonterminal r.head
  match r.label, r.body with
  | .pass, [s] => sense.covers (.ofSymbol s)
  | .word, [.terminal t] => sense = .word r.head.words && t ∈ r.head.words
  | .gather, body => sense.gathersAll body
  | .parameters, body => sense.gathersAll body
  | _, _ => false

theorem sensible_of_isPlain {r : Rule} (h : isPlain r = true) : Sensible T r := by
  intro first vs v hvs hv
  obtain ⟨head, body, label⟩ := r
  unfold isPlain at h
  dsimp only at h hvs hv ⊢
  split at h
  · rename_i s
    obtain ⟨w, rfl, hw⟩ : ∃ w, vs = [w] ∧ w.Has T (.ofSymbol s) := by
      simpa [List.forall₂_cons_left_iff, and_comm] using hvs
    cases hv
    exact hw.cover h
  · rename_i t
    obtain ⟨w, rfl, token, rfl, rfl, ht⟩ : ∃ w, vs = [w] ∧ w.Has T (.token t) := by
      simpa [List.forall₂_cons_left_iff, and_comm, Sense.ofSymbol] using hvs
    cases hv
    rw [Bool.and_eq_true, decide_eq_true_eq, decide_eq_true_eq] at h
    rw [h.1]
    exact ⟨token.text, rfl, token, ht, h.2, rfl⟩
  · cases hv
    exact has_gather h hvs
  · cases hv
    exact has_gather h hvs
  · cases h

/-! ## Rules that make a node -/

section Given

variable (T)

/-- What holds of all values of a sense. -/
def Sense.Given (s : Sense) (P : Value → Prop) : Prop :=
  match s with
  | .token t => ∀ a : Token, a.terminal = t → T a → P (.token a)
  | .node c => ∀ n, MadeOf T c n → P (.node n)
  | .nodes c => ∀ ns : List Node, (∀ n ∈ ns, MadeOf T c n) → P (.list (ns.map .node))
  | .word classes => ∀ text, Tells T classes text → P (.word text)
  | .names => ∀ ts : List Token, (∀ t ∈ ts, t.terminal = .name ∧ T t) → P (.list (ts.map .token))
  | .key => ∀ a : Token, a.terminal ∈ [.name, .string, .number] → T a → P (.token a)
  | .operations => ∀ vs, Alternates T vs → P (.list vs)

/-- What holds of all lists of values of the senses of some symbols. -/
def GivenAll : List GrammarSymbol → (List Value → Prop) → Prop
  | [], P => P []
  | s :: body, P => (Sense.ofSymbol s).Given T fun v => GivenAll body fun vs => P (v :: vs)

end Given

theorem Sense.Given.of_has {s : Sense} {P : Value → Prop} {v : Value} (h : s.Given T P)
    (hv : v.Has T s) : P v := by
  cases s with
  | token t | key =>
    obtain ⟨a, rfl, ht, ha⟩ := hv
    exact h a ht ha
  | node c | nodes c | word classes | names | operations =>
    obtain ⟨x, rfl, hx⟩ := hv
    exact h x hx

theorem GivenAll.of_has {body : List GrammarSymbol} {P : List Value → Prop} {vs : List Value}
    (h : GivenAll T body P) (hvs : List.Forall₂ (fun s => Value.Has T (.ofSymbol s)) body vs) :
    P vs := by
  induction hvs generalizing P with
  | nil => exact h
  | cons hv _ ih => exact ih (Sense.Given.of_has h hv)

/-- A rule is sensible if it is for all values that its parts can have. -/
theorem sensible_of_givenAll {r : Rule}
    (h : ∀ (first : Option Token) (v : Value), GivenAll T r.body fun vs =>
      apply r.label first vs = .ok v → v.Has T (.ofNonterminal r.head)) : Sensible T r :=
  fun first _ v hvs => (h first v).of_has hvs

theorem madeOf_symbol (role : Role) {t : Token} (hn : t.terminal = .name) (ht : T t) :
    MadeOf T (.name role) (symbol role t) :=
  .mk (by simp [Form.isOf]) ⟨⟨rfl, rfl⟩, t, ht, by simp [hn], rfl⟩ (by simp [Form.parts])

theorem madeOf_blockBody {n : Node} (h : MadeOf T .statement n) {m : Node} (hm : m ∈ blockBody n) :
    MadeOf T .statement m := by
  unfold blockBody at hm
  split at hm
  · exact h.part (List.mem_map_of_mem hm)
  · simp at hm

theorem has_node {c : Category} {line : Option Nat} {form : Form Node}
    (fits : form.isOf c = true) (own : form.IsRead) (told : form.Told T)
    (parts : ∀ p ∈ form.parts c, MadeOf T p.1 p.2) :
    ∃ n, Value.node (.mk line form) = .node n ∧ MadeOf T c n :=
  ⟨_, rfl, .mk fits ⟨own, told⟩ parts⟩

theorem sensible_statementRules : ∀ r ∈ Rule.statementRules, Sensible T r := by
  have program : ∀ body : List GrammarSymbol, (Sense.nodes .statement).gathersAll body = true →
      Sensible T ⟨.program, body, .program⟩ := by
    intro body hb first vs v hvs hv
    obtain ⟨ns, hns, hs⟩ := has_gather hb hvs
    rw [apply.eq_def] at hv
    dsimp only at hv
    rw [nodesOf, Value.list.inj hns, nodes_map_node] at hv
    cases hv
    exact ⟨_, rfl, .mk rfl ⟨trivial, trivial⟩ (by simpa [Form.parts, Form.many] using hs)⟩
  have plain : ∀ r ∈ Rule.statementRules.drop 2, isPlain r = true := by decide
  intro r hr
  obtain rfl | rfl | hr : r = _ ∨ r = _ ∨ r ∈ Rule.statementRules.drop 2 := by
    simpa [Rule.statementRules] using hr
  · exact program _ rfl
  · exact program _ rfl
  · exact sensible_of_isPlain (plain r hr)

theorem sensible_plainRules : ∀ r ∈ Rule.plainRules, Sensible T r := by
  unfold Rule.plainRules
  simp only [List.forall_mem_cons]
  refine ⟨?_, ?_, ?_, ?_, ?_, ?_, ?_, ?_, ?_, List.forall_mem_nil _⟩ <;>
    refine sensible_of_givenAll fun first v => ?_
  all_goals
    dsimp only [GivenAll, Sense.Given, Sense.ofSymbol, Sense.ofNonterminal, Rule.t, Rule.n]
    intros
    rename_i hv
    simp only [apply.eq_def, nodesOf_nil, nodesOf_token, nodesOf_node, nodesOf_list, nodes_map_node] at hv
    cases hv
  case refine_3 => exact ⟨_, rfl, Shaped.cover ‹_› rfl⟩
  case refine_4 | refine_5 =>
    exact has_node rfl trivial ⟨_, ‹_›, by simpa, rfl⟩ (by simp_all [Form.parts, Form.many])
  all_goals
    exact has_node rfl trivial trivial
      (by simp_all [Form.parts, Form.many, Form.maybe, madeOf_symbol])

theorem madeOf_pattern {kind t : Token} (hk : kind.terminal = .kwVar) (hT : T kind)
    (hn : t.terminal = .name) (ht : T t) :
    MadeOf T .pattern (.mk kind.line (.declare kind.text
      [.mk t.line (.definition (symbol .variable t) none)])) := by
  refine .mk rfl ⟨trivial, kind, hT, by simp [hk], rfl⟩ ?_
  simp only [Form.parts, Form.many, List.map_cons, List.map_nil, List.forall_mem_cons, if_true]
  refine ⟨.mk rfl ⟨trivial, trivial⟩ ?_, by simp⟩
  simpa [Form.parts, Form.maybe] using madeOf_symbol .variable hn ht

theorem has_forIn {first : Option Token} {v : Value} {n body : Node} (hn : MadeOf T .expression n)
    (hb : MadeOf T .statement body)
    (h : (match [n, body], first with
      | [.mk _ (.binary "in" left right), body], _ => .ok (.node (.mk (first.map Token.line) (.forIn left right body)))
      | _, some t => .error (.forHeader t.line t.column)
      | _, none => .error .misfit : Result Value) = .ok v) :
    ∃ n, v = .node n ∧ MadeOf T .statement n := by
  split at h
  · rename_i line left right body' heq
    cases h
    cases heq
    have hl : MadeOf T .pattern left := (hn.part (p := (.expression, left)) (.head _)).cover rfl
    have hr : MadeOf T .expression right := hn.part (p := (.expression, right)) (.tail _ (.head _))
    exact has_node rfl trivial trivial (by simp_all [Form.parts])
  · cases h
  · cases h

theorem sensible_controlRules : ∀ r ∈ Rule.controlRules, Sensible T r := by
  unfold Rule.controlRules
  simp only [List.forall_mem_cons]
  refine ⟨?_, ?_, ?_, ?_, ?_, ?_, ?_, ?_, ?_, ?_, ?_, ?_, ?_, ?_, ?_, ?_, ?_, List.forall_mem_nil _⟩ <;>
    refine sensible_of_givenAll fun first v => ?_
  all_goals
    dsimp only [GivenAll, Sense.Given, Sense.ofSymbol, Sense.ofNonterminal, Rule.t, Rule.n]
    intros
    rename_i hv
    simp only [apply.eq_def, nodesOf_nil, nodesOf_token, nodesOf_node, optional] at hv
  case refine_14 | refine_15 =>
    cases hv
    exact ⟨_, rfl, Shaped.cover ‹_› rfl⟩
  case refine_16 => exact has_forIn ‹_› ‹_› hv
  all_goals
    cases hv
    exact has_node rfl trivial trivial
      (by simp_all [Form.parts, Form.maybe, madeOf_pattern])

theorem isHandler_of_madeOf {n : Node} (h : MadeOf T .handler n) : isHandler n = true := by
  obtain ⟨line, form⟩ := n
  have := h.fits
  cases form <;> first | rfl | cases this

theorem isFinalizer_of_madeOf {n : Node} (h : MadeOf T .finalizer n) :
    isFinalizer n = true ∧ isHandler n = false := by
  obtain ⟨line, form⟩ := n
  have := h.fits
  cases form <;> first | exact ⟨rfl, rfl⟩ | cases this

theorem isFinalizer_of_handler {n : Node} (h : MadeOf T .handler n) : isFinalizer n = false := by
  obtain ⟨line, form⟩ := n
  have := h.fits
  cases form <;> first | rfl | cases this

theorem has_tryBlock {line : Option Nat} {block : Node} {caught last : Option Node}
    (hb : MadeOf T .statement block) (some_ : (caught.isSome || last.isSome) = true)
    (hc : ∀ n ∈ caught, MadeOf T .handler n) (hl : ∀ n ∈ last, MadeOf T .finalizer n) :
    ∃ n, Value.node (.mk line (.tryBlock (blockBody block) caught last)) = .node n ∧
      MadeOf T .statement n := by
  refine has_node some_ trivial trivial ?_
  simp only [Form.parts, Form.many, Form.maybe, List.mem_append, List.mem_map, Option.mem_toList]
  rintro p ((⟨m, hm, rfl⟩ | ⟨m, hm, rfl⟩) | ⟨m, hm, rfl⟩)
  · exact madeOf_blockBody hb hm
  · exact hc m hm
  · exact hl m hm

theorem sensible_clauseRules : ∀ r ∈ Rule.clauseRules, Sensible T r := by
  unfold Rule.clauseRules
  simp only [List.forall_mem_cons]
  refine ⟨?_, ?_, ?_, ?_, ?_, ?_, ?_, ?_, ?_, ?_, ?_, ?_, ?_, ?_, ?_, ?_, ?_, ?_, ?_, ?_, ?_,
    List.forall_mem_nil _⟩ <;> refine sensible_of_givenAll fun first v => ?_
  all_goals
    dsimp only [GivenAll, Sense.Given, Sense.ofSymbol, Sense.ofNonterminal, Rule.t, Rule.n]
    intros
    rename_i hv
    simp only [apply.eq_def, nodesOf_nil, nodesOf_token, nodesOf_node, nodesOf_list,
      nodes_map_node, List.append_nil, List.head?_cons, List.head?_nil] at hv
    cases hv
  case refine_1 | refine_3 =>
    refine has_node rfl trivial ?_ (by simp [Form.parts])
    rintro _ ⟨⟩
    exact ⟨_, ‹_›, by simpa, rfl⟩
  case refine_14 =>
    exact has_node rfl trivial ⟨_, ‹_›, by simpa, rfl⟩ (by simp_all [Form.parts])
  case refine_16 hb _ hc _ hf =>
    obtain ⟨hf₁, hf₂⟩ := isFinalizer_of_madeOf hf
    exact has_tryBlock hb (by simp [hf₁]) (by simpa [isHandler_of_madeOf hc] using hc)
      (by simpa [isFinalizer_of_handler hc, hf₁] using hf)
  case refine_17 hb _ hc =>
    exact has_tryBlock hb (by simp [isHandler_of_madeOf hc])
      (by simpa [isHandler_of_madeOf hc] using hc) (by simp [isFinalizer_of_handler hc])
  case refine_18 hb _ hf =>
    obtain ⟨hf₁, hf₂⟩ := isFinalizer_of_madeOf hf
    exact has_tryBlock hb (by simp [hf₁]) (by simp [hf₂]) (by simpa [hf₁] using hf)
  case refine_19 =>
    refine has_node rfl trivial trivial ?_
    simpa [Form.parts, Form.many, madeOf_symbol, *] using fun _ => madeOf_blockBody ‹_›
  case refine_20 =>
    exact has_node rfl trivial trivial
      (by simpa [Form.parts, Form.many] using fun _ => madeOf_blockBody ‹_›)
  all_goals
    exact has_node rfl trivial (by simp [Form.Told])
      (by simp_all [Form.parts, Form.many, Form.maybe])

theorem sensible_functionRules : ∀ r ∈ Rule.functionRules, Sensible T r := by
  have plain : ∀ r ∈ Rule.functionRules.drop 3, isPlain r = true := by decide
  have built : ∀ r ∈ Rule.functionRules.take 3, Sensible T r := by
    simp only [Rule.functionRules, List.take_succ_cons, List.take_zero, List.forall_mem_cons]
    refine ⟨?_, ?_, ?_, List.forall_mem_nil _⟩ <;> refine sensible_of_givenAll fun first v => ?_
    all_goals
      dsimp only [GivenAll, Sense.Given, Sense.ofSymbol, Sense.ofNonterminal, Rule.t, Rule.n]
      intros
      rename_i hv
      simp only [apply.eq_def, symbols_map_token, nodes_map_node] at hv
      cases hv
      refine has_node rfl trivial trivial ?_
      simp_all [Form.parts, Form.many, Form.maybe, madeOf_symbol, or_imp, forall_and]
  intro r hr
  rw [← List.take_append_drop 3 Rule.functionRules, List.mem_append] at hr
  exact hr.elim (built r) fun hr => sensible_of_isPlain (plain r hr)

/-! ## Chains of operators -/

/-- An operator of a chain. -/
abbrev IsOperator (T : Token → Prop) (operator : String) : Prop :=
  Tells T Nonterminal.binaryOperator.words operator

/-- Operands of a chain that are still to be joined by as many operators less one. -/
def Pending (T : Token → Prop) (operands : List Node) (operators : List String) : Prop :=
  (∀ n ∈ operands, MadeOf T .expression n) ∧ (∀ o ∈ operators, IsOperator T o) ∧
    operands.length = operators.length + 1

theorem Pending.join {operands : List Node} {operator : String} {operators : List String}
    (h : Pending T operands (operator :: operators)) :
    Pending T (Chain.join operands (operator :: operators)).1 operators := by
  match operands, h with
  | right :: left :: operands, ⟨hall, htold, hlen⟩ =>
    simp only [List.forall_mem_cons] at hall htold
    refine ⟨?_, htold.2, by simpa [Chain.join] using hlen⟩
    simp only [Chain.join, List.forall_mem_cons]
    refine ⟨.mk rfl ⟨trivial, htold.1⟩ ?_, hall.2.2⟩
    simp [Form.parts, hall]
  | [_], ⟨_, _, hlen⟩ => simp at hlen
  | [], ⟨_, _, hlen⟩ => simp at hlen

theorem Pending.joinTighter {operands : List Node} {operators : List String}
    (h : Pending T operands operators) (coming : String) :
    Pending T (Chain.joinTighter coming operands operators).1
      (Chain.joinTighter coming operands operators).2 := by
  induction operators generalizing operands with
  | nil => exact h
  | cons operator operators ih =>
    unfold Chain.joinTighter
    split_ifs
    · exact ih h.join
    · exact h

theorem Pending.joinAll {operands : List Node} {operators : List String}
    (h : Pending T operands operators) : Pending T (Chain.joinAll operands operators) [] := by
  induction operators generalizing operands with
  | nil => exact h
  | cons operator operators ih => exact ih h.join

theorem Pending.foldFrom {operands : List Node} {operators : List String}
    {rest : List (String × Node)} (h : Pending T operands operators)
    (hr : ∀ p ∈ rest, IsOperator T p.1 ∧ MadeOf T .expression p.2) :
    MadeOf T .expression (Chain.foldFrom operands operators rest) := by
  induction rest generalizing operands operators with
  | nil =>
    obtain ⟨hall, -, hlen⟩ := h.joinAll
    obtain ⟨n, hn⟩ := List.length_eq_one_iff.1 hlen
    simp only [Chain.foldFrom, hn, List.head?_cons, Option.getD_some]
    exact hall n (by simp [hn])
  | cons p rest ih =>
    obtain ⟨hall, htold, hlen⟩ := h.joinTighter p.1
    simp only [List.forall_mem_cons] at hr
    exact ih ⟨List.forall_mem_cons.2 ⟨hr.1.2, hall⟩, List.forall_mem_cons.2 ⟨hr.1.1, htold⟩,
      by simpa using hlen⟩ hr.2

theorem madeOf_fold {operand : Node} {rest : List (String × Node)}
    (h : MadeOf T .expression operand)
    (hr : ∀ p ∈ rest, IsOperator T p.1 ∧ MadeOf T .expression p.2) :
    MadeOf T .expression (Chain.fold operand rest) :=
  Pending.foldFrom ⟨by simpa using h, by simp, rfl⟩ hr

theorem Alternates.pairs {vs : List Value} (h : Alternates T vs) :
    ∀ p ∈ pairs vs, IsOperator T p.1 ∧ MadeOf T .expression p.2 := by
  induction h with
  | nil => simp [Build.pairs]
  | cons told shaped _ ih => exact List.forall_mem_cons.2 ⟨⟨told, shaped⟩, ih⟩

theorem Alternates.append {vs ws : List Value} (h : Alternates T vs) (hw : Alternates T ws) :
    Alternates T (vs ++ ws) := by
  induction h with
  | nil => exact hw
  | cons told shaped _ ih => exact .cons told shaped ih

theorem has_sequence {first : Option Token} {v w : Value} {left right : Node}
    (h : apply .sequence first [.node left, w, .node right] = .ok v)
    (hl : MadeOf T .expression left) (hr : MadeOf T .expression right) :
    ∃ n, v = .node n ∧ MadeOf T .expression n := by
  rw [apply.eq_def] at h
  dsimp only at h
  split at h
  · rename_i line items
    cases h
    have hlen : 2 ≤ items.length := of_decide_eq_true hl.fits
    refine ⟨_, rfl, .mk (by simpa [Form.isOf, Form.isExpression] using by omega)
      ⟨trivial, trivial⟩ ?_⟩
    simp only [Form.parts, Form.many, List.map_append, List.mem_append]
    rintro p (hp | hp)
    · exact hl.part hp
    · simp only [List.map_cons, List.map_nil, List.mem_singleton] at hp
      exact hp ▸ hr
  · cases h
    exact has_node rfl trivial trivial (by simp_all [Form.parts, Form.many])

theorem sensible_operatorRules : ∀ r ∈ Rule.operatorRules, Sensible T r := by
  unfold Rule.operatorRules
  simp only [List.forall_mem_cons]
  repeat' apply And.intro
  all_goals first | exact sensible_of_isPlain rfl | exact List.forall_mem_nil _ | skip
  all_goals
    refine sensible_of_givenAll fun first v => ?_
    dsimp only [GivenAll, Sense.Given, Sense.ofSymbol, Sense.ofNonterminal, Rule.t, Rule.n]
    intros
    rename_i hv
  iterate 2 exact has_sequence hv ‹_› ‹_›
  all_goals
    simp only [apply.eq_def, gather_cons, gather_nil, items_list, List.append_nil] at hv
    cases hv
  iterate 2 exact has_node rfl trivial ‹_› (by simp_all [Form.parts])
  iterate 2 exact has_node rfl trivial trivial (by simp_all [Form.parts])
  iterate 2 exact ⟨_, rfl, madeOf_fold ‹_› (Alternates.pairs ‹_›)⟩
  · exact ⟨_, rfl, madeOf_fold ‹_› (by simp [pairs])⟩
  all_goals exact has_node rfl trivial ‹_› (by simp_all [Form.parts])

theorem sensible_accessRules : ∀ r ∈ Rule.accessRules, Sensible T r := by
  unfold Rule.accessRules
  simp only [List.forall_mem_cons]
  repeat' apply And.intro
  all_goals first | exact sensible_of_isPlain rfl | exact List.forall_mem_nil _ | skip
  all_goals
    refine sensible_of_givenAll fun first v => ?_
    dsimp only [GivenAll, Sense.Given, Sense.ofSymbol, Sense.ofNonterminal, Rule.t, Rule.n]
    intros
    rename_i hv
    simp only [apply.eq_def, nodes_map_node] at hv
    cases hv
    exact has_node rfl trivial (by trivial)
      (by simp_all [Form.parts, Form.many])

theorem dropHole_subset {ns : List Node} {n : Node} (h : n ∈ dropHole ns) : n ∈ ns := by
  unfold dropHole at h
  split at h
  · exact List.dropLast_subset _ h
  · exact h

theorem has_array {line : Option Nat} {ns : List Node} (h : ∀ n ∈ ns, MadeOf T .element n) :
    ∃ n, Value.node (.mk line (.array (dropHole ns))) = .node n ∧ MadeOf T .expression n := by
  refine has_node rfl trivial trivial ?_
  simp only [Form.parts, Form.many, List.mem_map]
  rintro p ⟨n, hn, rfl⟩
  exact h n (dropHole_subset hn)

theorem has_map {α : Type} {c : Category} {x : Result α} {f : α → Value} {v : Value}
    (hf : ∀ a, x = .ok a → ∃ n, f a = .node n ∧ MadeOf T c n) (h : x.map f = .ok v) :
    ∃ n, v = .node n ∧ MadeOf T c n := by
  cases x with
  | error fault => cases h
  | ok a =>
    cases h
    exact hf a rfl

theorem eq_ok_of_literal {α : Type} {place : Place} {x : Except Literal.Fault α} {a : α}
    (h : literal place x = .ok a) : x = .ok a := by
  cases x with
  | error fault => cases h
  | ok b => exact congrArg Except.ok (Except.ok.inj h)

theorem has_property {line : Option Nat} {kind : PropertyKind} {place : Place} {token : Token}
    {key : String} {n : Node} (hk : token.terminal ∈ [.name, .string, .number]) (ht : T token)
    (hv : propertyKey place token = .ok key)
    (h : MadeOf T (if kind = .keyValue then .expression else .accessor) n) :
    ∃ m, Value.node (.mk line (.property kind key n)) = .node m ∧ MadeOf T .property m :=
  has_node rfl trivial ⟨token, place, ht, hk, hv⟩ (by simpa [Form.parts] using h)

theorem madeOf_accessor {line : Option Nat} {parameters : List Token} {body : List Node}
    (hp : ∀ t ∈ parameters, t.terminal = .name ∧ T t) (h : ∀ n ∈ body, MadeOf T .statement n) :
    MadeOf T .accessor
      (.mk line (.function .accessor none (parameters.map (symbol .parameter)) body)) := by
  refine .mk rfl ⟨trivial, trivial⟩ ?_
  simp only [Form.parts, Form.many, Form.maybe, Option.toList_none, List.map_nil, List.nil_append,
    List.mem_append, List.mem_map]
  rintro p (⟨m, ⟨t, ht, rfl⟩, rfl⟩ | ⟨m, hm, rfl⟩)
  · exact madeOf_symbol .parameter (hp t ht).1 (hp t ht).2
  · exact h m hm

theorem sensible_primaryRules : ∀ r ∈ Rule.primaryRules, Sensible T r := by
  unfold Rule.primaryRules
  simp only [List.forall_mem_cons]
  repeat' apply And.intro
  all_goals first | exact sensible_of_isPlain rfl | exact List.forall_mem_nil _ | skip
  all_goals
    refine sensible_of_givenAll fun first v => ?_
    dsimp only [GivenAll, Sense.Given, Sense.ofSymbol, Sense.ofNonterminal, Rule.t, Rule.n]
    intros
    rename_i hv
    simp only [apply.eq_def, nodesOf_nil, nodesOf_token, nodesOf_node, nodesOf_list,
      nodes_map_node, symbols_map_token, List.append_nil] at hv
  · cases hv
    exact has_node rfl trivial trivial (by simp [Form.parts])
  · cases hv
    exact has_node rfl ⟨rfl, rfl⟩ ⟨_, ‹_›, by simpa, rfl⟩ (by simp [Form.parts])
  iterate 2
    refine has_map (fun a ha => ?_) hv
    exact has_node rfl trivial ⟨_, ‹_›, ‹_›, eq_ok_of_literal ha⟩ (by simp [Form.parts])
  · cases hv
    exact has_node rfl trivial ⟨_, ‹_›, by simpa, rfl⟩ (by simp [Form.parts])
  iterate 3
    cases hv
    exact has_node rfl trivial trivial (by simp [Form.parts])
  · cases hv
    exact ⟨_, rfl, ‹_›⟩
  iterate 2
    cases hv
    exact has_array (by simp_all)
  · cases hv
    exact ⟨_, rfl, Shaped.cover ‹_› rfl⟩
  · cases hv
    exact has_node rfl trivial trivial (by simp [Form.parts])
  iterate 5
    cases hv
    exact has_node rfl trivial trivial (by simp_all [Form.parts, Form.many])
  · refine has_map (fun key hkey => ?_) hv
    exact has_property ‹_› ‹_› hkey ‹_›
  · split_ifs at hv
    · refine has_map (fun key hkey => ?_) hv
      exact has_property ‹_› ‹_› hkey (madeOf_accessor ‹_› ‹_›)
    · refine has_map (fun key hkey => ?_) hv
      exact has_property ‹_› ‹_› hkey (madeOf_accessor ‹_› ‹_›)

theorem sensible_listRules : ∀ r ∈ Rule.listRules, Sensible T r := by
  unfold Rule.listRules
  simp only [List.forall_mem_cons]
  repeat' apply And.intro
  all_goals first | exact sensible_of_isPlain rfl | exact List.forall_mem_nil _ | skip
  all_goals
    refine sensible_of_givenAll fun first v => ?_
    dsimp only [GivenAll, Sense.Given, Sense.ofSymbol, Sense.ofNonterminal, Rule.t, Rule.n]
    intros
    rename_i hv
    simp only [apply.eq_def, gather_cons, gather_nil, items_list, items_word, items_node,
      List.append_nil, List.cons_append, List.nil_append] at hv
    cases hv
  · exact ⟨_, rfl, .cons ‹_› ‹_› .nil⟩
  · exact ⟨_, rfl, Alternates.append ‹_› (.cons ‹_› ‹_› .nil)⟩

theorem forall_rules {P : Rule → Prop} (statement : ∀ r ∈ Rule.statementRules, P r)
    (plain : ∀ r ∈ Rule.plainRules, P r) (control : ∀ r ∈ Rule.controlRules, P r)
    (clause : ∀ r ∈ Rule.clauseRules, P r) (function : ∀ r ∈ Rule.functionRules, P r)
    (operator : ∀ r ∈ Rule.operatorRules, P r) (access : ∀ r ∈ Rule.accessRules, P r)
    (primary : ∀ r ∈ Rule.primaryRules, P r) (list : ∀ r ∈ Rule.listRules, P r) {i : Nat}
    {r : Rule} (h : Rule.all[i]? = some r) : P r := by
  have hr : r ∈ Rule.all.toList := Array.mem_toList_iff.2 (Array.mem_of_getElem? h)
  simp only [Rule.all, List.mem_append] at hr
  grind

theorem sensible_of_mem {i : Nat} {r : Rule} (h : Rule.all[i]? = some r) : Sensible T r :=
  forall_rules sensible_statementRules sensible_plainRules sensible_controlRules
    sensible_clauseRules sensible_functionRules sensible_operatorRules sensible_accessRules
    sensible_primaryRules sensible_listRules h

theorem has_values {body : List GrammarSymbol} {parts : List Derivation}
    (h : List.Forall₂ (fun s d => (∀ a ∈ d.leaves, T a) →
      ∀ v first, value d = .ok (v, first) → v.Has T (.ofSymbol s)) body parts)
    (hT : ∀ a ∈ Derivation.leavesAll parts, T a) {ps : List (Value × Option Token)}
    (hps : List.Forall₂ (fun d p => value d = .ok p) parts ps) :
    List.Forall₂ (fun s => Value.Has T (.ofSymbol s)) body (ps.map Prod.fst) := by
  induction h generalizing ps with
  | nil =>
    obtain rfl := List.forall₂_nil_left_iff.1 hps
    exact .nil
  | cons hd _ ih =>
    obtain ⟨p, qs, hp, hqs, rfl⟩ := List.forall₂_cons_left_iff.1 hps
    simp only [Derivation.leavesAll, List.forall_mem_append] at hT
    exact .cons (hd hT.1 p.1 p.2 hp) (ih hT.2 hqs)

theorem has_value {s : GrammarSymbol} {d : Derivation} (h : Derives s d) :
    (∀ a ∈ d.leaves, T a) → ∀ v first, value d = .ok (v, first) → v.Has T (.ofSymbol s) := by
  refine Derives.induct ?_ ?_ h
  · rintro token ht v first hv
    cases hv
    exact ⟨token, rfl, rfl, ht token (by simp [Derivation.leaves])⟩
  · intro i r parts rule _ ih ht v first hv
    obtain ⟨ps, hps, -, ha⟩ := (value_node_eq_ok_iff rule).1 hv
    exact sensible_of_mem rule _ _ _ (has_values ih ht hps) ha

theorem madeOf_tree {d : Derivation} (h : Derives (.nonterminal .program) d)
    (hT : ∀ a ∈ d.leaves, T a) {t : Node} (ht : tree d = .ok t) : MadeOf T .program t := by
  obtain ⟨first, hv⟩ := tree_eq_ok_iff.1 ht
  obtain ⟨n, hn, shaped⟩ := has_value h hT _ _ hv
  cases hn
  exact shaped

end Build

theorem exists_derivation_of_parse {file text : String} {t : Node}
    (h : (parse file text).result = .ok t) :
    ∃ d, (Reader.read (maskHashbang text.toList)).1 = .ok d ∧ Build.tree d = .ok t := by
  unfold parse at h
  dsimp only at h
  split at h
  · cases h
  · rename_i d hd
    split at h
    · rename_i n hn
      cases h
      exact ⟨d, hd, hn⟩
    · cases h

/-- The tree of a program text is shaped, and its names are not resolved. -/
theorem shaped_of_parse {file text : String} {t : Node} (h : (parse file text).result = .ok t) :
    ReadAs .program t := by
  obtain ⟨d, hd, ht⟩ := exists_derivation_of_parse h
  have made : MadeOf (fun _ => True) .program t :=
    Build.madeOf_tree (Reader.derives_of_read hd) (fun _ _ => trivial) ht
  exact made.mono fun _ h => h.1

end Debundle
