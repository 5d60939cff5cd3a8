import Debundle.Proofs.Reading.Completeness
import Debundle.Proofs.Reading.Shape

/-!
# Trees without places

The places of tokens decide nothing but the lines of nodes: derivations that differ only in them
have trees that differ only in their lines (`Build.tree_alike`).
-/
namespace Debundle

/-- A tree without its lines. -/
def Node.unplaced : Node → Node :=
  Node.foldUp fun _ form => .mk none (form.map Prod.snd)

theorem Node.unplaced_mk (line : Option Nat) (form : Form Node) :
    (Node.mk line form).unplaced = .mk none (form.map Node.unplaced) := by
  rw [Node.unplaced, Node.foldUp_mk, Form.map_map]

@[simp] theorem Node.unplaced_unplaced (n : Node) : n.unplaced.unplaced = n.unplaced := by
  induction n using Node.induct with
  | step line form ih =>
    rw [unplaced_mk, unplaced_mk, Form.map_map]
    exact congrArg _ (Form.map_congr ih)

/-- A token without its place. -/
def Token.unplaced (t : Token) : Token :=
  ⟨t.terminal, t.text, 0, 0, 0, false⟩

@[simp] theorem Token.text_unplaced (t : Token) : t.unplaced.text = t.text := rfl

theorem Token.Alike.unplaced {a b : Token} (h : a.Alike b) : a.unplaced = b.unplaced := by
  rw [Token.unplaced, Token.unplaced, h.1, h.2]

namespace Chain

theorem join_unplaced (operands : List Node) (operators : List String) :
    join (operands.map Node.unplaced) operators =
      ((join operands operators).1.map Node.unplaced, (join operands operators).2) := by
  match operands, operators with
  | right :: .mk line form :: operands, operator :: operators =>
    simp [join, Node.unplaced_mk, Node.line, Form.map]
  | [], _ | [_], _ | _ :: _ :: _, [] => simp [join]

theorem joinTighter_unplaced (coming : String) (operands : List Node) (operators : List String) :
    joinTighter coming (operands.map Node.unplaced) operators =
      ((joinTighter coming operands operators).1.map Node.unplaced,
        (joinTighter coming operands operators).2) := by
  induction operators generalizing operands with
  | nil => rfl
  | cons operator operators ih =>
    unfold joinTighter
    split_ifs
    · rw [join_unplaced, ih]
    · rfl

theorem joinAll_unplaced (operands : List Node) (operators : List String) :
    joinAll (operands.map Node.unplaced) operators =
      (joinAll operands operators).map Node.unplaced := by
  induction operators generalizing operands with
  | nil => rfl
  | cons operator operators ih =>
    unfold joinAll
    rw [join_unplaced, ih]

theorem foldFrom_unplaced (operands : List Node) (operators : List String)
    (rest : List (String × Node)) :
    foldFrom (operands.map Node.unplaced) operators
        (rest.map fun p => (p.1, p.2.unplaced)) =
      (foldFrom operands operators rest).unplaced := by
  induction rest generalizing operands operators with
  | nil =>
    simp only [List.map_nil, foldFrom, joinAll_unplaced, List.head?_map]
    cases (joinAll operands operators).head? with
    | none => rfl
    | some n => rfl
  | cons p rest ih =>
    simp only [List.map_cons, foldFrom, joinTighter_unplaced]
    exact ih (p.2 :: (joinTighter p.1 operands operators).1) _

theorem fold_unplaced (operand : Node) (rest : List (String × Node)) :
    fold operand.unplaced (rest.map fun p => (p.1, p.2.unplaced)) = (fold operand rest).unplaced :=
  foldFrom_unplaced [operand] [] rest

end Chain

namespace Build

mutual

/-- A value without its places. -/
def Value.unplaced : Value → Value
  | .token t => .token t.unplaced
  | .node n => .node n.unplaced
  | .word text => .word text
  | .list vs => .list (unplacedAll vs)

def unplacedAll : List Value → List Value
  | [] => []
  | v :: vs => v.unplaced :: unplacedAll vs

end

@[simp] theorem unplacedAll_eq_map (vs : List Value) : unplacedAll vs = vs.map Value.unplaced := by
  induction vs with
  | nil => rfl
  | cons v vs ih => rw [unplacedAll, ih, List.map_cons]

theorem items_unplaced (v : Value) : v.unplaced.items = v.items.map Value.unplaced := by
  cases v with
  | token t =>
    rw [Value.unplaced, items_token, items_token, Token.unplaced]
    split_ifs <;> rfl
  | node n => rfl
  | word text => rfl
  | list vs => simp [Value.unplaced]

theorem gather_unplaced (vs : List Value) :
    gather (vs.map Value.unplaced) = (gather vs).map Value.unplaced := by
  induction vs with
  | nil => rfl
  | cons v vs ih => simp [items_unplaced, ih]

theorem nodes_unplaced (vs : List Value) :
    nodes (vs.map Value.unplaced) = (nodes vs).map Node.unplaced := by
  induction vs with
  | nil => rfl
  | cons v vs ih =>
    cases v with
    | node n => exact congrArg (n.unplaced :: ·) ih
    | token | word | list => exact ih

theorem nodesOf_unplaced (vs : List Value) :
    nodesOf (vs.map Value.unplaced) = (nodesOf vs).map Node.unplaced := by
  rw [nodesOf, gather_unplaced, nodes_unplaced, nodesOf]

theorem symbols_unplaced (role : Role) (vs : List Value) :
    (symbols role (vs.map Value.unplaced)).map Node.unplaced =
      (symbols role vs).map Node.unplaced := by
  induction vs with
  | nil => rfl
  | cons v vs ih =>
    cases v <;> simpa [symbols, Value.unplaced, symbol, Node.unplaced_mk, Form.map,
      Token.unplaced] using ih

theorem pairs_unplaced (vs : List Value) :
    pairs (vs.map Value.unplaced) = (pairs vs).map fun p => (p.1, p.2.unplaced) := by
  fun_induction pairs vs with
  | case1 operator operand rest ih => simp [Value.unplaced, pairs, ih]
  | case2 vs hno =>
    unfold pairs
    split
    · rename_i operator operand rest heq
      obtain ⟨v, _, rfl, hv, heq⟩ := List.map_eq_cons_iff.1 heq
      obtain ⟨w, ws, rfl, hw, rfl⟩ := List.map_eq_cons_iff.1 heq
      cases v <;> cases hv
      cases w <;> cases hw
      exact absurd rfl (hno _ _ _)
    · rfl

theorem blockBody_unplaced (n : Node) :
    blockBody n.unplaced = (blockBody n).map Node.unplaced := by
  obtain ⟨line, form⟩ := n
  rw [Node.unplaced_mk]
  cases form <;> rfl

theorem isHandler_unplaced (n : Node) : isHandler n.unplaced = isHandler n := by
  obtain ⟨line, form⟩ := n
  rw [Node.unplaced_mk]
  cases form <;> rfl

theorem isFinalizer_unplaced (n : Node) : isFinalizer n.unplaced = isFinalizer n := by
  obtain ⟨line, form⟩ := n
  rw [Node.unplaced_mk]
  cases form <;> rfl

theorem dropHole_unplaced (ns : List Node) :
    dropHole (ns.map Node.unplaced) = (dropHole ns).map Node.unplaced := by
  have hlast : ∀ n : Node, (∃ line, n.unplaced = .mk line .hole) ↔ ∃ line, n = .mk line .hole := by
    rintro ⟨line, form⟩
    rw [Node.unplaced_mk]
    cases form <;> simp [Form.map]
  unfold dropHole
  rw [List.getLast?_map]
  cases h : ns.getLast? with
  | none => rfl
  | some n =>
    by_cases hn : ∃ line, n = .mk line .hole
    · obtain ⟨line, rfl⟩ := hn
      simp [Node.unplaced_mk, Form.map]
    · have hm := mt (hlast n).1 hn
      rw [Option.map_some]
      split
      · rename_i line heq
        exact absurd ⟨line, Option.some.inj heq⟩ hm
      · split
        · rename_i line heq
          exact absurd ⟨line, Option.some.inj heq⟩ hn
        · rfl

@[simp] theorem Value.unplaced_unplaced (v : Value) : v.unplaced.unplaced = v.unplaced := by
  refine @Value.rec (fun v => v.unplaced.unplaced = v.unplaced)
    (fun vs => vs.map (fun v => v.unplaced.unplaced) = vs.map Value.unplaced) ?_ ?_ ?_ ?_ ?_ ?_ v
  · intro t; rfl
  · intro n; simp [Value.unplaced]
  · intro text; rfl
  · intro vs ih
    simpa [Value.unplaced, Function.comp_def] using ih
  · rfl
  · intro v vs hv ih
    rw [List.map_cons, List.map_cons, hv, ih]

/-- The value that a label makes, if it makes one, without its places. -/
def valueOf (label : Label) (first : Option Token) (vs : List Value) : Option Value :=
  (apply label first vs).toOption.map Value.unplaced

theorem toOption_map_unplaced {α : Type} {x : Result α} {f g : α → Value}
    (h : ∀ a, (f a).unplaced = (g a).unplaced) :
    (x.map f).toOption.map Value.unplaced = (x.map g).toOption.map Value.unplaced := by
  cases x with
  | error fault => rfl
  | ok a => simp [Except.map, Except.toOption, h a]

/-- The places of the parts do not matter to a label. -/
def SteadyLabel (label : Label) : Prop :=
  ∀ (first : Option Token) (vs : List Value),
    valueOf label none (vs.map Value.unplaced) = valueOf label first vs

/-- The labels of rules that only gather lists, or nodes for a statement, an array or an object. -/
def gathersNodes (label : Label) : Bool :=
  label ∈ [.gather, .parameters, .program, .block, .empty, .debugger, .choose, .doWhile, .whileLoop,
    .withObject, .returnValue, .throwValue, .switch, .caseBranch, .defaultBranch, .tryBlock, .self,
    .null, .yes, .no, .array, .object]

theorem steadyLabel_of_gathersNodes {label : Label} (h : gathersNodes label = true) :
    SteadyLabel label := by
  intro first vs
  unfold valueOf
  cases label <;> try cases h
  all_goals
    simp only [apply.eq_def, nodesOf_unplaced, gather_unplaced, dropHole_unplaced]
  case choose | doWhile | whileLoop | withObject | switch | caseBranch =>
    obtain _ | ⟨n, _ | ⟨m, _ | ⟨k, _ | ⟨_, _⟩⟩⟩⟩ := nodesOf vs <;>
      simp [Except.toOption, Value.unplaced, Node.unplaced_mk, Form.map]
  case tryBlock =>
    obtain _ | ⟨block, others⟩ := nodesOf vs
    · rfl
    · simp [Except.toOption, Value.unplaced, Node.unplaced_mk, Form.map, blockBody_unplaced,
        List.find?_map, Function.comp_def, isHandler_unplaced, isFinalizer_unplaced]
  all_goals
    simp [Except.toOption, Value.unplaced, Node.unplaced_mk, Form.map, Function.comp_def]

/-- What a value of a sense looks like from outside. -/
def Value.Looks : Sense → Value → Prop
  | .token _, v | .key, v => ∃ t, v = .token t
  | .node _, v => ∃ n, v = .node n
  | .word _, v => ∃ text, v = .word text
  | .nodes _, v | .names, v | .operations, v => ∃ vs, v = .list vs

theorem Value.Has.looks {T : Token → Prop} {s : Sense} {v : Value} (h : v.Has T s) :
    v.Looks s := by
  cases s <;> obtain ⟨x, rfl, -⟩ := h <;> exact ⟨_, rfl⟩

/-- The places of its parts do not matter to a rule. -/
def Steady (r : Rule) : Prop :=
  ∀ (first : Option Token) (vs : List Value),
    List.Forall₂ (fun s => Value.Looks (.ofSymbol s)) r.body vs →
    valueOf r.label none (vs.map Value.unplaced) = valueOf r.label first vs

theorem steady_of_gathersNodes {r : Rule} (h : gathersNodes r.label = true) : Steady r :=
  fun first vs _ => steadyLabel_of_gathersNodes h first vs

theorem steady_of_isPlain {r : Rule} (h : isPlain r = true) : Steady r := by
  intro first vs hvs
  obtain ⟨head, body, label⟩ := r
  unfold isPlain at h
  unfold valueOf
  dsimp only at h hvs ⊢
  split at h
  · obtain ⟨w, _, -, hrest, rfl⟩ := List.forall₂_cons_left_iff.1 hvs
    obtain rfl := List.forall₂_nil_left_iff.1 hrest
    simp [apply.eq_def, Except.toOption]
  · obtain ⟨w, _, ⟨t, rfl⟩, hrest, rfl⟩ := List.forall₂_cons_left_iff.1 hvs
    obtain rfl := List.forall₂_nil_left_iff.1 hrest
    rfl
  · exact steadyLabel_of_gathersNodes rfl first vs
  · exact steadyLabel_of_gathersNodes rfl first vs
  · cases h

theorem steady_plainRules : ∀ r ∈ Rule.plainRules, Steady r := by
  have declare : ∀ body, Steady ⟨.declarations, .terminal .kwVar :: body, .declare⟩ := by
    intro body first vs hvs
    obtain ⟨_, vs, ⟨t, rfl⟩, -, rfl⟩ := List.forall₂_cons_left_iff.1 hvs
    simp [valueOf, apply.eq_def, Except.toOption, Value.unplaced, Node.unplaced_mk,
      nodesOf_unplaced, Form.map]
  have define : ∀ body, Steady ⟨.declaration, .terminal .name :: body, .define⟩ := by
    intro body first vs hvs
    obtain ⟨_, vs, ⟨t, rfl⟩, -, rfl⟩ := List.forall₂_cons_left_iff.1 hvs
    simp [valueOf, apply.eq_def, Except.toOption, Value.unplaced, nodesOf_unplaced, Form.map,
      symbol, Node.unplaced_mk, Function.comp_def]
  unfold Rule.plainRules
  simp only [List.forall_mem_cons]
  repeat' apply And.intro
  all_goals first
    | exact steady_of_isPlain rfl
    | exact steady_of_gathersNodes rfl
    | exact List.forall_mem_nil _
    | exact declare _
    | exact define _
    | skip
  all_goals
    simp only [Steady, valueOf, Rule.t, Rule.n, Sense.ofSymbol, Sense.ofNonterminal, Value.Looks,
      List.forall₂_cons_left_iff, List.forall₂_nil_left_iff, forall_exists_index, and_imp]
    intros
    subst_vars
    simp [apply.eq_def, Except.toOption, Value.unplaced, Node.unplaced_mk, Form.map]

theorem steadyLabel_forIn : SteadyLabel .forIn := by
  intro first vs
  unfold valueOf
  simp only [apply.eq_def, nodesOf_unplaced]
  obtain _ | ⟨⟨line, form⟩, _ | ⟨body, _ | ⟨_, _⟩⟩⟩ := nodesOf vs
  case cons.cons.nil =>
    cases form
    case binary operator left right =>
      by_cases hin : operator = "in"
      · subst hin
        simp [Except.toOption, Value.unplaced, Node.unplaced_mk, Form.map]
      · cases first <;> simp [Except.toOption, Node.unplaced_mk, Form.map, hin]
    all_goals cases first <;> rfl
  all_goals cases first <;> simp [Except.toOption]

theorem steady_sequence (head x y : Nonterminal) (hx : Sense.ofNonterminal x = .node .expression)
    (hy : Sense.ofNonterminal y = .node .expression) (t : Terminal) :
    Steady ⟨head, [.nonterminal x, .terminal t, .nonterminal y], .sequence⟩ := by
  intro first vs hvs
  simp only [Sense.ofSymbol, hx, hy, Value.Looks, List.forall₂_cons_left_iff,
    List.forall₂_nil_left_iff] at hvs
  obtain ⟨_, _, ⟨⟨line, form⟩, rfl⟩, ⟨_, _, ⟨c, rfl⟩, ⟨_, _, ⟨right, rfl⟩, rfl, rfl⟩, rfl⟩, rfl⟩ := hvs
  simp only [valueOf, List.map_cons, List.map_nil, Value.unplaced, apply.eq_def, Node.unplaced_mk]
  cases form <;>
    simp [Form.map, Except.toOption, Value.unplaced, Node.unplaced_mk, Function.comp_def]

theorem steady_builtRules : ∀ rules ∈ [Rule.controlRules, Rule.clauseRules, Rule.functionRules,
    Rule.accessRules], ∀ r ∈ rules, Steady r := by
  unfold Rule.controlRules Rule.clauseRules Rule.functionRules Rule.accessRules
  simp only [List.forall_mem_cons]
  repeat' apply And.intro
  all_goals first
    | exact steady_of_isPlain rfl
    | exact steady_of_gathersNodes rfl
    | exact List.forall_mem_nil _
    | exact fun first vs _ => steadyLabel_forIn first vs
    | skip
  all_goals
    simp only [Steady, valueOf, Rule.t, Rule.n, Sense.ofSymbol, Sense.ofNonterminal, Value.Looks,
      List.forall₂_cons_left_iff, List.forall₂_nil_left_iff, forall_exists_index, and_imp]
    intros
    subst_vars
    simp [apply.eq_def, Except.toOption, Value.unplaced, Form.map, optional, symbol,
      Node.unplaced_mk, blockBody_unplaced, nodes_unplaced, symbols_unplaced]

theorem steady_operatorRules : ∀ r ∈ Rule.operatorRules, Steady r := by
  have chain : ∀ head x body, Sense.ofNonterminal x = .node .expression →
      Steady ⟨head, .nonterminal x :: body, .binary⟩ := by
    intro head x body hx first vs hvs
    obtain ⟨v, vs, hv, -, rfl⟩ := List.forall₂_cons_left_iff.1 hvs
    rw [Sense.ofSymbol, hx] at hv
    obtain ⟨n, rfl⟩ := hv
    simp [valueOf, apply.eq_def, Except.toOption, Value.unplaced, gather_unplaced, pairs_unplaced,
      Chain.fold_unplaced]
  unfold Rule.operatorRules
  simp only [List.forall_mem_cons]
  repeat' apply And.intro
  all_goals first
    | exact steady_of_isPlain rfl
    | exact steady_of_gathersNodes rfl
    | exact List.forall_mem_nil _
    | exact chain _ _ _ rfl
    | exact steady_sequence _ _ _ rfl rfl _
    | skip
  all_goals
    simp only [Steady, valueOf, Rule.t, Rule.n, Sense.ofSymbol, Sense.ofNonterminal, Value.Looks,
      List.forall₂_cons_left_iff, List.forall₂_nil_left_iff, forall_exists_index, and_imp]
    intros
    subst_vars
    simp [apply.eq_def, Except.toOption, Value.unplaced, Node.unplaced_mk, Form.map]

theorem steady_primaryRules : ∀ r ∈ Rule.primaryRules, Steady r := by
  unfold Rule.primaryRules
  simp only [List.forall_mem_cons]
  repeat' apply And.intro
  all_goals first
    | exact steady_of_isPlain rfl
    | exact steady_of_gathersNodes rfl
    | exact List.forall_mem_nil _
    | skip
  all_goals
    simp only [Steady, valueOf, Rule.t, Rule.n, Sense.ofSymbol, Sense.ofNonterminal, Value.Looks,
      List.forall₂_cons_left_iff, List.forall₂_nil_left_iff, forall_exists_index, and_imp]
    intros
    subst_vars
    simp only [List.map_cons, List.map_nil, Value.unplaced]
  · rfl
  · exact toOption_map_unplaced fun _ => by simp [Value.unplaced, Node.unplaced_mk, Form.map]
  · exact toOption_map_unplaced fun _ => by simp [Value.unplaced, Node.unplaced_mk, Form.map]
  · rfl
  · simp [apply.eq_def, Except.toOption, Value.unplaced]
  · simp [apply.eq_def, Except.toOption, Value.unplaced]
  · rfl
  · exact toOption_map_unplaced fun _ => by simp [Value.unplaced, Node.unplaced_mk, Form.map]
  · rename_i first word key _ parameters _ body
    have function : ∀ line line', (Node.mk line (.function .accessor none
        (symbols .parameter (parameters.map Value.unplaced)) (nodes (body.map Value.unplaced)))).unplaced =
          (Node.mk line' (.function .accessor none (symbols .parameter parameters) (nodes body))).unplaced := by
      intro line line'
      simp [Node.unplaced_mk, Form.map, symbols_unplaced, nodes_unplaced]
    rw [unplacedAll_eq_map, unplacedAll_eq_map, apply.eq_def, apply.eq_def]
    dsimp only
    rw [Token.text_unplaced]
    split_ifs
    · exact toOption_map_unplaced fun _ => by simp [Value.unplaced, Node.unplaced_mk, Form.map, function none (first.map Token.line)]
    · exact toOption_map_unplaced fun _ => by simp [Value.unplaced, Node.unplaced_mk, Form.map, function none (first.map Token.line)]
    · rfl

theorem steady_of_mem {i : Nat} {r : Rule} (h : Rule.all[i]? = some r) : Steady r := by
  have gathers : ∀ r ∈ Rule.statementRules ++ Rule.listRules,
      isPlain r = true ∨ gathersNodes r.label = true := by decide
  have steady : ∀ r ∈ Rule.statementRules ++ Rule.listRules, Steady r := fun r hr =>
    (gathers r hr).elim steady_of_isPlain steady_of_gathersNodes
  rw [List.forall_mem_append] at steady
  exact forall_rules steady.1 steady_plainRules (steady_builtRules _ (by simp))
    (steady_builtRules _ (by simp)) (steady_builtRules _ (by simp)) steady_operatorRules
    (steady_builtRules _ (by simp)) steady_primaryRules steady.2 h

theorem Value.Looks.of_unplaced {s : Sense} {v w : Value} (h : v.Looks s)
    (hw : w.unplaced = v.unplaced) : w.Looks s := by
  cases s <;> obtain ⟨x, rfl⟩ := h <;> cases w <;> simp [Value.unplaced] at hw <;> exact ⟨_, rfl⟩

theorem Steady.apply {r : Rule} (h : Steady r) {first : Option Token} (first' : Option Token)
    {vs ws : List Value} {v : Value}
    (hvs : List.Forall₂ (fun s => Value.Looks (.ofSymbol s)) r.body vs)
    (hws : ws.map Value.unplaced = vs.map Value.unplaced)
    (hv : apply r.label first vs = .ok v) :
    ∃ w, Build.apply r.label first' ws = .ok w ∧ w.unplaced = v.unplaced := by
  have looks' : List.Forall₂ (fun s => Value.Looks (.ofSymbol s)) r.body ws := by
    clear hv h
    generalize r.body = body at hvs
    induction hvs generalizing ws with
    | nil => rw [List.map_eq_nil_iff.1 hws]; exact .nil
    | cons hl _ ih =>
      obtain ⟨w, ws, rfl, hw, hws⟩ := List.map_eq_cons_iff.1 hws
      exact .cons (hl.of_unplaced hw) (ih hws)
  have same : valueOf r.label first' ws = valueOf r.label first vs := by
    rw [← h first' ws looks', hws, h first vs hvs]
  rw [valueOf, valueOf, hv] at same
  obtain ⟨w, hw, hu⟩ := Option.map_eq_some_iff.1 same
  cases ha : Build.apply r.label first' ws with
  | error fault => rw [ha] at hw; cases hw
  | ok w' =>
    rw [ha] at hw
    cases hw
    exact ⟨_, rfl, hu⟩

theorem value_alike {s : GrammarSymbol} {d : Derivation} (h : Derives s d) :
    ∀ d' v first, d.Alike d' → value d = .ok (v, first) →
      ∃ v' first', value d' = .ok (v', first') ∧ v'.unplaced = v.unplaced := by
  refine Derives.induct ?_ ?_ h
  · rintro token d' v first ⟨hb⟩ hv
    cases hv
    exact ⟨_, _, rfl, by simp [Value.unplaced, hb.unplaced]⟩
  · intro i r parts rule hall ih d' v first hd' hv
    obtain ⟨ps, hps, -, ha⟩ := (value_node_eq_ok_iff rule).1 hv
    obtain ⟨es, rfl, halike⟩ : ∃ es, d' = .node i es ∧ List.Forall₂ Derivation.Alike parts es := by
      cases hd' with
      | node halike => exact ⟨_, rfl, halike⟩
    have hvs : List.Forall₂ (fun s => Value.Looks (.ofSymbol s)) r.body (ps.map Prod.fst) :=
      (has_values (T := fun _ => True) (hall.imp fun _ _ => has_value) (fun _ _ => trivial)
        hps).imp fun _ _ => Value.Has.looks
    have others : ∃ qs, List.Forall₂ (fun d p => value d = .ok p) es qs ∧
        (qs.map Prod.fst).map Value.unplaced = (ps.map Prod.fst).map Value.unplaced := by
      clear ha hvs hv hall rule hd'
      generalize r.body = body at ih
      induction ih generalizing es ps with
      | nil =>
        obtain rfl := List.forall₂_nil_left_iff.1 halike
        obtain rfl := List.forall₂_nil_left_iff.1 hps
        exact ⟨[], .nil, rfl⟩
      | cons hd _ ih =>
        obtain ⟨e, es, he, hes, rfl⟩ := List.forall₂_cons_left_iff.1 halike
        obtain ⟨p, ps, hp, htail, rfl⟩ := List.forall₂_cons_left_iff.1 hps
        obtain ⟨v', first', hv', hu⟩ := hd e p.1 p.2 he hp
        obtain ⟨qs, hqs, hus⟩ := ih ps htail es hes
        exact ⟨(v', first') :: qs, .cons hv' hqs, by simpa [hu] using hus⟩
    obtain ⟨qs, hqs, hus⟩ := others
    obtain ⟨w, hw, hu⟩ := (steady_of_mem rule).apply (qs.findSome? Prod.snd) hvs hus ha
    exact ⟨w, _, (value_node_eq_ok_iff rule).2 ⟨qs, hqs, rfl, hw⟩, hu⟩

theorem tree_alike {d d' : Derivation} (h : Derives (.nonterminal .program) d)
    (halike : d.Alike d') {t : Node} (ht : tree d = .ok t) :
    ∃ t', tree d' = .ok t' ∧ t'.unplaced = t.unplaced := by
  obtain ⟨first, hv⟩ := tree_eq_ok_iff.1 ht
  obtain ⟨v', first', hv', hu⟩ := value_alike h d' _ first halike hv
  cases v' with
  | node t' =>
    simp only [Value.unplaced, Value.node.injEq] at hu
    exact ⟨t', tree_eq_ok_iff.2 ⟨first', hv'⟩, hu⟩
  | token | word | list => simp [Value.unplaced] at hu

end Build

end Debundle
