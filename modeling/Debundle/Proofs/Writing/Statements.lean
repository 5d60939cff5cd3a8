import Debundle.Proofs.Writing.Compounds

/-!
# Statements are read back

Every form of statement is written as a statement if its parts are written as what they are.
Controlled statements stand in braces.
-/
namespace Debundle

open Text Build Piece Level

namespace Node

variable {style : Style} {strict : Bool} {line : Option Nat}

theorem Stated.of_kind {n : Node} (kind : Nonterminal) (refused : List Terminal)
    (h : Phrase strict true (.nonterminal kind) (.node (n.settled style)) (n.pieces style .root) refused)
    (hsub : ∀ t ∈ refused, t ∈ n.shunned)
    (hr : Rule.isFree ⟨.statement, [.nonterminal kind], .pass⟩ = true) : n.Stated style strict :=
  (h.pass hr).refuse hsub

/-- A statement, and if it is a block, what is in it. -/
structure Uttered (style : Style) (strict : Bool) (n : Node) : Prop where
  stated : n.Stated style strict
  inner : ∀ ns, n.form = .block ns → ∀ m ∈ ns, m.Stated style strict

theorem Uttered.of_stated {n : Node} (h : n.Stated style strict)
    (hb : ∀ ns, n.form ≠ .block ns) : n.Uttered style strict :=
  ⟨h, fun ns heq => absurd heq (hb ns)⟩

theorem Uttered.block {ns : List Node} (h : ∀ n ∈ ns, n.Stated style strict) :
    (Node.mk line (.block ns)).Uttered style strict := by
  refine ⟨.of_kind .block [] ?_ nofun rfl, ?_⟩
  · rw [settled_mk, pieces_mk]
    exact Stated.block h
  · rintro _ ⟨⟩
    exact h

/-! ## Controlled statements -/

theorem block_eq_braced {n : Node} (hr : n.form.isIrregular = false)
    (hb : ∀ ns, n.form ≠ .block ns) (writer : Layout.Writer) :
    Layout.block (n, writer) = Layout.braced [(n, writer)] := by
  have hvacant : Layout.isVacant (n, writer) = Layout.isEmpty (n, writer) := by
    unfold Layout.isVacant Layout.isEmpty Form.isEmpty
    split
    · rename_i he
      simp only [show n.form = _ from he]
    · rename_i ha
      rw [show n.form = _ from ha] at hr
      cases hr
    · rename_i he _
      split
      · rename_i heq
        exact absurd heq he
      · rfl
  have hblock : Layout.isBlock (n, writer) = false := by
    unfold Layout.isBlock
    split
    · rename_i heq
      exact absurd heq (hb _)
    · rfl
  rw [Layout.block, Layout.braced, hvacant, hblock]
  cases he : Layout.isEmpty (n, writer) <;> simp [Layout.lines, he]

theorem sheltered_eq {n m : Node} (hb : ∀ ns, n.form ≠ .block ns) :
    sheltered (n, m) = .mk none (.block (kept [(n, m)])) := by
  unfold sheltered
  split
  · rename_i he
    simp [kept, Form.isEmpty, show n.form = _ from he]
  · rename_i heq
    exact absurd heq (hb _)
  · rename_i he _
    have : n.form.isEmpty = false := by
      unfold Form.isEmpty
      split
      · rename_i heq
        exact absurd heq he
      · rfl
    simp [kept, this]

theorem Uttered.sheltered {n : Node} (h : n.Uttered style strict)
    (hr : n.form.isIrregular = false) :
    Phrase strict true (.nonterminal .block) (.node (sheltered (n, n.settled style)))
      (Layout.block (n, n.pieces style)) [] := by
  by_cases hblock : ∃ ns, n.form = .block ns
  · obtain ⟨ns, hns⟩ := hblock
    obtain ⟨line, form⟩ := n
    obtain rfl : form = .block ns := hns
    have := Stated.block (h.inner ns rfl)
    rw [settled_mk, pieces_mk]
    exact this
  · have hb : ∀ ns, n.form ≠ .block ns := fun ns heq => hblock ⟨ns, heq⟩
    rw [sheltered_eq hb, block_eq_braced hr hb]
    exact @Stated.block style strict [n] fun m hm => List.mem_singleton.1 hm ▸ h.stated

theorem Uttered.inBraces {n : Node} (h : n.Uttered style strict)
    (hr : n.form.isIrregular = false) :
    Phrase strict true (.nonterminal .statement) (.node (Node.sheltered (n, n.settled style)))
      (Layout.block (n, n.pieces style)) [] :=
  (h.sheltered hr).pass rfl

theorem controlled_eq {n : Node} (hr : n.form.isIrregular = false)
    (hs : style.bracketize = false) :
    Layout.controlled style (n, n.pieces style) = n.pieces style .root := by
  obtain ⟨line, form⟩ := n
  rw [Layout.controlled, if_neg (by simp [hs])]
  cases form with
  | empty => rw [pieces_mk]; rfl
  | absent => cases hr
  | _ => rfl

theorem Uttered.controlled {n : Node} (h : n.Uttered style strict)
    (hr : n.form.isIrregular = false) :
    Phrase strict true (.nonterminal .statement) (.node (governed style (n, n.settled style)))
      (Layout.controlled style (n, n.pieces style)) n.shunned := by
  cases hs : style.bracketize with
  | true =>
    rw [governed, if_pos hs, Layout.controlled, if_pos hs]
    exact (h.inBraces hr).refuse nofun
  | false =>
    rw [governed, if_neg (by simp [hs]), controlled_eq hr hs]
    exact h.stated

theorem Uttered.beforeElse {n : Node} (h : n.Uttered style strict)
    (hr : n.form.isIrregular = false) :
    Phrase strict true (.nonterminal .statement)
      (.node (if Layout.capturesElse n then Node.sheltered (n, n.settled style)
        else governed style (n, n.settled style)))
      (Layout.beforeElse style (n, n.pieces style)) [.slash, .slashEqual] := by
  rw [Layout.beforeElse]
  cases hc : Layout.capturesElse n with
  | true =>
    rw [if_pos rfl, Bool.or_true, if_pos rfl]
    exact (h.inBraces hr).refuse nofun
  | false =>
    have := h.controlled hr
    rw [shunned, hc] at this
    rw [if_neg nofun, Bool.or_false]
    split
    · rename_i hs
      rwa [Layout.controlled, if_pos hs] at this
    · exact this

theorem capturesElse_mk (line : Option Nat) (form : Form Node) :
    Layout.capturesElse (.mk line form) = match form with
      | .ifElse _ _ none => true
      | .ifElse _ _ (some alternative) => Layout.capturesElse alternative
      | .labeled _ body | .whileLoop _ body | .forLoop _ _ _ body | .forIn _ _ body
      | .withObject _ body => Layout.capturesElse body
      | _ => false := by
  rw [Layout.capturesElse, foldUp_mk]
  cases form with
  | ifElse test body other => cases other <;> rfl
  | _ => rfl

theorem shunned_of_eq {n m : Node} (h : Layout.capturesElse n = Layout.capturesElse m) :
    ∀ t ∈ m.shunned, t ∈ n.shunned := by
  rw [shunned, shunned, h]
  exact fun _ => id

theorem slash_shunned (n : Node) : ∀ t ∈ [Terminal.slash, .slashEqual], t ∈ n.shunned := by
  rw [shunned]
  split <;> decide

theorem Told.header {n : Node} (hn : n.Told style strict) {needs rests : Bool}
    {ss : List GrammarSymbol} {vs : List Value} {pieces : List Piece} {refused : List Terminal}
    (h : Phrases strict false rests ss vs pieces refused) :
    Phrases strict needs rests (.terminal .lparen :: .nonterminal .expression ::
        .terminal .rparen :: ss)
      (.token (.of .lparen "(") :: .node (n.settled style) :: .token (.of .rparen ")") :: vs)
      (Layout.parens (n.pieces style .root) ++ pieces) refused := by
  rw [Layout.parens, List.cons_append, List.cons_append, List.append_assoc]
  exact .mark .lparen "(" rfl (.cons (hn.toExpression trivial)
    (.mark .rparen ")" rfl h) rfl)

theorem Uttered.headed {test body : Node}
    (ht : test.Told style strict) (hb : body.Uttered style strict)
    (hr : body.form.isIrregular = false) (kind : Nonterminal) (label : Label) (t : Terminal)
    (k : String) (hk : t.marks k = true)
    (hrule : (⟨kind, [.terminal t, .terminal .lparen, .nonterminal .expression,
      .terminal .rparen, .nonterminal .statement], label⟩ : Rule) ∈ Rule.all.toList)
    {refused : List Terminal} {v : Node} (hsub : ∀ u ∈ body.shunned, u ∈ refused)
    (hends : ∀ body, ∀ u ∉ refused, Rule.endsAt ⟨kind, body, label⟩ u = true)
    (ha : ∀ vs, nodesOf vs = [test.settled style, governed style (body, body.settled style)] →
      apply label none vs = .ok (.node v)) :
    Phrase strict true (.nonterminal kind) (.node v)
      ([word k, space] ++ Layout.parens (test.pieces style .root) ++ [space] ++
        Layout.controlled style (body, body.pieces style)) refused := by
  rw [List.append_assoc, List.append_assoc]
  exact .ruleBefore label (.mark t k hk (.blank (ht.header (.blank (.single
    ((hb.controlled hr).refuse hsub)))))) (ha _ (by simp)) (hends _) hrule

theorem Stated.whileLoop {test body : Node}
    (ht : test.Told style strict) (hb : body.Uttered style strict)
    (hr : body.form.isIrregular = false) :
    (Node.mk line (.whileLoop test body)).Stated style strict := by
  refine .of_kind .whileStatement body.shunned ?_ (shunned_of_eq (capturesElse_mk _ _)) rfl
  rw [settled_mk, pieces_mk]
  exact hb.headed ht hr .whileStatement .whileLoop .kwWhile "while" rfl (by decide) (fun _ => id)
    (fun _ _ _ => rfl) fun vs hvs => by simp only [apply.eq_def, hvs]; rfl

theorem Stated.withObject {object body : Node}
    (ho : object.Told style strict) (hb : body.Uttered style strict)
    (hr : body.form.isIrregular = false) :
    (Node.mk line (.withObject object body)).Stated style strict := by
  refine .of_kind .withStatement body.shunned ?_ (shunned_of_eq (capturesElse_mk _ _)) rfl
  rw [settled_mk, pieces_mk]
  exact hb.headed ho hr .withStatement .withObject .kwWith "with" rfl (by decide) (fun _ => id)
    (fun _ _ _ => rfl) fun vs hvs => by simp only [apply.eq_def, hvs]; rfl

theorem Stated.ifElse {test body : Node} {other : Option Node}
    (ht : test.Told style strict) (hb : body.Uttered style strict)
    (hr : body.form.isIrregular = false) (ho : ∀ n ∈ other, n.Uttered style strict)
    (hor : ∀ n ∈ other, n.form.isIrregular = false) :
    (Node.mk line (.ifElse test body other)).Stated style strict := by
  cases other with
  | none =>
    refine .of_kind .ifStatement afterStatement ?_ ?_ rfl
    · rw [settled_mk, pieces_mk]
      refine hb.headed ht hr .ifStatement .choose .kwIf "if" rfl (by decide) body.shunned_subset
        (fun body u hu => ?_) fun vs hvs => by simp only [apply.eq_def, hvs]; rfl
      simp [Rule.endsAt, show u ≠ .kwElse from fun h => hu (h ▸ .head _)]
    · rw [shunned, capturesElse_mk]
      exact fun _ => id
  | some n =>
    have hother : Phrase strict true (.nonterminal .statement)
        (.node (if Layout.isIf (n, fun _ => []) then n.settled style
          else governed style (n, n.settled style)))
        (if Layout.isIf (n, n.pieces style) then n.pieces style .root
          else Layout.controlled style (n, n.pieces style)) n.shunned := by
      have hif : Layout.isIf (n, n.pieces style) = Layout.isIf (n, fun _ => []) := rfl
      rw [hif]
      split
      · exact (ho n rfl).stated
      · exact (ho n rfl).controlled (hor n rfl)
    refine .of_kind .ifStatement n.shunned ?_ (shunned_of_eq (capturesElse_mk _ _)) rfl
    rw [settled_mk, pieces_mk]
    show Phrase strict true _ _ ([word "if", space] ++ Layout.parens (test.pieces style .root) ++
      [space] ++ (Layout.beforeElse style (body, body.pieces style) ++ [space, word "else", space] ++
        _)) n.shunned
    simp only [List.append_assoc, List.cons_append, List.nil_append]
    exact .ruleBefore .choose (.mark .kwIf "if" rfl (.blank (ht.header (.blank
      (.cons (hb.beforeElse hr) (.blank (.mark .kwElse "else" rfl (.blank (.single hother))))
        rfl))))) rfl
      (fun u _ => by simp [Rule.endsAt]) (by decide)

theorem Stated.doWhile {test body : Node} (ht : test.Told style strict)
    (hb : body.Uttered style strict) (hr : body.form.isIrregular = false) :
    (Node.mk line (.doWhile body test)).Stated style strict := by
  refine .of_kind .doStatement [] ?_ nofun rfl
  rw [settled_mk, pieces_mk]
  show Phrase strict true _ _ ([word "do", space] ++ Layout.block (body, body.pieces style) ++
    [space, word "while", space] ++ Layout.parens (test.pieces style .root) ++ Layout.semicolon) []
  simp only [List.append_assoc, List.cons_append, List.nil_append]
  exact .ruleBefore .doWhile (.mark .kwDo "do" rfl (.blank (.cons (hb.inBraces hr) (.blank
    (.mark .kwWhile "while" rfl (.blank (ht.header (.markEnd .semicolon ";" rfl rfl .nil))))) rfl)))
    rfl (fun t _ => by simp [Rule.endsAt]) (by decide)

/-! ## Headers of loops -/

/-- The symbols and values of something that may be left out. -/
def optSymbols (s : GrammarSymbol) (n : Option Node) : List GrammarSymbol :=
  if n.isSome then [s] else []

def optValues (style : Style) (n : Option Node) : List Value :=
  n.toList.map fun m => .node (m.settled style)

theorem headerPart_phrases {s : GrammarSymbol} {n : Option Node} {p : Place}
    (hn : ∀ m ∈ n, Phrase strict false s (.node (m.settled style)) (m.pieces style p) awkward)
    {needs rests : Bool} {ss : List GrammarSymbol} {vs : List Value} {pieces : List Piece}
    {refused : List Terminal} (h : Phrases strict false rests ss vs pieces refused) :
    Phrases strict needs rests (optSymbols s n ++ .terminal .semicolon :: ss)
      (optValues style n ++ .token (.of .semicolon ";") :: vs)
      (Layout.headerPart (n.map fun m => (m, m.pieces style)) p ++ pieces) refused := by
  cases n with
  | none => exact .mark .semicolon ";" rfl h
  | some m =>
    show Phrases strict needs rests _ _ (m.pieces style p ++ [word ";", space] ++ pieces) refused
    rw [List.append_assoc]
    exact .cons (hn m rfl) (.mark .semicolon ";" rfl (.blank h)) rfl

theorem forRule_mem : ∀ a b c : Bool, (⟨.forStatement, .terminal .kwFor :: .terminal .lparen ::
    ((if a then [.nonterminal .forInit] else []) ++ .terminal .semicolon ::
      ((if b then [.nonterminal .expression] else []) ++ .terminal .semicolon ::
        ((if c then [.nonterminal .expression] else []) ++ [.terminal .rparen,
          .nonterminal .statement]))), .forLoop⟩ : Rule) ∈ Rule.all.toList := by
  decide +kernel

theorem apply_forLoop_optValues (init test step : Option Node) (body : Node) (a b c d e : Token) :
    apply .forLoop none (.token a :: .token b :: (optValues style init ++ .token c ::
      (optValues style test ++ .token d :: (optValues style step ++ [.token e, .node body])))) =
      .ok (.node (.mk none (.forLoop (init.map (settled style)) (test.map (settled style))
        (step.map (settled style)) body))) := by
  cases init <;> cases test <;> cases step <;> rfl

theorem Stated.forLoop {init test step : Option Node} {body : Node}
    (hi : ∀ n ∈ init, Phrase strict false (.nonterminal .forInit) (.node (n.settled style))
      (n.pieces style Layout.initPlace) awkward)
    (ht : ∀ n ∈ test, n.Told style strict) (hstep : ∀ n ∈ step, n.Told style strict)
    (hb : body.Uttered style strict) (hr : body.form.isIrregular = false) :
    (Node.mk line (.forLoop init test step body)).Stated style strict := by
  have hbody := hb.controlled hr
  have hclose : Phrases strict false true [.terminal .rparen, .nonterminal .statement]
      [.token (.of .rparen ")"), .node (governed style (body, body.settled style))]
      (word ")" :: space :: Layout.controlled style (body, body.pieces style)) body.shunned :=
    .mark .rparen ")" rfl (.blank (.single hbody))
  have hlast : Phrases strict false true (optSymbols (.nonterminal .expression) step ++
      [.terminal .rparen, .nonterminal .statement]) (optValues style step ++ [.token (.of .rparen ")"),
        .node (governed style (body, body.settled style))])
      (((step.map fun n => (n, n.pieces style)).map Layout.alone).getD [] ++
        word ")" :: space :: Layout.controlled style (body, body.pieces style)) body.shunned := by
    cases step with
    | none => exact hclose
    | some n =>
      exact .cons ((hstep n rfl).toExpression (p := .root) trivial) hclose rfl
  refine .of_kind .forStatement body.shunned ?_ (shunned_of_eq (capturesElse_mk _ _)) rfl
  rw [settled_mk, pieces_mk]
  show Phrase strict true _ _ ([word "for", space] ++ Layout.parens (Layout.headerPart _ _ ++
    Layout.headerPart _ _ ++ _) ++ [space] ++ Layout.controlled style (body, body.pieces style)) body.shunned
  rw [Layout.parens]
  simp only [List.append_assoc, List.cons_append, List.nil_append]
  have hform : settledForm style ((Form.forLoop init test step body).map fun n => (n, n.settled style)) =
      .forLoop (init.map (settled style)) (test.map (settled style)) (step.map (settled style))
        (governed style (body, body.settled style)) := by
    simp [Form.map, settledForm, Function.comp_def]
  rw [hform]
  exact .rule .forLoop (.mark .kwFor "for" rfl (.blank (.mark .lparen "(" rfl (headerPart_phrases hi
    (headerPart_phrases (fun n hn => (ht n hn).toExpression (p := .root) trivial) hlast)))))
    (apply_forLoop_optValues init test step _ _ _ _ _ _)
    (Rule.isFree_iff.2 ⟨forRule_mem init.isSome test.isSome step.isSome, by simp⟩)

theorem Stated.forInDeclared {kind : String} {k l : Option Nat}
    {name object body : Node} (hk : kind ∈ Terminal.kwVar.spellings) (hn : name.Named .variable)
    (ho : object.Told style strict) (hb : body.Uttered style strict)
    (hr : body.form.isIrregular = false) :
    (Node.mk line (.forIn (.mk k (.declare kind [.mk l (.definition name none)])) object
      body)).Stated style strict := by
  have hbody := hb.controlled hr
  have hobject := ho.toExpression (p := .root) trivial
  have hinit : (Node.mk k (.declare kind [.mk l (.definition name none)])).pieces style
      Layout.initPlace = [word kind, space, word name.spelling] := by
    rw [pieces_mk]
    show [word kind, space] ++ Layout.definitions style true true
      [(.mk l (.definition name none), (Node.mk l (.definition name none)).pieces style)] ++ [] = _
    have hdef : (Node.mk l (.definition name none)).pieces style ⟨.plain, false, true⟩ =
        [word name.spelling] := by
      rw [pieces_mk]
      show name.pieces style _ ++ [] = _
      rw [hn.pieces_eq style, List.append_nil]
    simp [Layout.definitions, hdef]
  refine .of_kind .forInVarStatement body.shunned ?_ (shunned_of_eq (capturesElse_mk _ _)) rfl
  rw [settled_mk, pieces_mk]
  show Phrase strict true _ _ ([word "for", space] ++ Layout.parens ((Node.mk k (.declare kind
    [.mk l (.definition name none)])).pieces style Layout.initPlace ++ [space, word "in", space] ++
      object.pieces style .root) ++ [space] ++ Layout.controlled style (body, body.pieces style)) body.shunned
  rw [hinit, Layout.parens]
  simp only [List.append_assoc, List.cons_append, List.nil_append]
  refine Phrase.of_unplaced (.rule .forInDeclared (.mark .kwFor "for" rfl (.blank (.mark .lparen "(" rfl
    (.mark .kwVar kind (Terminal.marks_iff.2 ⟨rfl, hk⟩) (.blank (.name hn.identifier.own
    hn.identifier.name (.spaced .kwIn "in" (by decide) (.blank (.cons hobject (.mark .rparen ")" rfl
    (.blank (.single hbody))) rfl))))))))) rfl rfl) ?_
  simp [Value.unplaced, unplaced_mk, Form.map, settledForm, settled_mk, hn.settled_eq,
    Build.symbol, Token.of]

theorem Stated.forIn {target object body : Node}
    (ht : target.Told style strict) (htarget : target.form.isTarget = true)
    (ho : object.Told style strict) (hrank : 3 ≤ object.form.level.rank)
    (hpower : ∀ k, object.form.level = .binary k → Chain.power "in" < k)
    (hb : body.Uttered style strict) (hr : body.form.isIrregular = false) :
    (Node.mk line (.forIn target object body)).Stated style strict := by
  have hbody := hb.controlled hr
  have hknown : Layout.initPlace.IsKnown := trivial
  have hleft := (ht.speaks Layout.initPlace hknown false (by simp)).toChain (m := Chain.power "in")
    (Nat.le_trans (by decide) (rank_of_isTarget htarget _)) fun k hk => by
      have := rank_of_isTarget htarget Layout.initPlace
      rw [hk] at this
      exact absurd this (by decide : ¬6 ≤ 3)
  have hlevel : object.levelAt .root = .primary ∨ object.levelAt .root = object.form.level := by
    rw [levelAt]
    split
    · exact .inl rfl
    · exact .inr rfl
  have hright := (ho.speaks .root (by simp) false (by simp)).toChain (m := Chain.power "in" + 1)
    (by obtain h | h := hlevel <;> rw [h]; exacts [by decide, hrank]) fun k hk => by
      obtain h | h := hlevel
      · rw [h] at hk
        cases hk
      · exact hpower k (h ▸ hk)
  have hsum : Sums strict false (Chain.power "in") _ _ _ :=
    hleft.join hright (target.line_settled style) (t := .kwIn) (by decide) (by decide)
      (by simp [refused_of_isTarget htarget])
  have hexpr := (Speaks.toExpression (l := .binary (Chain.power "in")) hsum).refuse
    (refused_subset object _)
  refine .of_kind .forInStatement body.shunned ?_ (shunned_of_eq (capturesElse_mk _ _)) rfl
  rw [settled_mk, pieces_mk]
  show Phrase strict true _ _ ([word "for", space] ++ Layout.parens (target.pieces style
    Layout.initPlace ++ [space, word "in", space] ++ object.pieces style .root) ++ [space] ++
      Layout.controlled style (body, body.pieces style)) body.shunned
  rw [Layout.parens, List.append_assoc (target.pieces style _),
    List.append_assoc, List.append_assoc, List.cons_append, List.append_assoc]
  exact .rule .forIn (.mark .kwFor "for" rfl (.blank (.mark .lparen "(" rfl (.cons hexpr (.mark .rparen ")" rfl
    (.blank (.single hbody))) rfl)))) rfl rfl

/-! ## Plain statements -/

theorem Stated.empty : (Node.mk line .empty).Stated style strict := by
  refine .of_kind .emptyStatement [] ?_ nofun rfl
  rw [settled_mk, pieces_mk]
  exact .rule .empty (.markEnd .semicolon ";" rfl rfl .nil) rfl rfl

theorem Stated.debugger : (Node.mk line .debugger).Stated style strict := by
  refine .of_kind .debuggerStatement [] ?_ nofun rfl
  rw [settled_mk, pieces_mk]
  exact .rule .debugger (.mark .kwDebugger "debugger" rfl (.markEnd .semicolon ";" rfl rfl .nil)) rfl rfl

theorem Stated.simple {n : Node} (hn : n.Told style strict) :
    (Node.mk line (.simple n)).Stated style strict := by
  have hlead := ((hn.speaks ⟨.plain, true, false⟩ (by simp) true fun _ => rfl).toExpression.refuse
    (refused_subset n _))
  refine .of_kind .expressionStatement [] ?_ nofun rfl
  rw [settled_mk, pieces_mk]
  exact .rule .simple (.cons hlead (.markEnd .semicolon ";" rfl rfl .nil) rfl) rfl rfl

theorem Stated.labeled {label : String} (hl : IsIdentifier label) {body : Node}
    (hb : body.Stated style strict) : (Node.mk line (.labeled label body)).Stated style strict := by
  refine .of_kind .labeledStatement body.shunned ?_ (shunned_of_eq (capturesElse_mk _ _)) rfl
  rw [settled_mk, pieces_mk]
  exact .rule .labeled (.name hl.own hl.name (.mark .colon ":" rfl (.blank (.single hb)))) rfl rfl

/-- How the grammar names statements that leave a function. -/
def exitParts : ExitKind → Nonterminal × Terminal × Label
  | .returning => (.returnStatement, .kwReturn, .returnValue)
  | .throwing => (.throwStatement, .kwThrow, .throwValue)

/-- How the grammar names statements that leave a loop. -/
def jumpParts : JumpKind → Nonterminal × Terminal × Label
  | .breaking => (.breakStatement, .kwBreak, .breakLoop)
  | .continuing => (.continueStatement, .kwContinue, .continueLoop)

theorem Stated.worded {n : Node} (parts : Nonterminal × Terminal × Label) (k : String)
    {ss : List GrammarSymbol} {vs : List Value} {pieces : List Piece}
    (h : Phrases strict false true ss vs pieces [])
    (hp : n.pieces style .root = word k :: pieces)
    (ha : apply parts.2.2 none (.token (.of parts.2.1 k) :: vs) = .ok (.node (n.settled style)))
    (hrule : Rule.isFree ⟨parts.1, .terminal parts.2.1 :: ss, parts.2.2⟩ = true ∧
      Rule.isFree ⟨.statement, [.nonterminal parts.1], .pass⟩ = true)
    (hk : parts.2.1.marks k = true) : n.Stated style strict := by
  refine .of_kind parts.1 [] ?_ nofun hrule.2
  rw [hp]
  exact .rule _ (.mark _ k hk h) ha hrule.1

theorem semicolon_phrases : Phrases strict false true [.terminal .semicolon]
    [.token (.of .semicolon ";")] [word ";"] [] :=
  .markEnd .semicolon ";" rfl rfl .nil

theorem Stated.exit {kind : ExitKind} {value : Option Node} (hv : ∀ n ∈ value, n.Told style strict)
    (hk : kind = .returning ∨ value.isSome = true) :
    (Node.mk line (.exit kind value)).Stated style strict := by
  cases value with
  | none =>
    obtain rfl : kind = .returning := hk.resolve_right nofun
    exact .worded (exitParts .returning) "return" semicolon_phrases (by rw [pieces_mk]; rfl)
      (by rw [settled_mk]; rfl) (by decide) (by decide)
  | some n =>
    have hn := (hv n rfl).toExpression (p := .root) trivial
    refine .worded (exitParts kind) (Layout.exitWord kind) (.blank (p := space)
      (.cons hn semicolon_phrases rfl)) ?_ ?_ ?_ ?_
    · rw [pieces_mk]
      rfl
    · rw [settled_mk]
      cases kind <;> rfl
    · cases kind <;> decide
    · cases kind <;> decide

theorem Stated.jump {kind : JumpKind} {label : Option String} (hl : ∀ k ∈ label, IsIdentifier k) :
    (Node.mk line (.jump kind label)).Stated style strict := by
  have hk : (jumpParts kind).2.1.marks (Layout.jumpWord kind) = true := by cases kind <;> rfl
  cases label with
  | none =>
    refine .worded (jumpParts kind) (Layout.jumpWord kind) semicolon_phrases ?_ ?_ ?_ hk
    · rw [pieces_mk]
      rfl
    · rw [settled_mk]
      cases kind <;> rfl
    · cases kind <;> decide
  | some k =>
    have hname := hl k rfl
    have hne : k ≠ "" := by
      rintro rfl
      exact hname.name.ne_nil rfl
    refine .worded (jumpParts kind) (Layout.jumpWord kind) (.blank (p := space)
      (.name hname.own hname.name semicolon_phrases)) ?_ ?_ ?_ hk
    · rw [pieces_mk]
      show word (Layout.jumpWord kind) :: (if k = "" then [] else [space, word k]) ++ _ = _
      rw [if_neg hne]
      rfl
    · rw [settled_mk]
      cases kind <;> rfl
    · cases kind <;> decide

/-! ## Declarations -/

/-- A node is written as the definition of a variable. -/
def Defined (style : Style) (strict : Bool) (n : Node) : Prop :=
  ∀ forInit, Phrase strict false (.nonterminal .declaration) (.node (n.settled style))
    (n.pieces style ⟨.plain, false, forInit⟩) awkward

theorem defined_definition {name : Node} {value : Option Node} (hn : name.Named .variable)
    (hv : ∀ n ∈ value, n.Told style strict) :
    (Node.mk line (.definition name value)).Defined style strict := by
  intro forInit
  have hname := hn.pieces_eq style ((⟨.plain, false, forInit⟩ : Place).inside .member)
  rw [settled_mk, pieces_mk]
  cases value with
  | none =>
    show Phrase strict false _ _ (name.pieces style _ ++ []) awkward
    rw [hname]
    refine Phrase.of_unplaced (.rule .define (.name hn.identifier.own hn.identifier.name .nil) rfl
      rfl) ?_
    simp [Value.unplaced, unplaced_mk, Form.map, settledForm, hn.settled_eq, Build.symbol,
      Token.of]
  | some n =>
    have hvalue := ((hv n rfl).toAssignment
      (p := (⟨.plain, false, forInit⟩ : Place).inside .member) (by simp [Place.inside])).refuse
      (refused_subset n _)
    show Phrase strict false _ _ (name.pieces style _ ++ ([space, word "=", space] ++ _)) awkward
    rw [hname]
    refine Phrase.of_unplaced (.rule .define (.name hn.identifier.own hn.identifier.name (.blank
      (.mark .equal "=" rfl (.blank (.single hvalue))))) rfl rfl) ?_
    simp [Value.unplaced, unplaced_mk, Form.map, settledForm, hn.settled_eq, Build.symbol,
      Token.of]

theorem Defined.declarations {kind : String} (hk : kind ∈ Terminal.kwVar.spellings) {n : Node}
    {ns : List Node} (h : ∀ m ∈ n :: ns, m.Defined style strict) (forInit : Bool)
    {before blanks : List Piece} (hbefore : ∀ p ∈ before, p.isBlank = true)
    (hblanks : AreBlank blanks) :
    Phrase strict false (.nonterminal .declarations)
      (.node (.mk none (.declare kind ((n :: ns).map (settled style)))))
      (word kind :: (before ++ (n.pieces style ⟨.plain, false, forInit⟩ ++
        ns.flatMap fun m => word "," :: (blanks ++ m.pieces style ⟨.plain, false, forInit⟩))))
      awkward := by
  obtain ⟨hn, hns⟩ := List.forall_mem_cons.1 h
  have hmark : Terminal.kwVar.marks kind = true := Terminal.marks_iff.2 ⟨rfl, hk⟩
  obtain rfl | hne := eq_or_ne ns []
  · rw [List.flatMap_nil, List.append_nil]
    exact .rule .declare (.mark .kwVar kind hmark (.pads (.single (hn forInit)) hbefore)) rfl rfl
  · have hmore := Phrase.moreNodes (m := .moreDeclarations) hblanks hne
      (fun m hm => hns m hm forInit) rfl
    refine .rule .declare (.mark .kwVar kind hmark (.pads (.cons (hn forInit)
      (.single hmore) rfl) hbefore)) ?_ rfl
    simp [apply.eq_def, Token.of]

theorem definitions_eq (style : Style) (inHeader forInit : Bool) (n : Node) (ns : List Node) :
    ∃ before blanks after, (∀ p ∈ before, p.isBlank = true) ∧ AreBlank blanks ∧
      (∀ p ∈ after, p.isBlank = true) ∧ (inHeader = true → after = []) ∧
      space :: Layout.definitions style inHeader forInit
          ((n :: ns).map fun m => (m, m.pieces style)) =
        before ++ (n.pieces style ⟨.plain, false, forInit⟩ ++
          ns.flatMap fun m => word "," :: (blanks ++ m.pieces style ⟨.plain, false, forInit⟩)) ++
        after := by
  unfold Layout.definitions
  dsimp only
  split
  · rename_i hstacked
    refine ⟨[space, deeper], [newline, indent], [shallower], by simp [Piece.isBlank],
      by simp [AreBlank, Piece.isBlank], by simp [Piece.isBlank], fun hin => ?_, ?_⟩
    · simp [hin] at hstacked
    · simp [Layout.intercalate_cons, List.flatMap_map]
  · refine ⟨[space], [space], [], by simp [Piece.isBlank], by simp [AreBlank, Piece.isBlank],
      by simp, fun _ => rfl, ?_⟩
    simp [Layout.intercalate_cons, List.flatMap_map, Layout.comma]

theorem settled_declare (kind : String) (ns : List Node) :
    (Node.mk line (.declare kind ns)).settled style = .mk none (.declare kind (ns.map (settled style))) := by
  rw [settled_mk]
  simp [Form.map, settledForm]

theorem Stated.declare {kind : String} (hk : kind ∈ Terminal.kwVar.spellings) {ns : List Node}
    (hne : ns ≠ []) (h : ∀ n ∈ ns, n.Defined style strict) :
    (Node.mk line (.declare kind ns)).Stated style strict := by
  obtain ⟨n, ns, rfl⟩ := List.exists_cons_of_ne_nil hne
  obtain ⟨before, blanks, after, hbefore, hblanks, hafter, -, heq⟩ :=
    definitions_eq style false false n ns
  have hdecl := Defined.declarations hk h false hbefore hblanks
  refine .of_kind .varStatement [] ?_ nofun rfl
  rw [settled_declare, pieces_mk]
  show Phrase strict true _ _ (word kind :: (space :: Layout.definitions style false false _) ++
    [word ";"]) []
  rw [heq, List.cons_append, List.append_assoc _ after, ← List.cons_append]
  exact .rule .first (.cons hdecl (.pads semicolon_phrases hafter) rfl) rfl rfl

theorem Defined.initial {kind : String} (hk : kind ∈ Terminal.kwVar.spellings) {ns : List Node}
    (hne : ns ≠ []) (h : ∀ n ∈ ns, n.Defined style strict) :
    Phrase strict false (.nonterminal .forInit) (.node ((Node.mk line (.declare kind ns)).settled style))
      ((Node.mk line (.declare kind ns)).pieces style Layout.initPlace) awkward := by
  obtain ⟨n, ns, rfl⟩ := List.exists_cons_of_ne_nil hne
  obtain ⟨before, blanks, after, hbefore, hblanks, -, hnil, heq⟩ :=
    definitions_eq style true true n ns
  obtain rfl := hnil rfl
  have hdecl := Defined.declarations hk h true hbefore hblanks
  rw [settled_declare, pieces_mk]
  show Phrase strict false _ _ (word kind :: (space :: Layout.definitions style true true _) ++ [])
    awkward
  rw [heq, List.append_nil, List.append_nil]
  exact hdecl.pass rfl

theorem Stated.functionDeclaration {name : Node} (hn : name.Named .functionName)
    {params body : List Node} (hp : ∀ n ∈ params, n.Named .parameter)
    (hb : ∀ n ∈ body, n.Stated style strict) :
    (Node.mk line (.function .declaration (some name) params body)).Stated style strict := by
  have htail := Stated.function hp hb
  refine .of_kind .functionDeclaration [.slash, .slashEqual] ?_ (slash_shunned _) rfl
  rw [settled_mk, pieces_mk]
  show Phrase strict true _ _ ([word "function", space] ++ name.pieces style .root ++ _ ++ [space] ++ _)
    [.slash, .slashEqual]
  rw [hn.pieces_eq style, List.append_assoc, List.append_assoc]
  refine Phrase.of_unplaced (.rule .declareFunction (.mark .kwFunction "function" rfl (.blank
    (.name hn.identifier.own hn.identifier.name htail))) rfl rfl) ?_
  simp [Value.unplaced, unplaced_mk, Form.map, settledForm, symbols_parameterValues style hp,
    hn.settled_eq, Build.symbol, Token.of]

/-! ## Clauses -/

/-- The nonterminal of a branch. -/
def clauseKind (n : Node) : Nonterminal :=
  match n.form with
  | .branch none _ => .defaultClause
  | _ => .caseClause

/-- A node is written as a branch of a switch. -/
def Branched (style : Style) (strict : Bool) (n : Node) : Prop :=
  Phrase strict true (.nonterminal (clauseKind (n.settled style))) (.node (n.settled style)) (n.pieces style .root)
    afterStatement

theorem branched_branch {test : Option Node} {body : List Node}
    (ht : ∀ n ∈ test, n.Told style strict) (hb : ∀ n ∈ body, n.Stated style strict) :
    (Node.mk line (.branch test body)).Branched style strict := by
  have hform : (Node.mk line (.branch test body)).settled style =
      .mk none (.branch (test.map (settled style)) (body.map (settled style))) := by
    rw [settled_mk]
    simp [Form.map, settledForm, Function.comp_def]
  have hbody : Layout.branchBody (body.map fun n => (n, n.pieces style)) =
      newline :: body.flatMap fun n => indent :: n.pieces style .root ++ [newline] := by
    simp [Layout.branchBody, Layout.alone, List.flatMap_map]
  rw [Branched, hform, pieces_mk]
  cases test with
  | none =>
    show Phrase strict true (.nonterminal .defaultClause) _ (word "default:" ::
      Layout.branchBody _) afterStatement
    rw [hbody]
    obtain rfl | hne := eq_or_ne body []
    · exact .rule .defaultBranch (.pair (t := .kwDefault) (u := .colon) (j := "default") (k := ":")
        (by decide) (by decide) (by decide) (by decide) (by decide) (by decide)
        (.newline .nil) fun _ => rfl) rfl rfl
    · refine .rule .defaultBranch (.pair (t := .kwDefault) (u := .colon) (j := "default") (k := ":")
        (by decide) (by decide) (by decide) (by decide) (by decide) (by decide) (.newline (.single
        (Stated.statements hne hb))) fun _ => rfl) ?_ rfl
      simp [apply.eq_def]
  | some n =>
    have htest := (ht n rfl).toExpression (p := .root) trivial
    show Phrase strict true (.nonterminal .caseClause) _ ([word "case", space] ++
      n.pieces style .root ++ word ":" :: Layout.branchBody _) afterStatement
    simp only [hbody, List.cons_append, List.nil_append]
    obtain rfl | hne := eq_or_ne body []
    · exact .rule .caseBranch (.mark .kwCase "case" rfl (.blank (.cons htest (.markEnd .colon ":" rfl rfl
        (.newline .nil)) rfl))) rfl rfl
    · refine .rule .caseBranch (.mark .kwCase "case" rfl (.blank (.cons htest (.markEnd .colon ":" rfl rfl
        (.newline (.single (Stated.statements hne hb)))) rfl))) ?_ rfl
      simp [apply.eq_def]

theorem branches_eq_spread (ns : List Node) :
    Layout.branches (ns.map fun n => (n, n.pieces style)) = spread (ns.map fun n =>
      (n.settled style, halfIndent :: n.pieces style .root, Layout.afterBranch n)) := by
  induction ns with
  | nil => rfl
  | cons n ns ih =>
    cases ns with
    | nil => rfl
    | cons m ns => exact congrArg (_ ++ ·) ih

theorem clauseKind_cases (n : Node) :
    clauseKind n = .defaultClause ∨ clauseKind n = .caseClause := by
  unfold clauseKind
  split
  · exact .inl rfl
  · exact .inr rfl

theorem repeats_clauses : Phrase.Repeats .clauses clauseKind afterStatement where
  one n := by obtain h | h := clauseKind_cases n <;> rw [h] <;> decide
  grow n := by obtain h | h := clauseKind_cases n <;> rw [h] <;> decide
  plain := by decide
  full n := by obtain h | h := clauseKind_cases n <;> rw [h] <;> rfl
  first n := by obtain h | h := clauseKind_cases n <;> rw [h] <;> decide

theorem areBlank_afterBranch {n : Node} (h : ∃ test body, n.form = .branch test body) :
    AreBlank (Layout.afterBranch n) := by
  obtain ⟨test, body, h⟩ := h
  rw [Layout.afterBranch, Layout.bodyHolds?, h]
  cases body <;> simp [AreBlank]

theorem Branched.clauses {ns : List Node} (hne : ns ≠ [])
    (h : ∀ n ∈ ns, n.Branched style strict)
    (hform : ∀ n ∈ ns, ∃ test body, n.form = .branch test body) :
    Phrase strict true (.nonterminal .clauses) (.list (ns.map fun n => .node (n.settled style)))
      (Layout.branches (ns.map fun n => (n, n.pieces style))) afterStatement := by
  have hphrase : ∀ i ∈ ns.map fun n =>
      (n.settled style, halfIndent :: n.pieces style .root, Layout.afterBranch n),
      Phrase strict true (.nonterminal (clauseKind i.1)) (.node i.1) i.2.1 afterStatement := by
    intro i hi
    obtain ⟨n, hn, rfl⟩ := List.mem_map.1 hi
    exact (h n hn).blank
  have hblank : ∀ i ∈ ns.map fun n =>
      (n.settled style, halfIndent :: n.pieces style .root, Layout.afterBranch n), AreBlank i.2.2 := by
    intro i hi
    obtain ⟨n, hn, rfl⟩ := List.mem_map.1 hi
    exact areBlank_afterBranch (hform n hn)
  have := Phrase.spread repeats_clauses (by simpa using hne) hblank hphrase
  rwa [List.map_map, ← branches_eq_spread] at this

theorem Stated.switch {subject : Node} {ns : List Node} (hs : subject.Told style strict)
    (hn : ∀ n ∈ ns, n.Branched style strict)
    (hform : ∀ n ∈ ns, ∃ test body, n.form = .branch test body) :
    (Node.mk line (.switch subject ns)).Stated style strict := by
  have hsettled : (Node.mk line (.switch subject ns)).settled style =
      .mk none (.switch (subject.settled style) (ns.map (settled style))) := by
    rw [settled_mk]
    simp [Form.map, settledForm]
  refine .of_kind .switchStatement [] ?_ nofun rfl
  rw [hsettled, pieces_mk]
  show Phrase strict true _ _ ([word "switch", space] ++ Layout.parens (subject.pieces style .root) ++
    [space] ++ if (ns.map fun n => (n, n.pieces style)).isEmpty then Layout.noBraces
      else Layout.braces (Layout.branches (ns.map fun n => (n, n.pieces style)))) []
  rw [List.append_assoc, List.append_assoc]
  obtain rfl | hne := eq_or_ne ns []
  · exact .rule .switch (.mark .kwSwitch "switch" rfl (.blank (hs.header (.blank (.braces .nil))))) rfl rfl
  · have hclose : Phrases strict true true [.terminal .rbrace] [.token (.of .rbrace "\x7d")]
        [shallower, indent, word "\x7d"] [] :=
      .blank (.blank (.markEnd .rbrace "\x7d" rfl rfl .nil))
    rw [if_neg (by simpa using hne), Layout.braces]
    simp only [List.cons_append, List.nil_append]
    refine .rule .switch (.mark .kwSwitch "switch" rfl (.blank (hs.header (.blank
      (.markEnd .lbrace "\x7b" rfl rfl (.newline (.blank (.cons (Branched.clauses hne hn hform)
      hclose rfl)))))))) ?_ rfl
    simp [apply.eq_def]

/-- A node is written as what comes after the block of a `try`. -/
def Caught (style : Style) (strict : Bool) (kind : Nonterminal) (n : Node) : Prop :=
  Phrase strict true (.nonterminal kind) (.node (n.settled style)) (n.pieces style .root) []

theorem caught_handler {name : Node} (hn : name.Named .caught) {body : List Node}
    (hb : ∀ n ∈ body, n.Stated style strict) :
    (Node.mk line (.handler name body)).Caught style strict .catchClause := by
  rw [Caught, settled_mk, pieces_mk]
  show Phrase strict true _ _ ([word "catch", space] ++ Layout.parens (name.pieces style .root) ++
    [space] ++ Layout.braced _) []
  rw [hn.pieces_eq style, List.append_assoc, List.append_assoc]
  refine Phrase.of_unplaced (.rule .handler (.mark .kwCatch "catch" rfl (.blank (.mark .lparen "(" rfl
    (.name hn.identifier.own hn.identifier.name (.mark .rparen ")" rfl (.blank (.single
    (Stated.block hb)))))))) rfl rfl) ?_
  simp [Value.unplaced, unplaced_mk, Form.map, settledForm, hn.settled_eq, Build.symbol,
    Token.of, blockBody]

theorem caught_finalizer {body : List Node} (hb : ∀ n ∈ body, n.Stated style strict) :
    (Node.mk line (.finalizer body)).Caught style strict .finallyClause := by
  rw [Caught, settled_mk, pieces_mk]
  exact .rule .finalizer (.mark .kwFinally "finally" rfl (.blank (.single (Stated.block hb)))) rfl rfl

theorem Stated.tryBlock {body : List Node} {caught last : Option Node}
    (hb : ∀ n ∈ body, n.Stated style strict)
    (hc : ∀ n ∈ caught, n.Caught style strict .catchClause ∧ ∃ name body, n.form = .handler name body)
    (hl : ∀ n ∈ last, n.Caught style strict .finallyClause ∧ ∃ body, n.form = .finalizer body)
    (hsome : caught.isSome = true ∨ last.isSome = true) :
    (Node.mk line (.tryBlock body caught last)).Stated style strict := by
  have handler : ∀ n ∈ caught, isHandler (n.settled style) = true ∧ isFinalizer (n.settled style) = false := by
    intro n hn
    obtain ⟨line, form⟩ := n
    obtain ⟨-, name, body, rfl : form = _⟩ := hc _ hn
    rw [settled_mk]
    exact ⟨rfl, rfl⟩
  have finalizer : ∀ n ∈ last, isHandler (n.settled style) = false ∧ isFinalizer (n.settled style) = true := by
    intro n hn
    obtain ⟨line, form⟩ := n
    obtain ⟨-, body, rfl : form = _⟩ := hl _ hn
    rw [settled_mk]
    exact ⟨rfl, rfl⟩
  have hblock := Stated.block hb
  refine .of_kind .tryStatement [] ?_ nofun rfl
  rw [settled_mk, pieces_mk]
  cases caught with
  | none =>
    cases last with
    | none => simp at hsome
    | some l =>
      show Phrase strict true _ _ ([word "try", space] ++ Layout.braced _ ++ [] ++
        (space :: l.pieces style .root)) []
      simp only [List.append_nil, List.cons_append, List.nil_append]
      refine .rule .tryBlock (.mark .kwTry "try" rfl (.blank (.cons hblock (.blank (.single
        (hl l rfl).1)) rfl))) ?_ rfl
      simp [apply.eq_def, blockBody, finalizer l rfl, settledForm, Form.map]
  | some c =>
    cases last with
    | none =>
      show Phrase strict true _ _ ([word "try", space] ++ Layout.braced _ ++
        (space :: c.pieces style .root) ++ []) []
      simp only [List.append_nil, List.cons_append, List.nil_append]
      refine .rule .tryBlock (.mark .kwTry "try" rfl (.blank (.cons hblock (.blank (.single
        (hc c rfl).1)) rfl))) ?_ rfl
      simp [apply.eq_def, blockBody, handler c rfl, settledForm, Form.map]
    | some l =>
      show Phrase strict true _ _ ([word "try", space] ++ Layout.braced _ ++
        (space :: c.pieces style .root) ++ (space :: l.pieces style .root)) []
      simp only [List.append_assoc, List.cons_append, List.nil_append]
      refine .rule .tryBlock (.mark .kwTry "try" rfl (.blank (.cons hblock (.blank (.cons (hc c rfl).1
        (.blank (.single (hl l rfl).1)) rfl)) rfl))) ?_ rfl
      simp [apply.eq_def, blockBody, handler c rfl, finalizer l rfl, settledForm, Form.map]

/-! ## Programs -/

theorem paragraphs_eq_spread (ns : List Node) :
    Layout.paragraphs (ns.map fun n => (n, n.pieces style)) =
      spread ((ns.filter (!·.form.isEmpty)).map fun n =>
        (n.settled style, indent :: n.pieces style .root, [newline, newline])) := by
  have hfilter : (ns.map fun n => (n, n.pieces style)).filter (!Layout.isEmpty ·) =
      (ns.filter (!·.form.isEmpty)).map fun n => (n, n.pieces style) := by
    simp [List.filter_map, Function.comp_def, Layout.isEmpty]
  rw [Layout.paragraphs, hfilter, List.map_map]
  induction ns.filter (!·.form.isEmpty) with
  | nil => rfl
  | cons n ns ih =>
    cases ns with
    | nil => simp [spread, Layout.alone]
    | cons m ns =>
      rw [List.map_cons, List.map_cons, Layout.intercalate_cons] at ih
      rw [List.map_cons, List.map_cons, Layout.intercalate_cons, List.flatMap_cons,
        List.append_assoc [newline, newline], ih]
      simp [spread, Layout.alone]

theorem Stated.program {ns : List Node} (h : ∀ n ∈ ns, n.Stated style strict) :
    Phrase strict false (.nonterminal .program) (.node ((Node.mk line (.program ns)).settled style))
      ((Node.mk line (.program ns)).pieces style .root) afterStatement := by
  have hform : (Node.mk line (.program ns)).settled style =
      .mk none (.program ((ns.filter (!·.form.isEmpty)).map (settled style))) := by
    rw [settled_mk, ← kept_map]
    rfl
  have hpieces : (Node.mk line (.program ns)).pieces style .root =
      Layout.paragraphs (ns.map fun n => (n, n.pieces style)) := by
    rw [pieces_mk]
    rfl
  rw [hform, hpieces, paragraphs_eq_spread]
  have h : ∀ n ∈ ns.filter (!·.form.isEmpty), n.Stated style strict :=
    fun n hn => h n (List.mem_filter.1 hn).1
  generalize ns.filter (!·.form.isEmpty) = ns at h
  obtain rfl | hne := eq_or_ne ns []
  · refine Phrase.of_unplaced (.rule .program .nil rfl rfl) ?_
    simp [Value.unplaced, unplaced_mk]
  · have hphrase : ∀ i ∈ ns.map fun n =>
        (n.settled style, indent :: n.pieces style .root, [newline, newline]),
        Phrase strict true (.nonterminal .statement) (.node i.1) i.2.1 afterStatement ∧
          AreBlank i.2.2 := by
      intro i hi
      obtain ⟨n, hn, rfl⟩ := List.mem_map.1 hi
      exact ⟨((h n hn).refuse n.shunned_subset).blank, by simp [AreBlank]⟩
    have hall := Phrase.spread (Phrase.repeats_statements (by decide)) (by simpa using hne)
      (fun i hi => (hphrase i hi).2) fun i hi => (hphrase i hi).1
    refine .of_rests (Phrase.of_unplaced (.rule .program (.single hall) rfl rfl) ?_)
    simp [Value.unplaced, unplaced_mk, Form.map, Function.comp_def]

end Node

end Debundle
