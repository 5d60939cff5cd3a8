import Debundle.Proofs.Reading.Chains
import Debundle.Proofs.Reading.Forming

/-!
# Headers of `for in` loops

Between the parentheses of a `for in` loop without a declaration stands one chain of operators. It
is read as the header of the loop exactly if all operators of the object bind tighter than `in`; a
declared name before the `in` leaves the object as it is (`parse_forIn_iff`).
-/
namespace Debundle

open Derivation Build Chain

/-! ## Derivations without a value -/

theorem Derivation.Alike.symm {d e : Derivation} (h : d.Alike e) : e.Alike d :=
  @Alike.rec (fun d e _ => e.Alike d) (fun ds es _ => List.Forall₂ Alike es ds)
    (fun h => .leaf ⟨h.1.symm, h.2.symm⟩) (fun _ ih => .node ih) .nil
    (fun _ _ h t => .cons h t) d e h

/-- Some tokens make up a derivation of a symbol that has no value. -/
def Lacks (s : GrammarSymbol) (tokens : List Token) (after : Terminal) : Prop :=
  ∃ d, Derives s d ∧ (∀ p, value d ≠ .ok p) ∧ d.leaves = tokens ∧ d.clear after = true

theorem Forms.lacks {r : Rule} {vs : List Value} {tokens : List Token} {after : Terminal}
    (hr : r ∈ Rule.all.toList) (h : FormsAll r.body vs tokens after)
    (ha : ∀ v, apply r.label none vs ≠ .ok v) (he : r.endsAt after = true) :
    Lacks (.nonterminal r.head) tokens after := by
  obtain ⟨i, hi⟩ := Array.getElem?_of_mem (Array.mem_toList_iff.1 hr)
  obtain ⟨ds, hds, hvs, hl, hc⟩ := h.exists_parts
  refine ⟨.node i ds, .node hi hds, fun p hp => ?_, hl, ?_⟩
  · obtain ⟨v, hv⟩ := apply_of_value hi hds hvs hp
    exact ha v hv
  · rw [clear, hc, mayPrecede_of_endsAt hi he]
    simp

theorem Lacks.unit {n : Nonterminal} (m : Nonterminal) (label : Label) {tokens : List Token} {after : Terminal}
    (h : Lacks (.nonterminal n) tokens after)
    (hr : (⟨m, [.nonterminal n], label⟩ : Rule) ∈ Rule.all.toList)
    (he : Rule.endsAt ⟨m, [.nonterminal n], label⟩ after = true) :
    Lacks (.nonterminal m) tokens after := by
  obtain ⟨i, hi⟩ := Array.getElem?_of_mem (Array.mem_toList_iff.1 hr)
  obtain ⟨d, hd, hv, hl, hc⟩ := h
  refine ⟨.node i [d], .node hi (.cons hd .nil), fun p hp => ?_, by simp [leaves, leavesAll, hl], ?_⟩
  · obtain ⟨qs, _ | ⟨hq, -⟩, -⟩ := (value_node_eq_ok_iff hi).1 (show value _ = .ok (p.1, p.2) from hp)
    exact hv _ hq
  · have hd : d.clear (firstClass (leavesAll []) after) = true := hc
    rw [clear, clearAll, hd, mayPrecede_of_endsAt hi he]
    simp [clearAll]

theorem parse_of_lacks {tokens : List Token} {text : String}
    (h : Lacks (.nonterminal .program) tokens .finish)
    (hs : SpelledBy (maskHashbang text.toList) tokens) (file : String) (t : Node) :
    (parse file text).result ≠ .ok t := by
  intro ht
  obtain ⟨d, hd, hv, rfl, hc⟩ := h
  obtain ⟨d', hread, halike⟩ := read_of_spelled hd hc hs
  obtain ⟨e, hread', ht⟩ := exists_derivation_of_parse ht
  obtain rfl : d' = e := Except.ok.inj (hread.symm.trans hread')
  obtain ⟨first, hw⟩ := tree_eq_ok_iff.1 ht
  obtain ⟨w, first', hw', -⟩ :=
    value_alike (Reader.derives_of_read hread) d _ first halike.symm hw
  exact hv _ hw'

/-! ## Expressions by their operators -/

/-- A sequence with one more item. -/
def Node.sequenced (x item : Node) : Node :=
  match x with
  | .mk line (.sequence items) => .mk line (.sequence (items ++ [item]))
  | x => .mk none (.sequence [x, item])

/-- Some tokens are an expression that does not begin with an assignment; the operators are those
that stand in no parentheses. -/
inductive Operated : Node → List String → List Token → Terminal → Prop
  | chain {x : Node} {ps : List (String × Node)} {tokens : List Token} {after : Terminal}
      (chain : Chained .unary x ps tokens after) :
      Operated (fold x ps) (ps.map Prod.fst) tokens after
  | conditional {x consequent alternative : Node} {ps : List (String × Node)}
      {tokens more rest : List Token} {after : Terminal}
      (condition : Chained .unary x ps tokens .question)
      (first : Forms (.nonterminal .assignment) (.node consequent) more .colon)
      (second : Forms (.nonterminal .assignment) (.node alternative) rest after) :
      Operated (.mk none (.conditional (fold x ps) consequent alternative))
        (ps.map Prod.fst ++ ["?"])
        (tokens ++ .of .question "?" :: (more ++ .of .colon ":" :: rest)) after
  | sequence {x item : Node} {operators : List String} {tokens more : List Token}
      {after : Terminal} (items : Operated x operators tokens .comma)
      (last : Forms (.nonterminal .assignment) (.node item) more after) :
      Operated (x.sequenced item) (operators ++ [","]) (tokens ++ .of .comma "," :: more) after

theorem apply_sequenced (x item : Node) (v : Value) :
    apply .sequence none [.node x, v, .node item] = .ok (.node (x.sequenced item)) := by
  obtain ⟨line, form⟩ := x
  cases form <;> rfl

theorem form_sequenced (x item : Node) : ∃ items, (x.sequenced item).form = .sequence items := by
  unfold Node.sequenced
  split <;> exact ⟨_, rfl⟩

theorem Forms.expression {v : Value} {tokens : List Token} {after : Terminal}
    (h : Forms (.nonterminal .conditional) v tokens after) :
    Forms (.nonterminal .expression) v tokens after :=
  (h.pass (m := .assignment) rfl).pass rfl

/-- With an operand and `in` before it, an expression is lengthened at the front of its first
chain. -/
theorem Operated.header {L E : Node} {operators : List String} {left object : List Token}
    {after : Terminal} (hl : Forms (.nonterminal .target) (.node L) left .kwIn)
    (ho : Operated E operators object after) :
    ∃ root, Forms (.nonterminal .expression) (.node root) (left ++ .of .kwIn "in" :: object) after ∧
      ((∃ y ps, E = fold y ps ∧ operators = ps.map Prod.fst ∧ root = fold L (("in", y) :: ps)) ∨
        (∃ o ∈ operators, power o = 0) ∧ ∀ l r, root.form ≠ .binary "in" l r) := by
  have hu : Forms (.nonterminal .unary) (.node L) left .kwIn :=
    (hl.pass (m := .update) rfl).pass rfl
  have lengthened : ∀ {y : Node} {ps : List (String × Node)} {object : List Token}
      {after : Terminal}, Chained .unary y ps object after →
      Forms (.nonterminal .binary) (.node (fold L (("in", y) :: ps)))
        (left ++ .of .kwIn "in" :: object) after := fun he =>
    (Chained.append (a := .of .kwIn "in") (.operand hu) (by decide) he).forms
  induction ho with
  | @chain y ps tokens after chain =>
    exact ⟨_, .expression ((lengthened chain).pass rfl), .inl ⟨y, ps, rfl, rfl, rfl⟩⟩
  | @conditional y consequent alternative ps tokens more rest after condition first second =>
    have parts := FormsAll.cons (lengthened condition) (.token .question "?"
      (.cons first (.token .colon ":" second.single rfl)) rfl)
    have := Forms.rule (n := .conditional) .conditional parts rfl rfl
    refine ⟨_, .expression (by simpa using this),
      .inr ⟨⟨"?", by simp, by decide⟩, fun l r h => ?_⟩⟩
    cases h
  | @sequence x item operators tokens more after items last ih =>
    obtain ⟨root, hroot, -⟩ := ih
    obtain ⟨all, hform⟩ := form_sequenced root item
    have parts := FormsAll.cons hroot (.token .comma "," last.single rfl)
    have := Forms.rule (n := .expression) .sequence parts (apply_sequenced root item _) rfl
    refine ⟨_, by simpa using this, .inr ⟨⟨",", by simp, by decide⟩, fun l r h => ?_⟩⟩
    rw [hform] at h
    cases h

/-! ## Loops -/

/-- The tokens of a `for in` loop. -/
def loopTokens (header body : List Token) : List Token :=
  .of .kwFor "for" :: .of .lparen "(" :: (header ++ .of .rparen ")" :: body)

theorem formsAll_loop {header body : Node} {tokens more : List Token}
    (hh : Forms (.nonterminal .expression) (.node header) tokens .rparen)
    (hb : Forms (.nonterminal .statement) (.node body) more .finish) :
    FormsAll [.terminal .kwFor, .terminal .lparen, .nonterminal .expression, .terminal .rparen,
        .nonterminal .statement]
      [.token (.of .kwFor "for"), .token (.of .lparen "("), .node header, .token (.of .rparen ")"),
        .node body] (loopTokens tokens more) .finish :=
  .token .kwFor "for" (.token .lparen "(" (.cons hh (.token .rparen ")" hb.single rfl)) rfl) rfl

theorem Forms.program {t : Node} {tokens : List Token}
    (h : Forms (.nonterminal .statement) (.node t) tokens .finish) :
    Forms (.nonterminal .program) (.node (.mk (some 1) (.program [t]))) tokens .finish :=
  .rule .program (Forms.single (.rule (n := .statements) .gather h.single rfl rfl)) rfl rfl

theorem Lacks.program {tokens : List Token}
    (h : Lacks (.nonterminal .statement) tokens .finish) :
    Lacks (.nonterminal .program) tokens .finish :=
  (h.unit .statements .gather (by decide) rfl).unit .program .program (by decide) rfl

theorem Forms.forIn {line : Option Nat} {left right body : Node} {tokens more : List Token}
    (hh : Forms (.nonterminal .expression) (.node (.mk line (.binary "in" left right))) tokens
      .rparen)
    (hb : Forms (.nonterminal .statement) (.node body) more .finish) :
    Forms (.nonterminal .program)
      (.node (.mk (some 1) (.program [.mk none (.forIn left right body)])))
      (loopTokens tokens more) .finish :=
  .program (.pass (.rule (n := .forInStatement) .forIn (formsAll_loop hh hb) rfl rfl) rfl)

theorem Lacks.forIn {header body : Node} {tokens more : List Token}
    (hno : ∀ left right, header.form ≠ .binary "in" left right)
    (hh : Forms (.nonterminal .expression) (.node header) tokens .rparen)
    (hb : Forms (.nonterminal .statement) (.node body) more .finish) :
    Lacks (.nonterminal .program) (loopTokens tokens more) .finish := by
  refine .program (.unit .statement .pass (n := .forInStatement) ?_ (by decide) rfl)
  refine Forms.lacks (r := ⟨.forInStatement, _, .forIn⟩) (by decide)
    (formsAll_loop hh hb) (fun v hv => ?_) rfl
  simp only [apply.eq_def, nodesOf_token, nodesOf_node, nodesOf_nil] at hv
  split at hv
  · rename_i hnodes
    rw [(List.cons.inj hnodes).1] at hno
    exact hno _ _ rfl
  · cases hv
  · cases hv

theorem Forms.forInDeclared {kind k : String} {object body : Node} {tokens more : List Token}
    (hk : (Token.of .name k).spellsKeyword = false)
    (ho : Forms (.nonterminal .expression) (.node object) tokens .rparen)
    (hb : Forms (.nonterminal .statement) (.node body) more .finish) :
    Forms (.nonterminal .program) (.node (.mk (some 1) (.program [.mk none (.forIn
        (.mk none (.declare kind [.mk none (.definition
          (.mk none (.symbol ⟨.variable, k, none, none⟩)) none)])) object body)])))
      (loopTokens (.of .kwVar kind :: .of .name k :: .of .kwIn "in" :: tokens) more) .finish := by
  have parts : FormsAll _ _
      (loopTokens (.of .kwVar kind :: .of .name k :: .of .kwIn "in" :: tokens) more) .finish :=
    .token .kwFor "for" (.token .lparen "(" (.token .kwVar kind (.token .name k (.token .kwIn "in"
      (.cons ho (.token .rparen ")" hb.single rfl)) rfl) hk) rfl) rfl) rfl
  refine (Forms.program (.pass (.rule (n := .forInVarStatement) .forInDeclared parts rfl rfl)
    rfl)).of_unplaced ?_
  simp [Value.unplaced, Node.unplaced_mk, Form.map, symbol, Token.of]

theorem unplaced_loop_inj {i j k m : Option Nat} {l r s x y z : Node}
    (h : (Node.mk i (.program [.mk j (.forIn l r s)])).unplaced =
      (Node.mk k (.program [.mk m (.forIn x y z)])).unplaced) :
    l.unplaced = x.unplaced ∧ r.unplaced = y.unplaced := by
  simp only [Node.unplaced_mk, Form.map, List.map_cons, List.map_nil, Node.mk.injEq,
    Form.program.injEq, List.cons.injEq, Form.forIn.injEq] at h
  exact ⟨h.2.1.2.1, h.2.1.2.2.1⟩

/-- The operators of the object bind tighter than `in`, if the loop is read as it was meant. -/
theorem tight_of_parse {file text : String} {L y S t : Node} {ps : List (String × Node)}
    {tokens body : List Token}
    (hh : Forms (.nonterminal .expression) (.node (fold L (("in", y) :: ps))) tokens .rparen)
    (hs : Forms (.nonterminal .statement) (.node S) body .finish)
    (htext : SpelledBy (maskHashbang text.toList) (loopTokens tokens body))
    (ht : (parse file text).result = .ok t)
    (hu : t.unplaced = (Node.mk none (.program [.mk none (.forIn L (fold y ps) S)])).unplaced) :
    ∀ p ∈ ps, power "in" < power p.1 := by
  have hroot := fold_unplaced L (("in", y) :: ps)
  by_cases hin : ∃ l r, (fold L (("in", y) :: ps)).form = .binary "in" l r
  · obtain ⟨l, r, hform⟩ := hin
    generalize fold L (("in", y) :: ps) = root at *
    obtain ⟨line, form⟩ := root
    obtain rfl : form = .binary "in" l r := hform
    obtain ⟨t', ht', hu'⟩ := parse_of_forms (.forIn hh hs) htext file
    obtain rfl : t' = t := Except.ok.inj (ht'.symm.trans ht)
    obtain ⟨hl, hr⟩ := unplaced_loop_inj (hu'.symm.trans hu)
    rw [Node.unplaced_mk, Form.map, hl, hr, ← fold_unplaced y ps] at hroot
    have hline : none = L.unplaced.line := by
      obtain ⟨line, form⟩ := L
      rw [Node.unplaced_mk]
      rfl
    rw [hline] at hroot
    intro p hp
    exact fold_cons_eq_iff.1 hroot (p.1, p.2.unplaced) (List.mem_map.2 ⟨p, hp, rfl⟩)
  · exact absurd ht (parse_of_lacks (.forIn (fun l r h => hin ⟨l, r, h⟩) hh hs) htext file t)

/-- A `for in` loop is read as such exactly if all operators of the object bind tighter than `in`.
With a declared name it is read as such for every object. -/
theorem parse_forIn_iff (file : String) {L E S : Node} {operators : List String}
    {left object body : List Token} (hl : Forms (.nonterminal .target) (.node L) left .kwIn)
    (ho : Operated E operators object .rparen)
    (hs : Forms (.nonterminal .statement) (.node S) body .finish) :
    (∀ text : String, SpelledBy (maskHashbang text.toList)
        (loopTokens (left ++ .of .kwIn "in" :: object) body) →
      ((∃ t, (parse file text).result = .ok t ∧ t.unplaced =
          (Node.mk none (.program [.mk none (.forIn L E S)])).unplaced) ↔
        ∀ o ∈ operators, power "in" < power o)) ∧
    ∀ (text kind k : String) (E : Node) (tokens : List Token),
      (Token.of .name k).spellsKeyword = false →
      Forms (.nonterminal .expression) (.node E) tokens .rparen →
      SpelledBy (maskHashbang text.toList)
        (loopTokens (.of .kwVar kind :: .of .name k :: .of .kwIn "in" :: tokens) body) →
      ∃ t, (parse file text).result = .ok t ∧ t.unplaced =
        (Node.mk none (.program [.mk none (.forIn (.mk none (.declare kind [.mk none (.definition
          (.mk none (.symbol ⟨.variable, k, none, none⟩)) none)])) E S)])).unplaced := by
  constructor
  · intro text htext
    obtain ⟨root, hh, ⟨y, ps, rfl, rfl, rfl⟩ | ⟨⟨o, ho, hpower⟩, hno⟩⟩ := ho.header hl
    · simp only [List.forall_mem_map]
      refine ⟨fun ⟨t, ht, hu⟩ => tight_of_parse hh hs htext ht hu, fun htight => ?_⟩
      rw [fold_cons_eq_iff.2 htight] at hh
      obtain ⟨t, ht, hu⟩ := parse_of_forms (.forIn hh hs) htext file
      exact ⟨t, ht, hu.trans (by simp [Node.unplaced_mk])⟩
    · constructor
      · rintro ⟨t, ht, -⟩
        exact absurd ht (parse_of_lacks (.forIn hno hh hs) htext file t)
      · intro htight
        have := htight o ho
        rw [hpower] at this
        exact absurd this (Nat.not_lt_zero _)
  · intro text kind k E tokens hk hE htext
    obtain ⟨t, ht, hu⟩ := parse_of_forms (.forInDeclared hk hE hs) htext file
    exact ⟨t, ht, hu.trans (by simp [Node.unplaced_mk])⟩

theorem Forms.reference {k : String} (hk : (Token.of .name k).spellsKeyword = false)
    (after : Terminal) :
    Forms (.nonterminal .target) (.node (.mk none (.symbol ⟨.reference, k, none, none⟩)))
      [.of .name k] after := by
  have hlead : Forms (.nonterminal .primaryLead)
      (.node (.mk none (.symbol ⟨.reference, k, none, none⟩))) [.of .name k] after :=
    .rule .reference (.token .name k (.nil after) hk) rfl rfl
  exact (((hlead.pass (m := .primary) rfl).pass (m := .member) rfl).pass (m := .construction)
    rfl).pass rfl

theorem parse_forIn_sum :
    ∃ t, (parse unnamedFile " for ( x in a + b ) ; ").result = .ok t ∧ t.unplaced =
      (Node.mk none (.program [.mk none (.forIn
        (.mk none (.symbol ⟨.reference, "x", none, none⟩))
        (.mk none (.binary "+" (.mk none (.symbol ⟨.reference, "a", none, none⟩))
          (.mk none (.symbol ⟨.reference, "b", none, none⟩))))
        (.mk none .empty))])).unplaced := by
  have unary : ∀ (k : String) (t : Terminal), (Token.of .name k).spellsKeyword = false →
      Forms (.nonterminal .unary) (.node (.mk none (.symbol ⟨.reference, k, none, none⟩)))
        [.of .name k] t := fun k t hk =>
    ((Forms.reference hk t).pass (m := .update)).pass
  have sum := Operated.chain (Chained.step (a := .of .plus "+") (.operand (unary "a" .plus rfl))
    (by decide) (unary "b" .rparen rfl))
  have empty : Forms (.nonterminal .statement) (.node (.mk none .empty)) [.of .semicolon ";"]
      .finish :=
    .pass (.rule (n := .emptyStatement) .empty (.token .semicolon ";" (.nil .finish)))
  have name : ∀ k : String, (k.toList.head?.any Text.isNameStart && k.toList.all Text.isNamePart) =
      true → (Token.of .name k).Complete := fun k hk => .name rfl (Text.isName_of_all hk)
  have spelled : SpelledBy (maskHashbang " for ( x in a + b ) ; ".toList) (loopTokens
      ([.of .name "x"] ++ .of .kwIn "in" :: ([.of .name "a"] ++ .of .plus "+" :: [.of .name "b"]))
      [.of .semicolon ";"]) := by
    refine spelledBy_spaced ?_ ?_
    · simp only [loopTokens, List.cons_append, List.nil_append, List.forall_mem_cons]
      exact ⟨.word (by decide), .word (by decide), name "x" (by decide), .word (by decide),
        name "a" (by decide), .word (by decide), name "b" (by decide), .word (by decide),
        .word (by decide), nofun⟩
    · simp only [loopTokens, List.cons_append, List.nil_append, List.forall_mem_cons, Token.IsSolid,
        Token.of]
      exact ⟨⟨_, rfl, by decide⟩, ⟨_, rfl, by decide⟩, ⟨_, rfl, by decide⟩, ⟨_, rfl, by decide⟩,
        ⟨_, rfl, by decide⟩, ⟨_, rfl, by decide⟩, ⟨_, rfl, by decide⟩, ⟨_, rfl, by decide⟩,
        ⟨_, rfl, by decide⟩, nofun⟩
  exact ((parse_forIn_iff unnamedFile (.reference rfl _) sum empty).1 _ spelled).2 (by decide)

/-- A comma ends the object. -/
theorem parse_forIn_comma :
    (parse unnamedFile "for (x in a, b) ;").result matches
      .error (.problem ⟨.forHeader, _, _, _, _⟩) := by
  decide +kernel

end Debundle
