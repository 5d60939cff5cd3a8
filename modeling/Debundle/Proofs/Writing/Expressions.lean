import Debundle.Proofs.Writing.Lists

/-!
# Expressions are read back

An expression is told if, wherever it stands, it is written as a phrase of the level that it has
there. Every form of expression is told if its parts are.
-/
namespace Debundle

open Text Build Piece Chain Level

namespace Speaks

variable {strict lead : Bool} {v : Node} {pieces : List Piece} {refused : List Terminal} {l : Level}

theorem of_primary (h : Phrase strict false (.nonterminal .primaryLead) (.node v) pieces refused) :
    Speaks strict lead v pieces refused .primary := by
  cases lead with
  | true => exact h
  | false => exact h.pass rfl

theorem parens (h : Speaks strict false v pieces refused l) (hr : .rparen ∉ refused) :
    Speaks strict lead v (Layout.parens pieces) [] .primary := by
  refine of_primary (.rule .parens (.mark .lparen "(" rfl (.consBefore h.toExpression
    (.mark .rparen ")" rfl .nil) ?_ nofun)) rfl rfl)
  exact List.forall_mem_singleton.2 hr

theorem refuse {others : List Terminal} (h : Speaks strict lead v pieces refused l)
    (hsub : ∀ t ∈ refused, t ∈ others) : Speaks strict lead v pieces others l := by
  cases l with
  | binary m =>
    obtain ⟨tokens, x, ps, hlays, hgrown, h⟩ := h
    exact ⟨tokens, x, ps, hlays, hgrown, fun after hafter => h after fun hmem =>
      hafter (hsub _ hmem)⟩
  | _ => exact Phrase.refuse h hsub

end Speaks

/-! ## Operators -/

theorem Token.clashes_operator {n : Nonterminal} (hn : n.isWord = true) {t : Terminal}
    (ht : t ∈ n.words) (strict : Bool) (k : String) (u : Terminal) :
    (Token.of t k).clashes strict u = false := by
  have words : ∀ n ∈ [Nonterminal.assignmentOperator, .binaryOperator, .unaryOperator,
      .updateOperator], ∀ t ∈ n.words, t ≠ .number ∧ t ≠ .regex := by decide
  obtain ⟨hnum, hreg⟩ := words n (of_decide_eq_true hn) t ht
  unfold clashes Token.of
  split <;> simp_all

namespace Phrase

variable {strict : Bool} {n : Nonterminal} {t : Terminal} {k : String}

theorem operator (hn : n.isWord = true) (ht : t ∈ n.words) (hm : t ∉ [.kwIn, .kwInstanceof])
    (hk : k ∈ t.spellings) : Phrase strict false (.nonterminal n) (.word k) [word k] [] :=
  ⟨[.of t k], (Lays.nil false).token (a := .of t k) (.word hk) nofun hm, fun after _ =>
    ⟨.word (a := .of t k) hn ht after, Token.clashes_operator hn ht strict k after, trivial⟩⟩

theorem spacedOperator (hn : n.isWord = true) (ht : t ∈ n.words) (hk : k ∈ t.spellings) :
    Phrase strict false (.nonterminal n) (.word k) [space, word k, space] [] :=
  ⟨[.of t k], ((Lays.nil false).blank rfl).spaced (a := .of t k) (.word hk) nofun, fun after _ =>
    ⟨.word (a := .of t k) hn ht after, Token.clashes_operator hn ht strict k after, trivial⟩⟩

end Phrase

theorem Sums.join {strict lead : Bool} {operator : String} {left right : Node}
    {before after : List Piece} {refused others : List Terminal}
    (hl : Sums strict lead (power operator) left before refused)
    (hr : Sums strict false (power operator + 1) right after others) (hline : left.line = none)
    {t : Terminal} (ht : t ∈ Nonterminal.binaryOperator.words) (hk : operator ∈ t.spellings)
    (hrefused : t ∉ refused) :
    Sums strict lead (power operator) (.mk none (.binary operator left right))
      (before ++ ([space, word operator, space] ++ after)) others := by
  obtain ⟨tokens, x, ps, hlays, hgrown, htokens⟩ := hl
  obtain ⟨more, y, qs, hlays', hgrown', hmore⟩ := hr
  have htree := Grown.join (m := power operator) le_rfl hgrown hgrown'
  rw [hline] at htree
  refine ⟨tokens ++ .of t operator :: more, x, _, hlays.append ((hlays'.blank rfl).spaced
    (a := .of t operator) (.word hk) nofun), htree, fun next hnext => ?_⟩
  obtain ⟨hchain, hapart⟩ := htokens t hrefused
  obtain ⟨hchain', hapart'⟩ := hmore next hnext
  exact ⟨hchain.append (a := .of t operator) ht hchain', apart_append.2 ⟨hapart,
    Token.clashes_operator rfl ht strict operator _, hapart'⟩⟩

namespace Node

/-- An expression is written as what it is read as. -/
structure Told (style : Style) (strict : Bool) (n : Node) : Prop where
  ordinary : n.form.IsOrdinary
  regular : n.form.isIrregular = false
  speaks : ∀ p : Place, p.IsKnown → ∀ lead, (lead = true → p.leads = true) →
    Speaks strict lead (n.settled style) (n.pieces style p) (n.refused strict p.standing) (n.levelAt p)

variable {style : Style} {strict : Bool} {line : Option Nat}

theorem Told.of_bare {form : Form Node} (he : form.isExpression = true) (ho : form.IsOrdinary)
    (h : ∀ p : Place, p.IsKnown → ∀ lead, (lead = true → p.leads = true) →
      (lead = true → p.parens form = false) →
      Speaks strict lead ((Node.mk line form).settled style)
        (Layout.bare style (form.map fun n => (n, n.pieces style)) p) (form.refused strict)
        form.level) : (Node.mk line form).Told style strict where
  ordinary := ho
  regular := Form.isIrregular_of_isOf (c := .expression) he
  speaks p hp lead hlead := by
    have hpieces : (Node.mk line form).pieces style p = if p.parens form then
        Layout.parens (Layout.bare style (form.map fun n => (n, n.pieces style)) p)
        else Layout.bare style (form.map fun n => (n, n.pieces style)) p := by
      rw [pieces_mk, Layout.write, Form.map_map, Form.map_id, Place.parenthesizes_eq ho hp]
      cases p.parens form <;> rfl
    rw [hpieces, levelAt]
    cases hparens : p.parens form with
    | true =>
      rw [if_pos rfl, show (Node.mk line form).form = form from rfl, hparens]
      exact ((h p hp false (by simp) (by simp)).parens (not_form_refused (by decide))).refuse (by simp)
    | false =>
      rw [if_neg Bool.false_ne_true, show (Node.mk line form).form = form from rfl, hparens, refused_mk,
        Place.parens_bare he hparens]
      exact h p hp lead hlead fun _ => hparens

theorem startsWithCall_mk (line : Option Nat) {form : Form Node}
    (hr : form.isIrregular = false) : (Node.mk line form).startsWithCall = match form with
      | .dot object _ | .index object _ => object.startsWithCall
      | .call .. => true
      | _ => false := by
  rw [startsWithCall, foldUp_mk]
  cases form with
  | loose => cases hr
  | _ => rfl

theorem levelAt_object {n : Node} (hr : n.form.isIrregular = false) {p : Place}
    (hs : p.standing = .callee false ∨ ∃ b, p.standing = .object b) :
    if n.startsWithCall then n.levelAt p = .call else 7 ≤ (n.levelAt p).rank := by
  obtain ⟨line, form⟩ := n
  obtain ⟨standing, leads, forInit⟩ := p
  have hr : form.isIrregular = false := hr
  have hne : standing ≠ .callee true := by
    obtain h | ⟨b, h⟩ := hs <;> rw [show standing = _ from h] <;> nofun
  have hfloor : 6 ≤ ((Node.mk line form).levelAt ⟨standing, leads, forInit⟩).rank := by
    have := floor_le (n := .mk line form) (p := ⟨standing, leads, forInit⟩) fun h => absurd h hne
    obtain h | ⟨b, h⟩ := hs <;> rwa [show standing = _ from h] at this ⊢
  rw [startsWithCall_mk line hr]
  rw [levelAt] at hfloor ⊢
  cases form with
  | call callee => simp [Form.level, Place.parens, Place.parenthesizes, hne, Node.form]
  | dot object key | index object key =>
    have hparens : ∀ b, (decide (standing = .callee true) && b) = false := by simp [hne]
    simp only [Form.level, Place.parens, Place.parenthesizes, hparens, Node.form]
    cases object.startsWithCall <;> simp [Level.rank]
  | _ =>
    simp only [Bool.false_eq_true, if_false]
    split at hfloor <;> first | exact (by decide : 7 ≤ Level.primary.rank) | simp_all [Form.level, Level.rank, Node.form]

namespace Told

variable {n : Node}

theorem toAssignment (h : n.Told style strict) {p : Place}
    (hs : p.standing ∈ [.argument, .assigned, .key, .choice, .member]) :
    Phrase strict false (.nonterminal .assignment) (.node (n.settled style)) (n.pieces style p)
      (n.refused strict p.standing) := by
  have hne : p.standing ≠ .callee true := by rintro heq; rw [heq] at hs; simp at hs
  have hp : p.IsKnown := by
    rw [Place.IsKnown]
    simp only [List.mem_cons, List.not_mem_nil, or_false] at hs
    obtain h | h | h | h | h := hs <;> rw [h] <;> trivial
  refine (h.speaks p hp false (by simp)).toAssignment (Nat.le_trans ?_ (floor_le fun h => absurd h hne))
  simp only [List.mem_cons, List.not_mem_nil, or_false] at hs
  obtain h | h | h | h | h := hs <;> rw [h] <;> decide

theorem toExpression (h : n.Told style strict) {p : Place} (hp : p.IsKnown) :
    Phrase strict false (.nonterminal .expression) (.node (n.settled style)) (n.pieces style p) awkward :=
  (h.speaks p hp false nofun).toExpression.refuse (refused_subset n _)

/-! ## Properties and calls -/

theorem arguments {ns : List Node} (h : ∀ n ∈ ns, n.Told style strict) (p : Place) :
    Phrase strict false (.nonterminal .arguments) (.list (ns.map fun n => .node (n.settled style)))
      (Layout.arguments (ns.map fun n => (n, n.pieces style)) p) [] := by
  have hitem : ∀ n ∈ ns, Phrase strict false (.nonterminal .assignment) (.node (n.settled style))
      (n.pieces style (p.inside .argument)) awkward := fun n hn =>
    ((h n hn).toAssignment (.head _)).refuse (refused_subset n _)
  have hclose : Phrases strict false false [.terminal .rparen] [.token (.of .rparen ")")]
      [word ")"] [] := .mark .rparen ")" rfl .nil
  rw [Layout.arguments, Layout.parens, List.map_map]
  cases ns with
  | nil =>
    exact .rule .gather (.mark .lparen "(" rfl hclose)
      (by simp [apply.eq_def, items_token, isMark, Token.of]) rfl
  | cons n ns =>
    obtain ⟨hn, hns⟩ := List.forall_mem_cons.1 hitem
    rw [List.map_cons, List.map_cons, Layout.intercalate_cons, List.flatMap_map, List.cons_append,
      List.append_assoc]
    obtain rfl | hne := eq_or_ne ns []
    · exact .rule .gather (.mark .lparen "(" rfl (.cons hn hclose rfl))
        (by simp [apply.eq_def, items_token, isMark, Token.of]) rfl
    · have hmore := Phrase.moreNodes (m := .moreArguments) areBlank_space hne hns rfl
      exact .rule .gather (.mark .lparen "(" rfl (.cons hn (.cons hmore hclose rfl) rfl))
        (by simp [apply.eq_def, items_token, isMark, Token.of]) rfl

theorem access (h : n.Told style strict) {tail : List GrammarSymbol} (label : Label)
    {vs : List Value} {more : List Piece} {w : Node} {p : Place} {lead b : Bool}
    (hlead : lead = true → p.leads = true)
    (htail : Phrases strict false false tail vs more [])
    (hfirst : ∀ t ∈ GrammarSymbol.firsts tail, t ∉ n.refused strict (.object b))
    (ha : apply label none (.node (n.settled style) :: vs) = .ok (.node w))
    (hnull : tail.all GrammarSymbol.isNullable = false)
    (hr : ∀ l ∈ [call, member], ∀ lead, Rule.isFree ⟨l.symbol lead, .nonterminal (l.symbol lead) ::
      tail, label⟩ = true) :
    Speaks strict lead w (n.pieces style (p.leading (.object b)) ++ more) []
      (if n.startsWithCall then .call else .member) := by
  have hobject := h.speaks (p.leading (.object b)) (by simp) lead hlead
  have hlevel := levelAt_object (p := p.leading (.object b)) h.regular (.inr ⟨b, rfl⟩)
  have rule : ∀ l ∈ [call, member], Phrase strict false (.nonterminal (l.symbol lead))
      (.node (n.settled style)) (n.pieces style (p.leading (.object b))) (n.refused strict (.object b)) →
      Phrase strict false (.nonterminal (l.symbol lead)) (.node w)
        (n.pieces style (p.leading (.object b)) ++ more) [] := fun l hl hphrase =>
    .rule label (.consBefore hphrase htail hfirst (by simp [hnull])) ha (hr l hl lead)
  cases hcall : n.startsWithCall with
  | true =>
    rw [hcall, if_pos rfl] at hlevel
    rw [hlevel] at hobject
    exact rule .call (by simp) hobject
  | false =>
    rw [hcall, if_neg Bool.false_ne_true] at hlevel
    exact rule .member (by simp) (hobject.toMember hlevel)

theorem dot (h : n.Told style strict) {key : String} (hk : IsName key.toList)
    (hprint : IsPrintable key.toList) : (Node.mk line (.dot n key)).Told style strict := by
  refine .of_bare rfl trivial fun p hp lead hlead _ => ?_
  have hword : Phrase strict false (.nonterminal .propertyName) (.word key) [word key] [] :=
    .propertyWord (r := ⟨.propertyName, [.terminal .name], .word⟩) (by decide) rfl
      (.inl rfl) hk rfl
  rw [settled_mk]
  have hname := Layout.name_of_isPrintable hprint style
  show Speaks strict lead _ (_ ++ [word ".", Layout.name style key]) [] _
  rw [hname]
  exact h.access .dot hlead (.mark .dot "." rfl (.single hword))
    (List.forall_mem_singleton.2 (dot_not_refused n)) rfl rfl (by decide)

theorem index (h : n.Told style strict) {key : Node} (hk : key.Told style strict) :
    (Node.mk line (.index n key)).Told style strict := by
  refine .of_bare rfl trivial fun p hp lead hlead _ => ?_
  have hkey := hk.toExpression (p := p.inside .key) trivial
  rw [settled_mk]
  show Speaks strict lead _ (_ ++ word "[" :: key.pieces style (p.inside .key) ++ [word "]"]) [] _
  rw [List.append_assoc]
  exact h.access .index hlead (.mark .lbracket "[" rfl (.cons hkey (.mark .rbracket "]" rfl .nil)
    rfl)) (List.forall_mem_singleton.2 (not_refused (by decide))) rfl rfl (by decide)

theorem call (h : n.Told style strict) {args : List Node} (ha : ∀ m ∈ args, m.Told style strict) :
    (Node.mk line (.call n args)).Told style strict := by
  have hrules : ∀ l ∈ [Level.call, .member], ∀ lead, Rule.isFree ⟨Level.call.symbol lead,
      [.nonterminal (l.symbol lead), .nonterminal .arguments], .call⟩ = true := by
    decide
  refine .of_bare rfl trivial fun p hp lead hlead _ => ?_
  have hcallee := h.speaks (p.leading (.callee false)) (by simp) lead hlead
  have hlevel := levelAt_object (p := p.leading (.callee false)) h.regular (.inl rfl)
  have rule : ∀ l ∈ [Level.call, .member], Phrase strict false (.nonterminal (l.symbol lead))
      (.node (n.settled style)) (n.pieces style (p.leading (.callee false)))
        (n.refused strict (.callee false)) →
      Phrase strict false (.nonterminal (Level.call.symbol lead))
        (.node (.mk none (.call (n.settled style) (args.map (settled style)))))
        (n.pieces style (p.leading (.callee false)) ++
          Layout.arguments (args.map fun n => (n, n.pieces style)) p) [] := by
    intro l hl hphrase
    exact .rule .call (.consBefore hphrase (.single (arguments ha p))
      (List.forall_mem_singleton.2 (not_refused (by decide))) (absurd · (by decide)))
      (by simp [apply.eq_def]) (hrules l hl lead)
  rw [settled_mk]
  have hargs : (args.map fun n => (n, n.settled style)).map Prod.snd = args.map (settled style) := by simp
  show Speaks strict lead (.mk none (.call (n.settled style) _)) _ _ Level.call
  rw [hargs]
  cases hcall : n.startsWithCall with
  | true =>
    rw [hcall, if_pos rfl] at hlevel
    rw [hlevel] at hcallee
    exact rule .call (by simp) hcallee
  | false =>
    rw [hcall, if_neg Bool.false_ne_true] at hlevel
    exact rule .member (by simp) (hcallee.toMember hlevel)

theorem construct (h : n.Told style strict) (hn : n.form.isUnaryLike = false) {args : List Node}
    (ha : ∀ m ∈ args, m.Told style strict) :
    (Node.mk line (.construct n args)).Told style strict := by
  refine .of_bare rfl trivial fun p hp lead _ _ => ?_
  have hcallee := (h.speaks (p.inside (.callee true)) (by simp) false nofun).toMember
    (floor_le (p := p.inside (.callee true)) fun _ => hn)
  rw [settled_mk]
  have hargs : (args.map fun n => (n, n.settled style)).map Prod.snd = args.map (settled style) := by simp
  show Phrase strict false (.nonterminal (Level.member.symbol lead))
    (.node (.mk none (.construct (n.settled style) _))) (word "new" :: space :: (_ ++ _)) []
  rw [hargs]
  exact .rule .construct (.mark .kwNew "new" rfl (.blank (.consBefore hcallee
    (.single (arguments ha p)) (List.forall_mem_singleton.2 (not_refused (by decide))) nofun)))
    (by simp [apply.eq_def]) (by cases lead <;> rfl)

/-! ## Operators -/

theorem unary (h : n.Told style strict) {operator : String}
    (ho : (Form.unary operator n).IsOrdinary)
    (hop : operator ∈ Nonterminal.unaryOperator.words.flatMap Terminal.spellings) :
    (Node.mk line (.unary operator n)).Told style strict := by
  have hplain : ∀ t ∈ Nonterminal.unaryOperator.words, t ∉ [.kwIn, .kwInstanceof] := by decide
  refine .of_bare rfl ho fun p hp lead _ _ => ?_
  obtain ⟨t, ht, hk⟩ := List.mem_flatMap.1 hop
  have hoperand := (h.speaks (p.inside .operand) (by simp) false nofun).toUnary
    (floor_le (p := p.inside .operand) nofun)
  have hword : Phrase strict false (.nonterminal .unaryOperator) (.word operator) [word operator] [] :=
    .operator rfl ht (hplain t ht) hk
  have hrest : Phrases strict false false [.nonterminal .unary] [.node (n.settled style)]
      ((if Layout.isWordOperator operator then [space] else []) ++
        n.pieces style (p.inside .operand)) (n.refused strict .operand) := by
    split
    · exact .blank (.single hoperand)
    · exact .single hoperand
  rw [settled_mk]
  show Phrase strict false (.nonterminal (Level.unary.symbol lead))
    (.node (.mk none (.unary operator (n.settled style)))) ([word operator] ++ (_ ++ _)) _
  exact .rule .unary (.cons hword hrest rfl) rfl (by cases lead <;> rfl)

theorem update (h : n.Told style strict) {operator : String}
    (ho : (Form.update operator n).IsOrdinary) (ht : n.form.isTarget = true)
    (hop : operator ∈ ["++", "--"]) : (Node.mk line (.update operator n)).Told style strict := by
  have hwords : ∀ k ∈ ["++", "--"], ∃ t ∈ Nonterminal.updateOperator.words,
      t ∉ [.kwIn, .kwInstanceof] ∧ k ∈ t.spellings := by decide
  refine .of_bare rfl ho fun p hp lead hlead _ => ?_
  obtain ⟨t, hw, hplain, hk⟩ := hwords operator hop
  have htarget := (h.speaks (p.leading .operand) (by simp) lead hlead).toTarget
    (rank_of_isTarget ht _)
  rw [refused_of_isTarget ht] at htarget
  rw [settled_mk]
  exact .rule (n := Level.update.symbol lead) .update (.cons htarget (.single (.operator rfl hw
    hplain hk)) rfl) rfl (by cases lead <;> rfl)

theorem binary {left right : Node} (hl : left.Told style strict) (hr : right.Told style strict)
    {operator : String} (ho : (Form.binary operator left right).IsOrdinary) {t : Terminal}
    (ht : t ∈ Nonterminal.binaryOperator.words) (hk : operator ∈ t.spellings)
    (hrefused : t ∉ left.refused strict (.chained operator false)) :
    (Node.mk line (.binary operator left right)).Told style strict := by
  refine .of_bare rfl ho fun p hp lead hlead _ => ?_
  have hleft := (hl.speaks (p.leading (.chained operator false)) (by simpa using ho.2) lead
    hlead).toChain (m := power operator) (floor_le (p := p.leading (.chained operator false)) nofun)
      fun k hk => by simpa using power_le hl.ordinary (by simpa using ho.2) rfl hk
  have hright := (hr.speaks (p.inside (.chained operator true)) (by simpa using ho.2) false
    nofun).toChain (m := power operator + 1)
      (floor_le (p := p.inside (.chained operator true)) nofun)
      fun k hk => by simpa using power_le hr.ordinary (by simpa using ho.2) rfl hk
  rw [settled_mk]
  show Sums strict lead (power operator) (.mk none (.binary operator (left.settled style) (right.settled style)))
    (_ ++ [space, word operator, space] ++ _) (right.refused strict (.chained operator true))
  rw [List.append_assoc]
  exact hleft.join hright (left.line_settled style) ht hk hrefused

theorem assign {left right : Node} (hl : left.Told style strict) (hr : right.Told style strict)
    {operator : String} (ho : (Form.assign operator left right).IsOrdinary)
    (ht : left.form.isTarget = true)
    (hop : operator ∈ Nonterminal.assignmentOperator.words.flatMap Terminal.spellings) :
    (Node.mk line (.assign operator left right)).Told style strict := by
  refine .of_bare rfl ho fun p hp lead hlead _ => ?_
  obtain ⟨t, hw, hk⟩ := List.mem_flatMap.1 hop
  have htarget := (hl.speaks (p.leading .assigned) (by simp) lead hlead).toTarget
    (rank_of_isTarget ht _)
  rw [refused_of_isTarget ht] at htarget
  have hright := hr.toAssignment (p := p.inside .assigned) (.tail _ (.head _))
  rw [settled_mk]
  show Phrase strict false (.nonterminal (Level.assignment.symbol lead))
    (.node (.mk none (.assign operator (left.settled style) (right.settled style))))
    (_ ++ [space, word operator, space] ++ _) (right.refused strict .assigned)
  rw [List.append_assoc]
  exact .rule .assign (.cons htarget (.cons (.spacedOperator rfl hw hk) (.single hright) rfl) rfl)
    rfl (by cases lead <;> rfl)

theorem conditional {test yes no : Node} (ht : test.Told style strict) (hy : yes.Told style strict)
    (hn : no.Told style strict) : (Node.mk line (.conditional test yes no)).Told style strict := by
  refine .of_bare rfl trivial fun p hp lead hlead _ => ?_
  have htest := ((ht.speaks (p.leading .condition) (by simp) lead hlead).toBinary
    (floor_le (p := p.leading .condition) nofun)).refuse (refused_subset test _)
  have hyes := (hy.toAssignment (p := p.inside .choice) (by simp [Place.inside])).refuse
    (refused_subset yes _)
  have hno := hn.toAssignment (p := p.inside .choice) (by simp [Place.inside])
  rw [settled_mk]
  show Phrase strict false (.nonterminal (Level.conditional.symbol lead))
    (.node (.mk none (.conditional (test.settled style) (yes.settled style) (no.settled style))))
    (_ ++ [space, word "?", space] ++ _ ++ [space] ++ Layout.colon ++ _) (no.refused strict .choice)
  simp only [List.append_assoc, List.cons_append, List.nil_append]
  exact .rule .conditional (.cons htest (.blank (.mark .question "?" rfl (.blank (.cons hyes (.blank
    (.mark .colon ":" rfl (.blank (.single hno)))) rfl)))) rfl) rfl (by cases lead <;> rfl)

end Told

end Node

end Debundle
