import Debundle.Proofs.Writing.Statements

/-!
# Printed programs are read back

A faithful tree is printed to a text that is read to the settled tree (`parse_print`).
-/
namespace Debundle

open Text Build Piece

namespace Node

/-- A node of a category is written as what it is read as. -/
def Readable (style : Style) (strict : Bool) (n : Node) : Category → Prop
  | .program => Phrase strict false (.nonterminal .program) (.node (n.settled style))
      (n.pieces style .root) afterStatement
  | .statement | .declaration => n.Uttered style strict
  | .expression => n.Told style strict
  | .element => n.form.isHole = true ∨ n.Told style strict
  | .initial => Phrase strict false (.nonterminal .forInit) (.node (n.settled style))
      (n.pieces style Layout.initPlace) awkward
  | .pattern => n.form.isDeclaration = false → n.Told style strict
  | .definition | .bareDefinition => n.Defined style strict
  | .branch => n.Branched style strict ∧ ∃ test body, n.form = .branch test body
  | .handler => n.Caught style strict .catchClause ∧ ∃ name body, n.form = .handler name body
  | .finalizer => n.Caught style strict .finallyClause ∧ ∃ body, n.form = .finalizer body
  | .property => n.Owned style strict
  | .accessor => ∃ params body, n.form = .function .accessor none params body ∧
      (∀ m ∈ params, m.Named .parameter) ∧ ∀ m ∈ body, m.Stated style strict
  | .name role => n.Named role

@[simp] theorem mem_many {c d : Category} {n : Node} {ns : List Node} :
    (c, n) ∈ Form.many d ns ↔ c = d ∧ n ∈ ns := by
  simp [Form.many, and_comm, eq_comm]

@[simp] theorem mem_maybe {c d : Category} {n : Node} {m : Option Node} :
    (c, n) ∈ Form.maybe d m ↔ c = d ∧ m = some n := by
  simp [Form.maybe, and_comm, eq_comm]

variable {style : Style} {strict : Bool} {line : Option Nat} {form : Form Node}

/-- What a loop declares to run over something is one name without a value. -/
theorem declared_of_pattern {n : Node} (h : IsFaithful strict .pattern n)
    (hd : n.form.isDeclaration = true) :
    ∃ k kind l name, n = mk k (.declare kind [mk l (.definition name none)]) ∧
      kind ∈ Terminal.kwVar.spellings ∧ name.Named .variable := by
  cases h with
  | @mk _ k form fits own parts =>
    cases form with
    | declare kind definitions =>
      obtain ⟨d, rfl⟩ : ∃ d, definitions = [d] :=
        List.length_eq_one_iff.1 (by simpa [Form.isOf, Form.isSingleDeclaration, Form.isExpression]
          using fits)
      cases (parts (.bareDefinition, d) (by simp [Form.parts, Form.many]) :
        IsFaithful strict .bareDefinition d) with
      | @mk _ l form fits _ parts =>
        cases form with
        | definition name value =>
          obtain rfl : value = none := Option.isNone_iff_eq_none.1 fits
          exact ⟨k, kind, l, name, rfl, own, named_of_isFaithful
            (parts (.name .variable, name) (by simp [Form.parts]))⟩
        | _ => cases fits
    | _ => cases hd

section Step

variable (own : form.IsFaithful strict) (ho : form.IsOrdinary) {c : Category}
  (shaped : ∀ p ∈ form.parts c, IsFaithful strict p.1 p.2)
  (ih : ∀ p ∈ form.parts c, p.2.Readable style strict p.1)

include own ho ih

theorem told_of_parts (he : form.isExpression = true) : (mk line form).Told style strict := by
  have part : ∀ p ∈ form.parts .expression, p.2.Readable style strict p.1 := by
    rwa [Form.parts_of_isExpression he .expression c]
  cases form with
  | function kind own params body =>
    cases kind with
    | expression =>
      exact .function
        (fun n hn => part (.name .ownName, n) (by simp [Form.parts, Option.mem_def.1 hn]))
        (fun n hn => part (.name .parameter, n) (by simp [Form.parts, hn]))
        fun n hn => Uttered.stated (part (.statement, n) (by simp [Form.parts, hn]))
    | _ => cases he
  | call callee args =>
    exact .call (part _ (.head _)) fun m hm => part (.expression, m) (by simp [Form.parts, hm])
  | construct callee args =>
    exact .construct (part _ (.head _)) own
      fun m hm => part (.expression, m) (by simp [Form.parts, hm])
  | dot object key => exact .dot (part _ (.head _)) own.1 own.2
  | index object key => exact .index (part _ (.head _)) (part _ (.tail _ (.head _)))
  | unary operator operand => exact .unary (part _ (.head _)) ho own
  | update operator operand => exact .update (part _ (.head _)) ho own.1 own.2
  | binary operator left right =>
    obtain ⟨t, ht, hk, hrefused⟩ := own
    exact .binary (part _ (.head _)) (part _ (.tail _ (.head _))) ho ht hk hrefused
  | assign operator left right =>
    exact .assign (part _ (.head _)) (part _ (.tail _ (.head _))) ho own.1 own.2
  | conditional test yes no =>
    exact .conditional (part _ (.head _))
      (part _ (.tail _ (.head _))) (part _ (.tail _ (.tail _ (.head _))))
  | sequence items =>
    exact .sequence (of_decide_eq_true he) own
      fun m hm => part (.expression, m) (by simp [Form.parts, hm])
  | array items => exact .array fun m hm => part (.element, m) (by simp [Form.parts, hm])
  | object items => exact .object fun m hm => part (.property, m) (by simp [Form.parts, hm])
  | symbol s =>
    obtain ⟨role, k, home, shownAs⟩ := s
    obtain ⟨rfl, rfl, hk⟩ : home = none ∧ shownAs = none ∧ IsIdentifier k := own
    obtain rfl : role = .reference := of_decide_eq_true he
    exact .symbol hk
  | self => exact .self
  | null => exact .null
  | boolean b => exact .boolean b
  | string v => exact .string own
  | number v =>
    obtain ⟨n, rfl, hn⟩ := own
    exact .number hn
  | regexp k => exact .regexp own.1 own.2
  | _ => cases he

include shaped in
theorem uttered_of_parts (hb : form.isBodyStatement = true)
    (hc : c ≠ .pattern) : (mk line form).Uttered style strict := by
  have hcat : form.parts c = form.parts .statement := form.parts_of_ne_pattern hc (by simp)
  rw [hcat] at shaped ih
  have regular : ∀ n, (.statement, n) ∈ form.parts .statement → n.form.isIrregular = false :=
    fun n hn => (shaped _ hn).regular
  by_cases hblock : ∃ ns, form = .block ns
  · obtain ⟨ns, rfl⟩ := hblock
    exact .block fun n hn => Uttered.stated (ih (.statement, n) (by simp [Form.parts, hn]))
  refine .of_stated ?_ fun ns heq => hblock ⟨ns, heq⟩
  cases form with
  | block ns => exact absurd ⟨ns, rfl⟩ hblock
  | empty => exact .empty
  | debugger => exact .debugger
  | simple n => exact .simple (ih _ (.head _))
  | labeled label body => exact .labeled own (Uttered.stated (ih _ (.head _)))
  | doWhile body test =>
    exact .doWhile (ih _ (.tail _ (.head _))) (ih _ (.head _)) (regular _ (.head _))
  | whileLoop test body =>
    exact .whileLoop (ih _ (.head _))
      (ih _ (.tail _ (.head _))) (regular _ (.tail _ (.head _)))
  | withObject object body =>
    exact .withObject (ih _ (.head _))
      (ih _ (.tail _ (.head _))) (regular _ (.tail _ (.head _)))
  | forLoop init test step body =>
    exact .forLoop
      (fun n hn => ih (.initial, n) (by simp [Form.parts, Option.mem_def.1 hn]))
      (fun n hn => ih (.expression, n) (by simp [Form.parts, Option.mem_def.1 hn]))
      (fun n hn => ih (.expression, n) (by simp [Form.parts, Option.mem_def.1 hn]))
      (ih (.statement, body) (by simp [Form.parts])) (regular body (by simp [Form.parts]))
  | forIn init object body =>
    have hobject : object.Told style strict := ih _ (.tail _ (.head _))
    have hbody : body.Uttered style strict := ih _ (.tail _ (.tail _ (.head _)))
    have hr := regular _ (.tail _ (.tail _ (.head _)))
    have hinit := shaped _ (.head _)
    obtain hdecl | ⟨htarget, hrank, hpower⟩ := own
    · obtain ⟨k, kind, l, name, rfl, hkind, hname⟩ := declared_of_pattern hinit hdecl
      exact .forInDeclared hkind hname hobject hbody hr
    · have hno : init.form.isDeclaration = false := by
        cases hi : init.form <;> rw [hi] at htarget <;> first | rfl | cases htarget
      exact .forIn (ih _ (.head _) hno) htarget hobject hrank hpower hbody hr
  | ifElse test body other =>
    exact .ifElse (ih _ (.head _))
      (ih _ (.tail _ (.head _))) (regular _ (.tail _ (.head _)))
      (fun n hn => ih (.statement, n) (by simp [Form.parts, Option.mem_def.1 hn]))
      fun n hn => regular n (by simp [Form.parts, Option.mem_def.1 hn])
  | exit kind value =>
    refine .exit (fun n hn => ih (.expression, n)
      (by simp [Form.parts, Option.mem_def.1 hn])) ?_
    cases kind with
    | returning => exact .inl rfl
    | throwing =>
      cases value with
      | none => cases hb
      | some => exact .inr rfl
  | jump kind label => exact .jump own
  | switch subject branches =>
    exact .switch (ih _ (.head _))
      (fun n hn => (ih (.branch, n) (by simp [Form.parts, hn])).1)
      fun n hn => (ih (.branch, n) (by simp [Form.parts, hn])).2
  | function kind name params body =>
    cases kind with
    | declaration =>
      cases name with
      | none => cases hb
      | some name =>
        exact .functionDeclaration
          (ih (.name .functionName, name) (by simp [Form.parts, Form.maybe]))
          (fun n hn => ih (.name .parameter, n) (by simp [Form.parts, hn]))
          fun n hn => Uttered.stated (ih (.statement, n) (by simp [Form.parts, hn]))
    | _ => cases hb
  | tryBlock body caught last =>
    exact .tryBlock
      (fun n hn => Uttered.stated (ih (.statement, n) (by simp [Form.parts, hn])))
      (fun n hn => ih (.handler, n) (by simp [Form.parts, Option.mem_def.1 hn]))
      (fun n hn => ih (.finalizer, n) (by simp [Form.parts, Option.mem_def.1 hn]))
      (by simpa [Form.isBodyStatement] using hb)
  | declare kind definitions =>
    exact .declare own (by simpa [Form.isBodyStatement] using hb)
      fun n hn => ih (.definition, n) (by simp [Form.parts, hn])
  | _ => cases hb

include shaped in
theorem readable_of_parts (fits : form.isOf c = true) :
    (mk line form).Readable style strict c := by
  cases c with
  | program =>
    cases form with
    | program ns =>
      exact Stated.program fun n hn => Uttered.stated (ih (.statement, n) (by simp [Form.parts, hn]))
    | _ => cases fits
  | statement => exact uttered_of_parts own ho shaped ih fits nofun
  | declaration =>
    exact uttered_of_parts own ho shaped ih (Form.isBodyStatement_of_isDeclaration fits) nofun
  | expression => exact told_of_parts own ho ih fits
  | element =>
    obtain hhole | he := Bool.or_eq_true_iff.1 fits
    · exact .inl hhole
    · exact .inr (told_of_parts own ho ih he)
  | initial =>
    obtain hd | he := Bool.or_eq_true_iff.1 fits
    · cases form with
      | declare kind definitions =>
        exact Defined.initial own (by simpa [Form.isDeclaration] using hd) fun n hn =>
          ih (.definition, n) (by simp [Form.parts, hn])
      | _ => cases hd
    · exact ((told_of_parts own ho ih he).toExpression (p := Layout.initPlace) trivial).pass
        rfl
  | pattern =>
    intro hno
    obtain hd | he := Bool.or_eq_true_iff.1 fits
    · cases form with
      | declare kind definitions =>
        rw [show definitions = [] by simpa [Form.isDeclaration, Node.form] using hno] at hd
        cases hd
      | _ => cases hd
    · exact told_of_parts own ho ih he
  | definition | bareDefinition =>
    cases form with
    | definition name value =>
      exact defined_definition (ih _ (.head _))
        fun n hn => ih (.expression, n) (by simp [Form.parts, Option.mem_def.1 hn])
    | _ => cases fits
  | branch =>
    cases form with
    | branch test body =>
      exact ⟨branched_branch
        (fun n hn => ih (.expression, n) (by simp [Form.parts, Option.mem_def.1 hn]))
        fun n hn => Uttered.stated (ih (.statement, n) (by simp [Form.parts, hn])), test, body, rfl⟩
    | _ => cases fits
  | handler =>
    cases form with
    | handler name body =>
      exact ⟨caught_handler (ih _ (.head _))
        fun n hn => Uttered.stated (ih (.statement, n) (by simp [Form.parts, hn])), name, body, rfl⟩
    | _ => cases fits
  | finalizer =>
    cases form with
    | finalizer body =>
      exact ⟨caught_finalizer fun n hn =>
        Uttered.stated (ih (.statement, n) (by simp [Form.parts, hn])), body, rfl⟩
    | _ => cases fits
  | property =>
    cases form with
    | property kind key value =>
      by_cases hkind : kind = .keyValue
      · subst hkind
        exact owned_keyValue own (ih (.expression, value) (by simp [Form.parts]))
      · obtain ⟨l, valueForm⟩ := value
        obtain ⟨params, body, rfl : valueForm = _, hp, hb⟩ :=
          (ih (.accessor, .mk l valueForm) (by simp [Form.parts, hkind]) :
            (Node.mk l valueForm).Readable style strict .accessor)
        exact owned_accessor hkind own hp hb
    | _ => cases fits
  | accessor =>
    cases form with
    | function kind name params body =>
      cases kind with
      | accessor =>
        obtain rfl : name = none := Option.isNone_iff_eq_none.1 fits
        exact ⟨params, body, rfl, fun n hn => ih (.name .parameter, n) (by simp [Form.parts, hn]),
          fun n hn => Uttered.stated (ih (.statement, n) (by simp [Form.parts, hn]))⟩
      | _ => cases fits
    | _ => cases fits
  | name role => exact named_of_isFaithful (.mk fits own shaped)

end Step

/-- Every node of a faithful tree is written as what it is read as. -/
theorem readable (style : Style) {c : Category} {n : Node} (h : IsFaithful strict c n) :
    n.Readable style strict c := by
  induction h with
  | @mk c line form fits own parts ih =>
    have ho : (Node.mk line form).form.IsOrdinary := IsFaithful.isOrdinary (.mk fits own parts)
    exact readable_of_parts own ho parts ih fits

end Node

theorem maskHashbang_of_head {cs : List Char} (h : ∀ c ∈ cs.head?, c ≠ '#') :
    maskHashbang cs = cs := by
  unfold maskHashbang
  split
  · exact absurd rfl (h '#' rfl)
  · rfl

theorem Token.Complete.head_ne {a : Token} (h : a.Complete) : ∀ c ∈ a.text.toList.head?, c ≠ '#' := by
  rintro c hc rfl
  cases h.begins hc with
  | keyword _ start | name _ start => exact absurd start (by decide)
  | punctuator is =>
    have : ∀ p ∈ Terminal.punctuators, p.2.toList.head? ≠ some '#' := by decide
    exact this _ is hc
  | number _ digit => exact absurd digit (by decide)
  | string _ quote => exact absurd quote (by decide)
  | regex _ slash => exact absurd slash (by decide)

theorem maskHashbang_of_spelledBy {cs : List Char} {tokens : List Token} (h : SpelledBy cs tokens)
    (hall : ∀ a ∈ tokens, a.Complete) : maskHashbang cs = cs := by
  refine maskHashbang_of_head fun c hc => ?_
  have blank : ∀ d : Char, Gap.isGapBlank d = true → d ≠ '#' := by
    rintro d hd rfl
    exact absurd hd (by decide)
  obtain ⟨tail, htail, hs⟩ := h
  cases tokens with
  | nil =>
    obtain rfl : cs = tail := congrArg Ahead.text hs
    exact blank c (htail c (List.mem_of_mem_head? hc))
  | cons a tokens =>
    obtain ⟨-, z, ⟨⟨gap, htext, hgap⟩, -, -⟩, -⟩ := hs
    obtain rfl : cs = gap ++ (a.text.toList ++ z.text) := htext
    cases gap with
    | nil =>
      have ha := hall a (.head _)
      obtain ⟨d, ds, hds⟩ := List.exists_cons_of_ne_nil ha.ne_nil
      refine ha.head_ne c ?_
      rw [hds] at hc ⊢
      exact hc
    | cons d gap => exact blank c (hgap c (List.mem_of_mem_head? hc))

/-! ## Printed programs -/

theorem Node.pieces_blanks (style : Style) (beautify : Bool) (level : Int) (n : Node) :
    n.pieces { style with beautify := beautify, indentLevel := level } = n.pieces style :=
  rfl

/-- The tokens of the text of a faithful tree. They are the same with blanks and without them. -/
theorem exists_tokens {strict : Bool} {t : Node} (h : IsFaithful strict .program t)
    (style : Style) :
    ∃ tokens, Forms (.nonterminal .program) (.node (t.settled style)) tokens .finish ∧
      ∀ (beautify : Bool) (level : Int), (beautify = false → strict = true) →
        ∃ text, t.print { style with beautify := beautify, indentLevel := level } = .ok text ∧
          SpelledBy (maskHashbang text.toList) tokens := by
  obtain ⟨tokens, hlays, htokens⟩ := Node.readable style h
  obtain ⟨hforms, hapart⟩ := htokens .finish (by decide)
  obtain ⟨r, hwritten, -⟩ := hlays.written false nofun
  refine ⟨tokens, hforms, fun beautify level hs => ?_⟩
  have hspelled : SpelledBy (render { style with beautify := beautify, indentLevel := level }
      (t.pieces style .root)) tokens :=
    spelledBy_render hwritten hs hlays.complete (hapart.isChain hforms.orderly.chain)
  refine ⟨String.ofList (render { style with beautify := beautify, indentLevel := level }
    (t.pieces style .root)), ?_, ?_⟩
  · rw [Node.print, Node.pieces_blanks, hwritten.firstDefect?]
  · rw [String.toList_ofList, maskHashbang_of_spelledBy hspelled hlays.complete]
    exact hspelled

theorem parse_print {style : Style} {t : Node} (h : IsFaithful (!style.beautify) .program t)
    (file : String) : ∃ text t', t.print style = .ok text ∧ (parse file text).result = .ok t' ∧
      t'.unplaced = (t.settled style).unplaced := by
  obtain ⟨tokens, hforms, hprint⟩ := exists_tokens h style
  obtain ⟨text, htext, hspelled⟩ := hprint style.beautify style.indentLevel (by simp)
  obtain ⟨t', ht', hu⟩ := parse_of_forms hforms hspelled file
  exact ⟨text, t', htext, ht', hu⟩

/-- With all choices as they are by default, a faithful tree is read back from its text with empty
statements left out and controlled statements in braces. -/
theorem parse_print_default {t : Node} (h : IsFaithful false .program t) (file : String) :
    ∃ text t', t.print {} = .ok text ∧ (parse file text).result = .ok t' ∧
      t'.unplaced = (t.settled {}).unplaced :=
  @parse_print {} t h file

theorem isFaithful_name {strict : Bool} (line : Option Nat) {k : String} (hk : IsIdentifier k) :
    IsFaithful strict .expression (.mk line (.symbol ⟨.reference, k, none, none⟩)) :=
  .mk rfl ⟨rfl, rfl, hk⟩ nofun

theorem isIdentifier_of {k : String}
    (h : (k.toList.head?.any isNameStart && k.toList.all isNamePart) = true ∧
      (Token.of .name k).spellsKeyword = false ∧ ∀ c ∈ k.toList, Escape.isBeyondAscii c = false) :
    IsIdentifier k :=
  ⟨isName_of_all h.1, h.2.1, h.2.2⟩

/-- The program `while (a) ;`. -/
def idleLoop : Node :=
  .mk none (.program [.mk none (.whileLoop (.mk none (.symbol ⟨.reference, "a", none, none⟩))
    (.mk none .empty))])

theorem parse_print_default_idleLoop :
    ∃ text t', idleLoop.print {} = .ok text ∧ (parse unnamedFile text).result = .ok t' ∧
      t'.unplaced = (idleLoop.settled {}).unplaced := by
  have test : IsFaithful false .expression (.mk none (.symbol ⟨.reference, "a", none, none⟩)) :=
    isFaithful_name none (isIdentifier_of (by decide))
  have loop : IsFaithful false .statement (.mk none (.whileLoop
      (.mk none (.symbol ⟨.reference, "a", none, none⟩)) (.mk none .empty))) :=
    .mk rfl trivial (List.forall_mem_cons.2 ⟨test, List.forall_mem_cons.2
      ⟨.mk rfl trivial nofun, nofun⟩⟩)
  have program : IsFaithful false .program idleLoop :=
    .mk rfl trivial (List.forall_mem_cons.2 ⟨loop, nofun⟩)
  exact parse_print_default program unnamedFile

/-- The program `x = -function() {} / 2 / 3`. -/
def quotient : Node :=
  .mk none (.program [.mk none (.simple (.mk none (.assign "="
    (.mk none (.symbol ⟨.reference, "x", none, none⟩))
    (.mk none (.binary "/" (.mk none (.binary "/"
      (.mk none (.unary "-" (.mk none (.function .expression none [] []))))
      (.mk none (.number (.whole 2))))) (.mk none (.number (.whole 3))))))))])

/-- A slash after a function is taken for the beginning of a regular expression. -/
theorem quotient_not_read :
    quotient.print {} = .ok "x = -function() \x7b\x7d / 2 / 3;" ∧
      (parse unnamedFile "x = -function() \x7b\x7d / 2 / 3;").result matches
        .error (.problem ⟨.unexpectedToken "/ 2 /", _, _, _, _⟩) := by
  decide +kernel

end Debundle
