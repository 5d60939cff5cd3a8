import Debundle.Proofs.Reading.Headers
import Debundle.Proofs.Writing.RoundTrip

/-!
# Callees and objects of properties

An expression in parentheses that is called, constructed from or asked for a property is read to a
tree from which it is written, and then read, with the parentheses that it needs
(`parse_print_use`). This holds of every faithful expression whose statements are already as they
are written; only the callee of `new` must not be unary.
-/
namespace Debundle

open Build Text

/-! ## Lines are no matter of the text -/

namespace Node

theorem startsWithCall_unplaced (n : Node) : n.unplaced.startsWithCall = n.startsWithCall := by
  induction n using Node.induct with
  | step line form ih =>
    rw [unplaced_mk, startsWithCall, foldUp_mk, foldUp_mk, Form.map_map]
    cases form with
    | dot object _ | index object _ => exact ih object (by simp [Form.children])
    | loose kind parts =>
      cases kind with
      | dot =>
        cases parts with
        | nil => rfl
        | cons object parts => exact ih object (.head _)
      | _ => cases parts <;> rfl
    | _ => rfl

theorem parens_unplaced (p : Place) (form : Form Node) :
    p.parens (form.map unplaced) = p.parens form := by
  cases form with
  | dot object _ | index object _ =>
    simp only [Form.map, Place.parens, Place.parenthesizes, startsWithCall_unplaced]
  | function kind => cases kind <;> rfl
  | loose kind parts =>
    cases kind with
    | dot =>
      cases parts with
      | nil => rfl
      | cons object parts =>
        simp only [Form.map, List.map_cons, Place.parens, Place.parenthesizes,
          startsWithCall_unplaced]
    | _ => cases parts <;> rfl
  | _ => rfl

theorem refused_unplaced {strict : Bool} (n : Node) (standing : Standing) :
    n.unplaced.refused strict standing = n.refused strict standing := by
  induction n using Node.induct generalizing standing with
  | step line form ih =>
    rw [unplaced_mk, refused_mk, refused_mk, parens_unplaced]
    have hform : (form.map unplaced).refused strict = form.refused strict := by
      cases form with
      | unary _ operand => exact ih operand (by simp [Form.children]) _
      | binary _ _ right | assign _ _ right => exact ih right (by simp [Form.children]) _
      | conditional _ _ other => exact ih other (by simp [Form.children]) _
      | sequence items =>
        simp only [Form.map, Form.refused, List.getLast?_map]
        cases hlast : items.getLast? with
        | none => rfl
        | some last => exact ih last (List.mem_of_getLast? hlast) _
      | _ => rfl
    rw [hform]

theorem form_unplaced {β : Type} {f : Form Node → β} (hf : ∀ form, f (form.map unplaced) = f form)
    (n : Node) : f n.unplaced.form = f n.form := by
  obtain ⟨line, form⟩ := n
  rw [unplaced_mk]
  exact hf form

end Node

namespace Form

theorem level_unplaced (form : Form Node) : (form.map Node.unplaced).level = form.level := by
  cases form with
  | dot object _ | index object _ => simp only [map, level, Node.startsWithCall_unplaced]
  | _ => rfl

theorem isFaithful_unplaced {strict : Bool} (form : Form Node) :
    (form.map Node.unplaced).IsFaithful strict ↔ form.IsFaithful strict := by
  have target := Node.form_unplaced (f := isTarget) fun form => by cases form <;> rfl
  have unary := Node.form_unplaced (f := isUnaryLike) fun form => by cases form <;> rfl
  have sequence := Node.form_unplaced (f := isSequence) fun form => by cases form <;> rfl
  have declaration := Node.form_unplaced (f := isDeclaration) fun form => isDeclaration_map form _
  have level := Node.form_unplaced level_unplaced
  cases form with
  | sequence items => simp [map, IsFaithful, sequence]
  | assign | update => simp only [map, IsFaithful, target]
  | construct => simp only [map, IsFaithful, unary]
  | binary => simp only [map, IsFaithful, Node.refused_unplaced]
  | forIn => simp only [map, IsFaithful, target, declaration, level]
  | _ => exact Iff.rfl

end Form

theorem Shaped.unplaced {P : Form Node → Prop}
    (hP : ∀ form, P (form.map Node.unplaced) ↔ P form) {c : Category} {n : Node} :
    Shaped P c n.unplaced ↔ Shaped P c n := by
  induction n using Node.induct generalizing c with
  | step line form ih =>
    rw [Node.unplaced_mk]
    have child : ∀ p ∈ form.parts c, p.2 ∈ form.children := fun p hp => by
      rw [← Form.snd_parts c]
      exact List.mem_map_of_mem hp
    constructor
    · intro h
      cases h with
      | mk fits own parts =>
        rw [Form.parts_map] at parts
        exact .mk (Form.isOf_map c form _ ▸ fits) ((hP form).1 own) fun p hp =>
          (ih p.2 (child p hp)).1 (parts _ (List.mem_map_of_mem hp))
    · intro h
      cases h with
      | mk fits own parts =>
        refine .mk (Form.isOf_map c form _ ▸ fits) ((hP form).2 own) fun q hq => ?_
        rw [Form.parts_map] at hq
        obtain ⟨p, hp, rfl⟩ := List.mem_map.1 hq
        exact (ih p.2 (child p hp)).2 (parts p hp)

/-! ## Statements that are as they are written -/

namespace Form

def isBlock {α : Type} : Form α → Bool
  | block _ => true
  | _ => false

/-- A form without empty statements in its lists, whose controlled statements are blocks. -/
def IsSettled : Form Node → Prop
  | program body | block body | finalizer body | handler _ body | tryBlock body _ _
  | function _ _ _ body => ∀ n ∈ body, n.form.isEmpty = false
  | doWhile body _ | whileLoop _ body | forLoop _ _ _ body | forIn _ _ body | withObject _ body =>
    body.form.isBlock = true
  | ifElse _ body other => body.form.isBlock = true ∧
      ∀ n ∈ other, Layout.isIf (n, fun _ => []) = true ∨ n.form.isBlock = true
  | _ => True

theorem isSettled_unplaced (form : Form Node) :
    (form.map Node.unplaced).IsSettled ↔ form.IsSettled := by
  have empty := Node.form_unplaced (f := isEmpty) fun form => by cases form <;> rfl
  have block := Node.form_unplaced (f := isBlock) fun form => by cases form <;> rfl
  have isIf : ∀ n : Node, Layout.isIf (n.unplaced, fun _ => []) = Layout.isIf (n, fun _ => []) := by
    rintro ⟨line, form⟩
    rw [Node.unplaced_mk]
    cases form <;> rfl
  cases form with
  | ifElse => simp [map, IsSettled, block, isIf]
  | _ => simp [map, IsSettled, block, empty]

end Form

namespace Node

theorem sheltered_of_isBlock {n m : Node} (h : n.form.isBlock = true) : sheltered (n, m) = m := by
  unfold sheltered
  cases hn : n.form <;> rw [hn] at h <;> first | rfl | cases h

theorem governed_of_isBlock (style : Style) {n m : Node} (h : n.form.isBlock = true) :
    governed style (n, m) = m := by
  rw [governed, sheltered_of_isBlock h, ite_self]

theorem settled_eq {style : Style} {c : Category} {n : Node} (h : Shaped Form.IsSettled c n) :
    n.settled style = n.unplaced := by
  induction h with
  | @mk c line form fits own parts ih =>
    have hchild : ∀ n ∈ form.children, n.settled style = n.unplaced := by
      intro n hn
      rw [← Form.snd_parts c] at hn
      obtain ⟨p, hp, rfl⟩ := List.mem_map.1 hn
      exact ih p hp
    rw [settled_mk, unplaced_mk, ← Form.map_congr hchild]
    have kept_eq : ∀ ns : List Node, (∀ n ∈ ns, n.form.isEmpty = false) →
        kept (ns.map fun n => (n, n.settled style)) = ns.map (settled style) := fun ns hns => by
      rw [kept_map, List.filter_eq_self.2 fun n hn => by simp [hns n hn]]
    congr 1
    cases form with
    | program body | block body | finalizer body | handler _ body | tryBlock body
    | function _ _ _ body =>
      simp [settledForm, Form.map, kept_eq body own, Function.comp_def]
    | doWhile body _ => simp [settledForm, Form.map, sheltered_of_isBlock own]
    | whileLoop _ body | forLoop _ _ _ body | forIn _ _ body | withObject _ body =>
      simp [settledForm, Form.map, governed_of_isBlock style own, Function.comp_def]
    | ifElse _ body other =>
      obtain ⟨hbody, hother⟩ := own
      cases other with
      | none => simp [settledForm, Form.map, governed_of_isBlock style hbody]
      | some n =>
        simp only [settledForm, Form.map, governed_of_isBlock style hbody,
          sheltered_of_isBlock hbody, ite_self, Option.map_some]
        obtain hif | hblock := hother n rfl
        · rw [if_pos hif]
        · rw [governed_of_isBlock style hblock, ite_self]
    | _ => simp [settledForm, Form.map, Function.comp_def]

end Node

/-! ## Expressions in parentheses -/

/-- What an expression in parentheses is used for. -/
inductive Use where
  | construct | call | dot | index
  deriving DecidableEq

namespace Use

/-- A name that is referred to. -/
def name (k : String) : Node := .mk none (.symbol ⟨.reference, k, none, none⟩)

/-- An expression in use. -/
def form (e : Node) : Use → Form Node
  | construct => .construct e [name "a"]
  | call => .call e [name "a"]
  | dot => .dot e "p"
  | index => .index e (name "a")

/-- The statement `x = new (e)(a);`, `x = (e)(a);`, `x = (e).p;` or `x = (e)[a];`. -/
def program (u : Use) (e : Node) : Node :=
  .mk (some 1) (.program [.mk none (.simple
    (.mk none (.assign "=" (name "x") (.mk none (u.form e)))))])

def opening : Use → List Token
  | construct => [.of .kwNew "new"]
  | _ => []

def closing : Use → List Token
  | construct | call => [.of .lparen "(", .of .name "a", .of .rparen ")"]
  | dot => [.of .dot ".", .of .name "p"]
  | index => [.of .lbracket "[", .of .name "a", .of .rbracket "]"]

/-- The tokens of the statement, by those of the expression. -/
def tokens (u : Use) (inner : List Token) : List Token :=
  .of .name "x" :: .of .equal "=" :: (u.opening ++ (.of .lparen "(" :: (inner ++
    [.of .rparen ")"]) ++ (u.closing ++ [.of .semicolon ";"])))

end Use

namespace Forms

variable {v e : Node} {tokens : List Token} {after : Terminal}

theorem assignment (h : Forms (.nonterminal .target) (.node v) tokens after) :
    Forms (.nonterminal .assignment) (.node v) tokens after :=
  ((((h.pass (m := .update) rfl).pass (m := .unary) rfl).pass (m := .binary) rfl).pass
    (m := .conditional) rfl).pass rfl

theorem target (h : Forms (.nonterminal .member) (.node v) tokens after) :
    Forms (.nonterminal .target) (.node v) tokens after :=
  (h.pass (m := .construction) rfl).pass rfl

theorem inParens (h : Forms (.nonterminal .expression) (.node e) tokens .rparen) :
    Forms (.nonterminal .member) (.node e) (.of .lparen "(" :: (tokens ++ [.of .rparen ")"]))
      after :=
  .pass (.pass (.rule (n := .primaryLead) .parens
    (.token .lparen "(" (.cons h (.token .rparen ")" (.nil after) rfl)) rfl) rfl rfl)
    (m := .primary) rfl) rfl

theorem member {k : String} (hk : (Token.of .name k).spellsKeyword = false) (after : Terminal) :
    Forms (.nonterminal .member) (.node (Use.name k)) [.of .name k] after :=
  .pass (.pass (.rule (n := .primaryLead) .reference (.token .name k (.nil after) hk) rfl rfl)
    (m := .primary) rfl) rfl

theorem argument (after : Terminal) : Forms (.nonterminal .arguments)
    (.list [.node (Use.name "a")]) [.of .lparen "(", .of .name "a", .of .rparen ")"] after :=
  .rule .gather (.token .lparen "(" (.cons (reference rfl _).assignment
    (.token .rparen ")" (.nil after) rfl)) rfl) rfl rfl

theorem use (u : Use) (h : Forms (.nonterminal .expression) (.node e) tokens .rparen) :
    Forms (.nonterminal .target) (.node (.mk none (u.form e)))
      (u.opening ++ (.of .lparen "(" :: (tokens ++ [.of .rparen ")"]) ++ u.closing)) .semicolon := by
  cases u with
  | construct =>
    have hparts := FormsAll.token .kwNew "new" (.cons h.inParens (argument .semicolon).single) rfl
    exact target (.rule .construct hparts rfl rfl)
  | call =>
    have hparts := FormsAll.cons h.inParens (argument .semicolon).single
    exact .pass (.rule (n := .call) .call hparts rfl rfl) rfl
  | dot =>
    have hname : Forms (.nonterminal .propertyName) (.word "p") [.of .name "p"] .semicolon :=
      propertyWord (r := ⟨.propertyName, [.terminal .name], .word⟩) (by decide) rfl (.inl rfl)
        rfl rfl
    have hparts := FormsAll.cons h.inParens (.token .dot "." hname.single rfl)
    exact target (.rule .dot hparts rfl rfl)
  | index =>
    have hparts := FormsAll.cons h.inParens (.token .lbracket "[" (.cons
      ((reference (k := "a") rfl _).assignment.pass (m := .expression) rfl)
      (.token .rbracket "]" (.nil .semicolon) rfl)) rfl)
    exact target (.rule .index hparts rfl rfl)

theorem useProgram (u : Use) (h : Forms (.nonterminal .expression) (.node e) tokens .rparen) :
    Forms (.nonterminal .program) (.node (u.program e)) (u.tokens tokens) .finish := by
  have hleft : Forms (.nonterminal .targetLead) (.node (Use.name "x")) [.of .name "x"] .equal :=
    .pass (.pass (.pass (.rule (n := .primaryLead) .reference (.token .name "x" (.nil _) rfl) rfl
      rfl) (m := .memberLead) rfl) (m := .constructionLead) rfl) rfl
  have hassign : Forms (.nonterminal .assignmentLead)
      (.node (.mk none (.assign "=" (Use.name "x") (.mk none (u.form e))))) _ .semicolon :=
    .rule .assign (.cons hleft (.cons (.word (n := .assignmentOperator) (a := .of .equal "=") rfl
      (by decide) _) (use u h).assignment.single)) rfl rfl
  have hprogram := Forms.program (.pass (.rule (n := .expressionStatement) .simple
    (.cons (hassign.pass (m := .expressionLead) rfl) (.token .semicolon ";" (.nil .finish) rfl)) rfl
    rfl) rfl)
  simpa [Use.tokens, Use.program] using hprogram

end Forms

theorem Shaped.use {P : Form Node → Prop} {u : Use} {e : Node} (h : Shaped P .expression e)
    (hname : ∀ k ∈ ["a", "x"], P (Use.name k).form) (huse : P (u.form e))
    (hassign : P (.assign "=" (Use.name "x") (.mk none (u.form e))))
    (hsimple : ∀ n, P (.simple n)) (hprogram : ∀ n, n.form.isEmpty = false → P (.program [n])) :
    Shaped P .program (u.program e) := by
  have name : ∀ k ∈ ["a", "x"], Shaped P .expression (Use.name k) := fun k hk =>
    .mk rfl (hname k hk) nofun
  have one : ∀ {c : Category} {n : Node}, Shaped P c n →
      ∀ p ∈ [(c, n)], Shaped P p.1 p.2 := fun hn => List.forall_mem_cons.2 ⟨hn, nofun⟩
  have two : ∀ {n m : Node}, Shaped P .expression n → Shaped P .expression m →
      ∀ p ∈ [(Category.expression, n), (Category.expression, m)], Shaped P p.1 p.2 :=
    fun hn hm => List.forall_mem_cons.2 ⟨hn, one hm⟩
  have hform : Shaped P .expression (.mk none (u.form e)) := by
    cases u with
    | construct | call | index => exact .mk rfl huse (two h (name "a" (by decide)))
    | dot => exact .mk rfl huse (one h)
  exact .mk rfl (hprogram _ rfl) (one (c := .statement) (.mk rfl (hsimple _) (one
    (.mk rfl hassign (two (name "x" (by decide)) hform)))))

theorem IsFaithful.use {strict : Bool} {u : Use} {e : Node} (h : IsFaithful strict .expression e)
    (hunary : u = .construct → e.form.isUnaryLike = false) :
    IsFaithful strict .program (u.program e) := by
  refine Shaped.use h ?_ ?_ ⟨rfl, by decide⟩ (fun _ => trivial) fun _ _ => trivial
  · intro k hk
    refine ⟨rfl, rfl, isIdentifier_of ?_⟩
    have : ∀ k ∈ ["a", "x"], (k.toList.head?.any isNameStart && k.toList.all isNamePart) = true ∧
        (Token.of .name k).spellsKeyword = false ∧ ∀ c ∈ k.toList, Escape.isBeyondAscii c = false := by
      decide
    exact this k hk
  · cases u with
    | construct => exact hunary rfl
    | dot => exact ⟨isName_of_all (by decide), by unfold IsPrintable; decide⟩
    | call | index => trivial

/-- An expression that is called, constructed from or asked for a property keeps its parentheses. -/
theorem parse_print_use (u : Use) {e : Node} {tokens : List Token} {text : String}
    (hforms : Forms (.nonterminal .expression) (.node e) tokens .rparen)
    (hfaithful : IsFaithful false .expression e) (hsettled : Shaped Form.IsSettled .expression e)
    (hunary : u = .construct → e.form.isUnaryLike = false)
    (htext : SpelledBy (maskHashbang text.toList) (u.tokens tokens)) (file : String) :
    ∃ t printed t', (parse file text).result = .ok t ∧ t.unplaced = (u.program e).unplaced ∧
      t.print {} = .ok printed ∧ (parse file printed).result = .ok t' ∧
      t'.unplaced = t.unplaced := by
  obtain ⟨t, hparse, ht⟩ := parse_of_forms (hforms.useProgram u) htext file
  have hfaith : IsFaithful false .program t := by
    refine (Shaped.unplaced Form.isFaithful_unplaced).1 ?_
    rw [ht]
    exact (Shaped.unplaced Form.isFaithful_unplaced).2 (hfaithful.use hunary)
  have hset : Shaped Form.IsSettled .program t := by
    refine (Shaped.unplaced Form.isSettled_unplaced).1 ?_
    rw [ht]
    refine (Shaped.unplaced Form.isSettled_unplaced).2
      (hsettled.use (fun _ _ => trivial) ?_ trivial (fun _ => trivial) fun n hn => ?_)
    · cases u <;> trivial
    · simpa [Form.IsSettled] using hn
  obtain ⟨printed, t', hprint, hread, ht'⟩ := @parse_print {} t hfaith file
  rw [Node.settled_eq hset, Node.unplaced_unplaced] at ht'
  exact ⟨t, printed, t', hparse, ht, hprint, hread, ht'⟩

theorem parse_print_use_call :
    ∃ t printed t', (parse unnamedFile " x = new ( a ( a ) ) ( a ) ; ").result = .ok t ∧
      t.unplaced = (Use.construct.program (.mk none (Use.call.form (Use.name "a")))).unplaced ∧
      t.print {} = .ok printed ∧ (parse unnamedFile printed).result = .ok t' ∧
      t'.unplaced = t.unplaced := by
  have hparts : FormsAll [.nonterminal .member, .nonterminal .arguments]
      [.node (Use.name "a"), .list [.node (Use.name "a")]]
      [.of .name "a", .of .lparen "(", .of .name "a", .of .rparen ")"] .rparen :=
    .cons (.member rfl _) (Forms.argument _).single
  have hcall : Forms (.nonterminal .call) (.node (.mk none (Use.call.form (Use.name "a"))))
      [.of .name "a", .of .lparen "(", .of .name "a", .of .rparen ")"] .rparen :=
    .rule .call hparts
  have hforms : Forms (.nonterminal .expression) (.node (.mk none (Use.call.form (Use.name "a"))))
      [.of .name "a", .of .lparen "(", .of .name "a", .of .rparen ")"] .rparen :=
    (hcall.pass (m := .target)).assignment.pass
  have parts : ∀ {P : Form Node → Prop}, P (Use.name "a").form →
      P (Use.call.form (Use.name "a")) →
      Shaped P .expression (.mk none (Use.call.form (Use.name "a"))) := fun hname hcall =>
    .mk rfl hcall (List.forall_mem_cons.2 ⟨.mk rfl hname nofun,
      List.forall_mem_cons.2 ⟨.mk rfl hname nofun, nofun⟩⟩)
  have name : ∀ k ∈ ["a", "x"], (Token.of .name k).Complete := fun k hk =>
    .name rfl (isName_of_all (by revert k; decide))
  have spelled : SpelledBy (maskHashbang " x = new ( a ( a ) ) ( a ) ; ".toList)
      (Use.construct.tokens [.of .name "a", .of .lparen "(", .of .name "a", .of .rparen ")"]) := by
    refine spelledBy_spaced ?_ ?_
    · simp only [Use.tokens, Use.opening, Use.closing, List.cons_append, List.nil_append,
        List.forall_mem_cons]
      exact ⟨name "x" (by decide), .word (by decide), .word (by decide), .word (by decide),
        name "a" (by decide), .word (by decide), name "a" (by decide), .word (by decide),
        .word (by decide), .word (by decide), name "a" (by decide), .word (by decide),
        .word (by decide), nofun⟩
    · simp only [Use.tokens, Use.opening, Use.closing, List.cons_append, List.nil_append,
        List.forall_mem_cons, Token.IsSolid, Token.of]
      refine ⟨?_, ?_, ?_, ?_, ?_, ?_, ?_, ?_, ?_, ?_, ?_, ?_, ?_, nofun⟩ <;>
        exact ⟨_, rfl, by decide⟩
  exact parse_print_use .construct hforms
    (parts ⟨rfl, rfl, isIdentifier_of (by decide)⟩ trivial) (parts trivial trivial)
    (fun _ => rfl) spelled unnamedFile

/-- A unary callee of `new` loses its parentheses. -/
theorem construct_unary_not_read :
    (Use.construct.program (.mk none (.unary "-" (Use.name "a")))).print {} =
        .ok "x = new -a(a);" ∧
      (parse unnamedFile "x = new -a(a);").result matches .error _ := by
  decide +kernel

end Debundle
