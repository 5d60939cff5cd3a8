import Debundle.Proofs.Writing.Expressions

/-!
# Literals, lists and functions are read back

Expressions that do not stand on operators: names and literals, sequences, arrays, objects and
functions. Each of them is told if its parts are.
-/
namespace Debundle

open Text Build Piece Level

theorem Phrase.of_unplaced {strict rests : Bool} {s : GrammarSymbol} {v w : Value}
    {pieces : List Piece} {refused : List Terminal} (h : Phrase strict rests s v pieces refused)
    (hw : w.unplaced = v.unplaced) : Phrase strict rests s w pieces refused := by
  obtain ⟨tokens, hlays, h⟩ := h
  refine ⟨tokens, hlays, fun after hafter => ?_⟩
  obtain ⟨hforms, hapart⟩ := h after hafter
  exact ⟨hforms.of_unplaced hw, hapart⟩

theorem Phrase.sequence {strict lead : Bool} {x : Node} (hx : x.form.isSequence = false)
    {pieces : List Piece}
    (hfirst : Phrase strict false (.nonterminal (expression.symbol lead)) (.node x) pieces
      Node.awkward)
    {items : List Node} {written : Node → List Piece}
    (h : ∀ n ∈ items, Phrase strict false (.nonterminal .assignment) (.node (n.settled style)) (written n)
      Node.awkward) {y : Node} {last : List Piece} {refused : List Terminal}
    (hlast : Phrase strict false (.nonterminal .assignment) (.node y) last refused) :
    Phrase strict false (.nonterminal (expression.symbol lead))
      (.node (.mk none (.sequence (x :: items.map (Node.settled style) ++ [y]))))
      (pieces ++ items.flatMap (fun n => Layout.comma ++ written n) ++ (Layout.comma ++ last))
      refused := by
  have step : ∀ {left v y : Node} {ps qs : List Piece} {refused : List Terminal},
      Phrase strict false (.nonterminal (expression.symbol lead)) (.node left) ps Node.awkward →
      Phrase strict false (.nonterminal .assignment) (.node y) qs refused →
      (∀ a, apply .sequence none [.node left, a, .node y] = .ok (.node v)) →
      Phrase strict false (.nonterminal (expression.symbol lead)) (.node v)
        (ps ++ (Layout.comma ++ qs)) refused := fun hleft hright ha =>
    .rule .sequence (.cons hleft (.mark .comma "," rfl (.blank (.single hright))) rfl) (ha _)
      (by cases lead <;> rfl)
  induction items using List.reverseRecOn generalizing y last refused with
  | nil =>
    rw [List.flatMap_nil, List.append_nil]
    refine step hfirst hlast fun a => ?_
    rw [apply.eq_def]
    dsimp only
    split
    · cases hx
    · rfl
  | append_singleton init n ih =>
    obtain ⟨hinit, hn⟩ := List.forall_mem_append.1 h
    have := step (ih hinit (hn n (.head _))) hlast fun a => rfl
    simpa using this

theorem Phrase.hole {strict : Bool} : Phrase strict false (.nonterminal .element)
    (.node (.mk none .hole)) [] Node.awkward :=
  .rule .element .nil rfl rfl

theorem Layout.isHole_eq (n : Node) (writer : Layout.Writer) :
    Layout.isHole (n, writer) = n.form.isHole := by
  obtain ⟨line, form⟩ := n
  cases form <;> rfl

namespace Node

attribute [local simp] settledForm Form.map

variable {style : Style} {strict : Bool} {line : Option Nat}

theorem isSequence_settled (n : Node) : (n.settled style).form.isSequence = n.form.isSequence := by
  obtain ⟨line, form⟩ := n
  rw [settled_mk]
  cases form <;> rfl

theorem isHole_settled (n : Node) : (n.settled style).form.isHole = n.form.isHole := by
  obtain ⟨line, form⟩ := n
  rw [settled_mk]
  cases form <;> rfl

theorem rank_of_not_isSequence {n : Node} (h : n.form.isSequence = false) (p : Place) :
    1 ≤ (n.levelAt p).rank := by
  obtain ⟨line, form⟩ := n
  rw [levelAt]
  split
  · decide
  · unfold Form.level
    split <;> first | (split <;> decide) | simp_all [Level.rank, Node.form, Form.isSequence]

namespace Told

/-! ## Literals -/

theorem of_primary {form : Form Node} (he : form.isExpression = true) (ho : form.IsOrdinary)
    (hl : form.level = .primary)
    (h : ∀ p, Phrase strict false (.nonterminal .primaryLead) (.node ((Node.mk line form).settled style))
      (Layout.bare style (form.map fun n => (n, n.pieces style)) p) (form.refused strict)) :
    (Node.mk line form).Told style strict := by
  refine .of_bare he ho fun p _ lead _ _ => ?_
  rw [hl]
  exact .of_primary (h p)

theorem symbol {k : String} (hk : IsIdentifier k) :
    (Node.mk line (.symbol ⟨.reference, k, none, none⟩)).Told style strict := by
  refine .of_primary rfl trivial rfl fun p => ?_
  have hname := Layout.name_of_isPrintable hk.printable style
  rw [settled_mk]
  show Phrase strict false _ _ [Layout.name style k] []
  rw [hname]
  exact .primary .reference (.token (.name rfl hk.name) hk.own (by decide) fun _ _ => rfl) rfl rfl

theorem of_keyword {form : Form Node} (ho : form.IsOrdinary) (label : Label) (t : Terminal)
    (k : String) (he : form.isExpression = true) (hl : form.level = .primary)
    (hf : form.refused strict = [])
    (hb : ∀ p, Layout.bare style (form.map fun n => (n, n.pieces style)) p = [word k])
    (hr : Rule.isFree ⟨.primaryLead, [.terminal t], label⟩ = true) (hk : t.marks k = true)
    (ha : apply label none [.token (.of t k)] =
      .ok (.node (.mk none (settledForm style (form.map fun n => (n, n.settled style)))))) :
    (Node.mk line form).Told style strict := by
  refine .of_primary he ho hl fun p => ?_
  rw [settled_mk, hb, hf]
  exact .rule label (.mark t k hk .nil) ha hr

theorem self : (Node.mk line .self).Told style strict :=
  .of_keyword trivial .self .kwThis "this" rfl rfl rfl (fun _ => rfl) rfl rfl rfl

theorem null : (Node.mk line .null).Told style strict :=
  .of_keyword trivial .null .kwNull "null" rfl rfl rfl (fun _ => rfl) rfl rfl rfl

theorem boolean (b : Bool) : (Node.mk line (.boolean b)).Told style strict := by
  cases b with
  | true => exact .of_keyword trivial .yes .kwTrue "true" rfl rfl rfl (fun _ => rfl) rfl rfl rfl
  | false => exact .of_keyword trivial .no .kwFalse "false" rfl rfl rfl (fun _ => rfl) rfl rfl rfl

theorem string {v : String} (hv : '\\' ∉ v.toList) :
    (Node.mk line (.string v)).Told style strict := by
  refine .of_primary rfl trivial rfl fun p => ?_
  rw [settled_mk]
  refine .primary .string (.string style.asciiOnly hv) ?_ rfl
  have := (Literal.string_written style.asciiOnly hv).2
  simp [apply.eq_def, Token.of, this, literal, bind, Except.bind]

theorem number {n : Nat} (hn : n < 10 ^ Numeral.maxDigits) :
    (Node.mk line (.number (.whole n))).Told style strict := by
  refine .of_primary rfl trivial rfl fun p => ?_
  rw [settled_mk]
  have hcode := Numeral.code?_whole (Numeral.length_naturalText hn)
  have hbare : Layout.bare style ((Form.number (.whole n)).map fun n => (n, n.pieces style)) p =
      [word (String.ofList (Numeral.naturalText n))] := by
    simp [Layout.bare, hcode]
  rw [hbare]
  refine .primary .number (.number ?_ ?_) ?_ rfl
  · simp [Numeral.naturalText]
  · intro c hc
    rw [String.toList_ofList] at hc
    exact Numeral.isDigit_naturalText hc
  · simp [apply.eq_def, Token.of, Numeral.number_written hn, literal, bind,
      Except.bind]

theorem regexp {k : String} (hprint : IsPrintable k.toList)
    (hk : Lexeme.regex? k.toList = some k.toList.length) :
    (Node.mk line (.regexp k)).Told style strict := by
  refine .of_primary rfl trivial rfl fun p => ?_
  rw [settled_mk]
  have htext : text (if style.asciiOnly then Escape.ascii false k.toList else k.toList) = word k := by
    rw [Escape.ascii_of_isPrintable hprint, ite_self]
    rfl
  show Phrase strict false _ _ [text (if style.asciiOnly then _ else _)] _
  rw [htext]
  exact .primary .regexp (.regex hk) rfl rfl

/-! ## Sequences and arrays -/

theorem sequence {items : List Node} (hlen : 2 ≤ items.length)
    (hflat : ∀ m ∈ items, m.form.isSequence = false) (h : ∀ m ∈ items, m.Told style strict) :
    (Node.mk line (.sequence items)).Told style strict := by
  refine .of_bare (by simpa [Form.isExpression] using hlen) trivial fun p hp lead hlead _ => ?_
  obtain ⟨x, rest, rfl⟩ := List.exists_cons_of_length_pos (Nat.lt_of_lt_of_le (by decide) hlen)
  obtain ⟨init, y, rfl⟩ := List.eq_nil_or_concat' rest |>.resolve_left (by rintro rfl; simp at hlen)
  have hfirst := ((h x (by simp)).speaks (p.leading .plain) (by simp) lead hlead).toExpression.refuse
    (refused_subset x _)
  have item : ∀ m ∈ x :: (init ++ [y]), Phrase strict false (.nonterminal .assignment)
      (.node (m.settled style)) (m.pieces style (p.inside .plain)) (m.refused strict .plain) := fun m hm =>
    ((h m hm).speaks (p.inside .plain) (by simp) false (by simp)).toAssignment
      (rank_of_not_isSequence (hflat m hm) _)
  have := Phrase.sequence (by rw [isSequence_settled]; exact hflat x (by simp)) hfirst
    (fun m (hm : m ∈ init) => (item m (by simp [hm])).refuse (refused_subset m _)) (item y (by simp))
  rw [settled_mk]
  have hform : settledForm style ((Form.sequence (x :: (init ++ [y]))).map fun n => (n, n.settled style)) =
      .sequence ((x.settled style) :: init.map (settled style) ++ [y.settled style]) := by
    simp
  have hpieces : Layout.bare style ((Form.sequence (x :: (init ++ [y]))).map
      fun n => (n, n.pieces style)) p = x.pieces style (p.leading .plain) ++
        init.flatMap (fun n => Layout.comma ++ n.pieces style (p.inside .plain)) ++
        (Layout.comma ++ y.pieces style (p.inside .plain)) := by
    simp [Form.map, Layout.bare, Layout.items, Layout.intercalate_cons, List.flatMap_append,
      List.flatMap_map]
  have hrefused : (Form.sequence (x :: (init ++ [y]))).refused strict = y.refused strict .plain := by
    simp [Form.refused, List.getLast?_cons]
  rw [hform, hpieces, hrefused]
  exact this

theorem element {n : Node} (h : n.form.isHole = true ∨ n.Told style strict) (p : Place) :
    Phrase strict false (.nonterminal .element) (.node (n.settled style))
      (n.pieces style (p.inside .member)) awkward := by
  obtain hole | h := h
  · obtain ⟨line, form⟩ := n
    cases form with
    | hole =>
      rw [settled_mk, pieces_mk]
      exact .hole
    | _ => cases hole
  · have hn := (h.toAssignment (p := p.inside .member) (by simp [Place.inside])).refuse
      (refused_subset n _)
    exact .rule .element (.single hn) rfl rfl

theorem brackets {n : Node} {ns : List Node}
    (h : ∀ m ∈ n :: ns, m.form.isHole = true ∨ m.Told style strict) (p : Place) :
    Phrase strict false (.nonterminal .array)
      (.node (.mk none (.array (dropHole ((n :: ns).map (settled style))))))
      (word "[" :: space :: (n.pieces style (p.inside .member) ++
        (ns.flatMap (fun m => Layout.comma ++ m.pieces style (p.inside .member)) ++
          [space, word "]"]))) [] := by
  obtain ⟨hn, hns⟩ := List.forall_mem_cons.1 h
  have hclose : Phrases strict false false [.terminal .rbracket] [.token (.of .rbracket "]")]
      [space, word "]"] [] := .blank (.mark .rbracket "]" rfl .nil)
  obtain rfl | hne := eq_or_ne ns []
  · exact .rule .array (.mark .lbracket "[" rfl (.blank (.cons (element hn p) hclose rfl))) rfl rfl
  · have hmore := Phrase.moreNodes (m := .moreElements) areBlank_space hne
      (fun m hm => element (hns m hm) p) rfl
    refine .rule .array (.mark .lbracket "[" rfl (.blank (.cons (element hn p)
      (.cons hmore hclose rfl) rfl))) ?_ rfl
    simp [apply.eq_def]

theorem dropHole_concat (ns : List Node) : dropHole (ns ++ [.mk none .hole]) = ns := by
  simp [dropHole]

theorem dropHole_of_not_isHole {ns : List Node}
    (h : ∀ n ∈ ns.getLast?, n.form.isHole = false) : dropHole ns = ns := by
  unfold dropHole
  split
  · rename_i hlast
    cases h _ hlast
  · rfl

theorem array {items : List Node} (h : ∀ m ∈ items, m.form.isHole = true ∨ m.Told style strict) :
    (Node.mk line (.array items)).Told style strict := by
  refine .of_primary rfl trivial rfl fun p => ?_
  refine Phrase.pass (n := .array) ?_ rfl
  have hform : settledForm style ((Form.array items).map fun n => (n, n.settled style)) =
      .array (items.map (settled style)) := by simp
  rw [settled_mk, hform]
  cases items with
  | nil =>
    exact .rule .array (.mark .lbracket "[" rfl (.cons .hole (.mark .rbracket "]" rfl .nil) rfl)) rfl
      rfl
  | cons n ns =>
    -- after a last hole there is one more comma, and so one more hole
    have hpieces : Layout.bare style ((Form.array (n :: ns)).map fun n => (n, n.pieces style)) p =
        word "[" :: space :: (n.pieces style (p.inside .member) ++
          (ns.flatMap (fun m => Layout.comma ++ m.pieces style (p.inside .member)) ++
            ((if (n :: ns).getLast?.any (·.form.isHole) then Layout.comma else []) ++
              [space, word "]"]))) := by
      have hlast : (((n :: ns).map fun n => (n, n.pieces style)).getLast?.any Layout.isHole) =
          (n :: ns).getLast?.any (·.form.isHole) := by
        rw [List.getLast?_map, Option.any_map]
        exact congrArg (Option.any · _) (funext fun n => Layout.isHole_eq n _)
      simp only [Form.map, Layout.bare, Layout.elements, hlast]
      simp [Layout.intercalate_cons, List.flatMap_map]
    rw [hpieces]
    cases hlast : (n :: ns).getLast?.any (·.form.isHole) with
    | true =>
      have hall : ∀ m ∈ n :: (ns ++ [Node.mk none .hole]),
          m.form.isHole = true ∨ m.Told style strict := by
        intro m hm
        obtain hm | hm := List.mem_append.1 (List.cons_append ▸ hm)
        · exact h m hm
        · exact .inl (by rw [List.mem_singleton.1 hm]; rfl)
      have hdrop : dropHole ((n :: (ns ++ [Node.mk none .hole])).map (settled style)) =
          (n :: ns).map (settled style) := by
        rw [← List.cons_append, List.map_append]
        exact dropHole_concat _
      have := brackets hall p
      rw [hdrop, List.flatMap_append, List.append_assoc] at this
      exact this
    | false =>
      have := brackets h p
      rw [dropHole_of_not_isHole] at this
      · exact this
      · intro m hm
        rw [List.getLast?_map] at hm
        obtain ⟨last, hmem, rfl⟩ := Option.map_eq_some_iff.1 hm
        rw [hmem] at hlast
        rw [isHole_settled]
        exact hlast

end Told

/-! ## Functions -/

/-- The text of a name. -/
def spelling (n : Node) : String :=
  match n.form with
  | .symbol s => s.name
  | _ => ""

/-- A name of a role. -/
structure Named (role : Role) (n : Node) : Prop where
  is : n.form = .symbol ⟨role, n.spelling, none, none⟩
  identifier : IsIdentifier n.spelling

theorem named_of_isFaithful {role : Role} {n : Node} (h : IsFaithful strict (.name role) n) :
    n.Named role := by
  have hown := h.own
  have hfits := h.fits
  obtain ⟨line, form⟩ := n
  cases form with
  | symbol s =>
    obtain ⟨hhome, hshown, hname⟩ := hown
    obtain ⟨role', name, home, shownAs⟩ := s
    obtain rfl : home = none := hhome
    obtain rfl : shownAs = none := hshown
    obtain rfl : role' = role := of_decide_eq_true hfits
    exact ⟨rfl, hname⟩
  | _ => cases hfits

namespace Named

variable {role : Role} {n : Node}

theorem settled_eq (h : n.Named role) :
    (n.settled style) = .mk none (.symbol ⟨role, n.spelling, none, none⟩) := by
  obtain ⟨line, form⟩ := n
  have hform : form = .symbol ⟨role, (Node.mk line form).spelling, none, none⟩ := h.is
  generalize (Node.mk line form).spelling = k at hform ⊢
  rw [settled_mk, hform]
  rfl

theorem pieces_eq (h : n.Named role) (style : Style) (p : Place) : n.pieces style p = [word n.spelling] := by
  have hname := Layout.name_of_isPrintable h.identifier.printable style
  obtain ⟨line, form⟩ := n
  have hform : form = .symbol ⟨role, (Node.mk line form).spelling, none, none⟩ := h.is
  generalize (Node.mk line form).spelling = k at hform hname ⊢
  rw [pieces_mk, hform]
  exact congrArg (fun q => [q]) hname

end Named

/-- The values of the names of parameters. -/
def parameterValues (params : List Node) : List Value :=
  params.map fun n => .token (.of .name n.spelling)

theorem Stated.function {params body : List Node} (hp : ∀ n ∈ params, n.Named .parameter)
    (hb : ∀ n ∈ body, n.Stated style strict) :
    Phrases strict false true [.terminal .lparen, .nonterminal .parameters, .terminal .rparen,
        .nonterminal .functionBody]
      [.token (.of .lparen "("), .list (parameterValues params), .token (.of .rparen ")"),
        .list ((kept (body.map fun n => (n, n.settled style))).map .node)]
      (Layout.parameters (params.map fun n => (n, n.pieces style)) ++ ([space] ++
        Layout.braced (body.map fun n => (n, n.pieces style)))) [.slash, .slashEqual] := by
  have hnames : (params.map fun n => (n, n.pieces style)).map Layout.alone =
      (params.map spelling).map fun k => [word k] := by
    rw [List.map_map, List.map_map]
    exact List.map_congr_left fun n hn => (hp n hn).pieces_eq style .root
  have hparams : Phrase strict false (.nonterminal .parameters)
      (.list ((params.map spelling).map fun k => .token (.of .name k)))
      (Layout.comma.intercalate ((params.map spelling).map fun k => [word k])) [] := by
    refine .parameters fun k hk => ?_
    obtain ⟨n, hn, rfl⟩ := List.mem_map.1 hk
    exact (hp n hn).identifier
  rw [List.map_map] at hparams
  rw [Layout.parameters, Layout.parens, hnames, List.cons_append, List.cons_append,
    List.append_assoc]
  exact .mark .lparen "(" rfl (.cons hparams (.mark .rparen ")" rfl (.blank (.single
    (Stated.functionBody hb)))) rfl)

theorem symbols_parameterValues (style : Style) {params : List Node} (h : ∀ n ∈ params, n.Named .parameter) :
    (symbols .parameter (parameterValues params)).map unplaced =
      (params.map (settled style)).map unplaced := by
  have heq : parameterValues params = (params.map fun n => Token.of .name n.spelling).map .token := by
    rw [List.map_map]
    rfl
  rw [heq, symbols_map_token]
  simp only [List.map_map]
  refine List.map_congr_left fun n hn => ?_
  simp only [Function.comp_apply, (h n hn).settled_eq, Build.symbol, Token.of, unplaced_mk]

namespace Told

theorem function {own : Option Node} (hown : ∀ n ∈ own, n.Named .ownName) {params body : List Node}
    (hp : ∀ n ∈ params, n.Named .parameter) (hb : ∀ n ∈ body, n.Stated style strict) :
    (Node.mk line (.function .expression own params body)).Told style strict := by
  refine .of_bare rfl trivial fun p hknown lead hlead hparens => ?_
  obtain rfl : lead = false := by
    cases lead with
    | false => rfl
    | true => exact Bool.noConfusion ((hlead rfl).symm.trans (hparens rfl))
  have htail := Stated.function hp hb
  have hform : settledForm style ((Form.function .expression own params body).map
      fun n => (n, n.settled style)) = .function .expression (own.map (settled style)) (params.map (settled style))
        (kept (body.map fun n => (n, n.settled style))) := by
    simp [Function.comp_def]
  rw [settled_mk, hform]
  refine Phrase.pass (n := .functionExpression) (m := .member) (Phrase.of_rests ?_) rfl
  cases own with
  | none =>
    show Phrase strict true _ _ ([word "function"] ++ _ ++ [space] ++ _) [.slash, .slashEqual]
    rw [List.append_assoc, List.append_assoc]
    refine Phrase.of_unplaced (.rule .function (.mark .kwFunction "function" rfl htail) rfl
      rfl) ?_
    simp [Value.unplaced, unplaced_mk, Form.map, symbols_parameterValues style hp]
  | some n =>
    have hn := hown n rfl
    show Phrase strict true _ _ ([word "function", space] ++ n.pieces style .root ++ _ ++ [space] ++ _)
      [.slash, .slashEqual]
    rw [hn.pieces_eq, List.append_assoc, List.append_assoc]
    refine Phrase.of_unplaced (.rule .function (.mark .kwFunction "function" rfl (.blank
      (.name hn.identifier.own hn.identifier.name htail))) rfl rfl) ?_
    simp [Value.unplaced, unplaced_mk, Form.map, symbols_parameterValues style hp, hn.settled_eq,
      Build.symbol, Token.of]

end Told

/-! ## Objects -/

/-- A node is written as a property. -/
def Owned (style : Style) (strict : Bool) (n : Node) : Prop :=
  ∀ p : Place, Phrase strict false (.nonterminal .property) (.node (n.settled style))
    (n.pieces style (p.inside .plain)) awkward

theorem owned_keyValue {k : String} {n : Node} (hk : (Form.property .keyValue k n).IsFaithful strict)
    (hn : n.Told style strict) : (Node.mk line (.property .keyValue k n)).Owned style strict := by
  intro p
  obtain ⟨hslash, hprint, hlen⟩ := hk
  obtain ⟨a, hkey, hvalue⟩ := Phrase.key style .keyValue hslash hprint hlen
  have hn := (hn.toAssignment (p := (p.inside .plain).inside .member) (by simp [Place.inside])).refuse
    (refused_subset n _)
  rw [settled_mk, pieces_mk]
  show Phrase strict false _ (.node (.mk none (.property .keyValue k (n.settled style))))
    ([Layout.key style k] ++ (Layout.colon ++ n.pieces style _)) awkward
  refine .rule .keyValue (.cons hkey (.mark .colon ":" rfl (.blank (.single hn))) rfl) ?_ rfl
  simp only [apply.eq_def, hvalue]
  rfl

/-- The word before a getter or setter. -/
def accessorWord : PropertyKind → String
  | .getter => "get"
  | _ => "set"

theorem apply_accessorWord {kind : PropertyKind} (hkind : kind ≠ .keyValue) (a : Token) (v w : Value)
    (params body : List Value) :
    apply .accessor none [.token (.of .name (accessorWord kind)), .token a, v, .list params, w,
        .list body] =
      (propertyKey .accessor a).map fun k => .node (.mk none (.property kind k
        (.mk none (.function .accessor none (symbols .parameter params) (nodes body))))) := by
  cases kind with
  | keyValue => exact absurd rfl hkind
  | getter | setter => rfl

theorem owned_accessor {kind : PropertyKind} (hkind : kind ≠ .keyValue) {k : String}
    {params body : List Node} {l : Option Nat}
    (hk : (Form.property kind k (.mk l (.function .accessor none params body))).IsFaithful strict)
    (hp : ∀ n ∈ params, n.Named .parameter) (hb : ∀ n ∈ body, n.Stated style strict) :
    (Node.mk line (.property kind k (.mk l (.function .accessor none params body)))).Owned style
      strict := by
  intro p
  obtain ⟨hslash, hprint, hlen⟩ := hk
  obtain ⟨a, hkey, hvalue⟩ := Phrase.key style .accessor hslash hprint hlen
  have hword : (Token.of .name (accessorWord kind)).spellsKeyword = false ∧
      IsName (accessorWord kind).toList := by
    cases kind with
    | getter => exact ⟨by decide, 'g', ['e', 't'], rfl, by decide, by decide⟩
    | _ => exact ⟨by decide, 's', ['e', 't'], rfl, by decide, by decide⟩
  have htail := Stated.function hp hb
  have hbare : (Node.mk line (.property kind k (.mk l (.function .accessor none params body)))).pieces
      style (p.inside .plain) = word (accessorWord kind) :: space :: ([Layout.key style k] ++
        (Layout.parameters (params.map fun n => (n, n.pieces style)) ++ ([space] ++
          Layout.braced (body.map fun n => (n, n.pieces style))))) := by
    rw [pieces_mk, ← List.append_assoc (Layout.parameters _)]
    cases kind with
    | keyValue => exact absurd rfl hkind
    | getter | setter =>
      show _ ++ (Node.mk l (.function .accessor none params body)).pieces style
        ((p.inside .plain).inside .member) = _
      rw [pieces_mk]
      rfl
  rw [settled_mk, hbare]
  have hphrase := Phrase.rule (n := .property) .accessor (.name hword.1 hword.2 (.blank (p := space)
    (.cons hkey htail rfl))) (by rw [apply_accessorWord hkind, hvalue]; rfl) rfl
  refine ((hphrase.of_unplaced ?_).refuse (by decide)).of_rests
  simp [Value.unplaced, unplaced_mk, symbols_parameterValues style hp,
    settled_mk]

theorem Told.object {items : List Node} (h : ∀ m ∈ items, m.Owned style strict) :
    (Node.mk line (.object items)).Told style strict := by
  refine .of_bare rfl trivial fun p hknown lead hlead hparens => ?_
  obtain rfl : lead = false := by
    cases lead with
    | false => rfl
    | true => exact Bool.noConfusion ((hlead rfl).symm.trans (hparens rfl))
  refine Phrase.pass (n := .object) (m := .primary) ?_ rfl
  have hform : settledForm style ((Form.object items).map fun n => (n, n.settled style)) =
      .object (items.map (settled style)) := by simp
  rw [settled_mk, hform]
  have hclose : Phrases strict false true [.terminal .rbrace] [.token (.of .rbrace "\x7d")]
      [newline, shallower, indent, word "\x7d"] [] := .closing .nil
  cases items with
  | nil =>
    exact .rule .object (.braces .nil) rfl rfl
  | cons n ns =>
    obtain ⟨hn, hns⟩ := List.forall_mem_cons.1 h
    have hpieces : Layout.bare style ((Form.object (n :: ns)).map fun n => (n, n.pieces style)) p =
        word "\x7b" :: newline :: deeper :: indent :: (n.pieces style (p.inside .plain) ++
          (ns.flatMap (fun m => word "," :: ([newline, indent] ++ m.pieces style (p.inside .plain))) ++
            [newline, shallower, indent, word "\x7d"])) := by
      simp [Form.map, Layout.bare, Layout.braces, Layout.intercalate_cons, List.flatMap_map]
    rw [hpieces]
    refine Phrase.of_rests ?_
    obtain rfl | hne := eq_or_ne ns []
    · exact .rule .object (.markEnd .lbrace "\x7b" rfl rfl (.newline (.blank (.blank (.cons
        (hn p) hclose rfl))))) rfl rfl
    · have hmore := Phrase.moreNodes (m := .moreProperties)
        (show AreBlank [newline, indent] by simp [AreBlank, Piece.isBlank]) hne
        (fun m hm => hns m hm p) rfl
      refine .rule .object (.markEnd .lbrace "\x7b" rfl rfl (.newline (.blank (.blank (.cons (hn p)
        (.cons hmore hclose rfl) rfl))))) ?_ rfl
      simp [apply.eq_def]

end Node

end Debundle
