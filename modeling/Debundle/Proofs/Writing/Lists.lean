import Debundle.Proofs.Writing.Literals

/-!
# Phrases of lists

Lists grow at their end, with commas between their items or with nothing. What is written between
two items may end a line.
-/
namespace Debundle

open Text Build Piece GrammarSymbol

/-- Pieces that end lines and indent them. -/
def Piece.AreBlank (pieces : List Piece) : Prop :=
  ∀ p ∈ pieces, p.isBlank = true ∨ p = .newline

theorem Piece.areBlank_space : AreBlank [space] := by simp [AreBlank, Piece.isBlank]

theorem Phrases.blanks {strict rests : Bool} {ss : List GrammarSymbol} {vs : List Value}
    {pieces blanks : List Piece} {refused : List Terminal}
    (h : Phrases strict true rests ss vs pieces refused) (hb : AreBlank blanks) :
    Phrases strict true rests ss vs (blanks ++ pieces) refused := by
  induction blanks with
  | nil => exact h
  | cons p blanks ih =>
    have ih := ih fun q hq => hb q (.tail _ hq)
    obtain hp | rfl := hb p (.head _)
    · have : p.Blank := ⟨hp⟩
      exact ih.blank
    · exact ih.newline

theorem Phrases.pads {strict needs rests : Bool} {ss : List GrammarSymbol} {vs : List Value}
    {pieces pads : List Piece} {refused : List Terminal}
    (h : Phrases strict needs rests ss vs pieces refused) (hp : ∀ p ∈ pads, p.isBlank = true) :
    Phrases strict needs rests ss vs (pads ++ pieces) refused := by
  induction pads with
  | nil => exact h
  | cons p pads ih =>
    have : p.Blank := ⟨hp p (.head _)⟩
    exact (ih fun q hq => hp q (.tail _ hq)).blank

/-- Whether a nonterminal stands for items with commas before them. -/
def Nonterminal.continues (m : Nonterminal) (s : GrammarSymbol) : Bool :=
  Rule.isFree ⟨m, [.terminal .comma, s], .gather⟩ &&
    Rule.isFree ⟨m, [.nonterminal m, .terminal .comma, s], .gather⟩

namespace Phrase

variable {strict : Bool} {refused : List Terminal} {blanks : List Piece}

theorem more {m : Nonterminal} {s : GrammarSymbol} (hb : AreBlank blanks)
    (hcomma : .comma ∉ refused) {items : List (Value × List Piece)} (hne : items ≠ [])
    (h : ∀ i ∈ items, Phrase strict false s i.1 i.2 refused ∧ i.1.items = [i.1])
    (hm : m.continues s = true) :
    Phrase strict false (.nonterminal m) (.list (items.map Prod.fst))
      (items.flatMap fun i => word "," :: (blanks ++ i.2)) refused := by
  obtain ⟨one, grow⟩ := Bool.and_eq_true_iff.1 hm
  induction items using List.reverseRecOn with
  | nil => exact absurd rfl hne
  | append_singleton init i ih =>
    obtain ⟨hi, hitems⟩ := h i (by simp)
    have hlast : Phrases strict false false [.terminal .comma, s] [.token (.of .comma ","), i.1]
        (word "," :: (blanks ++ i.2)) refused :=
      .markEnd .comma "," rfl rfl (.blanks (.single hi) hb)
    obtain rfl | hinit := eq_or_ne init []
    · rw [List.nil_append, List.flatMap_singleton]
      refine .rule .gather hlast ?_ one
      simp [apply.eq_def, hitems, items_token, isMark, Token.of]
    · rw [List.flatMap_append, List.flatMap_singleton]
      have ih := ih hinit fun j hj => h j (by simp [hj])
      refine .rule .gather (.consBefore ih hlast ?_ (by simp)) ?_ grow
      · intro t ht
        obtain rfl := List.mem_singleton.1 ht
        exact hcomma
      · simp [apply.eq_def, hitems, items_token, isMark, Token.of]

theorem moreNodes {m : Nonterminal} {s : GrammarSymbol} (hb : AreBlank blanks)
    {style : Style} {ns : List Node} (hne : ns ≠ []) {pieces : Node → List Piece}
    (h : ∀ n ∈ ns, Phrase strict false s (.node (n.settled style)) (pieces n) Node.awkward)
    (hm : m.continues s = true) :
    Phrase strict false (.nonterminal m) (.list (ns.map fun n => .node (n.settled style)))
      (ns.flatMap fun n => word "," :: (blanks ++ pieces n)) Node.awkward := by
  have hitems : ∀ i ∈ ns.map fun n => (Value.node (n.settled style), pieces n),
      Phrase strict false s i.1 i.2 Node.awkward ∧ i.1.items = [i.1] := by
    intro i hi
    obtain ⟨n, hn, rfl⟩ := List.mem_map.1 hi
    exact ⟨h n hn, rfl⟩
  have := more hb (by decide) (by simpa using hne) hitems hm
  simpa [List.map_map, List.flatMap_map, Function.comp_def] using this

/-- A list of a nonterminal has items of some kinds one after the other. -/
structure Repeats (m : Nonterminal) (kind : Node → Nonterminal) (refused : List Terminal) :
    Prop where
  one : ∀ n, (⟨m, [.nonterminal (kind n)], .gather⟩ : Rule) ∈ Rule.all.toList
  grow : ∀ n, (⟨m, [.nonterminal m, .nonterminal (kind n)], .gather⟩ : Rule) ∈ Rule.all.toList
  plain : m ∉ [.ifStatement, .doStatement, .functionBody]
  full : ∀ n, (kind n).isNullable = false
  first : ∀ n, ∀ t ∈ (kind n).starts, t ∉ refused

theorem repeats_statements {refused : List Terminal}
    (h : ∀ t ∈ Nonterminal.statement.starts, t ∉ refused) :
    Repeats .statements (fun _ => .statement) refused :=
  ⟨fun _ => by decide, fun _ => by decide, by decide, fun _ => rfl, fun _ => h⟩

theorem repeated {m : Nonterminal} {kind : Node → Nonterminal} (hm : Repeats m kind refused)
    {items : List (Node × List Piece)} (hne : items ≠ [])
    (h : ∀ i ∈ items, Phrase strict true (.nonterminal (kind i.1)) (.node i.1) i.2 refused) :
    Phrase strict true (.nonterminal m) (.list (items.map fun i => .node i.1))
      (items.flatMap Prod.snd) refused := by
  induction items using List.reverseRecOn with
  | nil => exact absurd rfl hne
  | append_singleton init i ih =>
    have hi := h i (by simp)
    obtain rfl | hinit := eq_or_ne init []
    · rw [List.nil_append, List.flatMap_singleton]
      exact .rule .gather (.single hi) (by simp [apply.eq_def])
        (Rule.isFree_iff.2 ⟨hm.one i.1, hm.plain⟩)
    · rw [List.flatMap_append, List.flatMap_singleton]
      have ih := ih hinit fun j hj => h j (by simp [hj])
      refine .rule .gather (.consBefore ih (.single hi) (fun t ht => hm.first i.1 t ?_) ?_)
        (by simp [apply.eq_def]) (Rule.isFree_iff.2 ⟨hm.grow i.1, hm.plain⟩)
      · rw [firsts, firsts] at ht
        simpa [GrammarSymbol.starts] using ht
      · intro hall
        simp [GrammarSymbol.isNullable, hm.full] at hall

end Phrase

/-! ## Blanks between statements -/

theorem Lays.blanks {blanks : List Piece} (hb : AreBlank blanks) : Lays true true blanks [] := by
  induction blanks with
  | nil => exact .nil true
  | cons p blanks ih =>
    have ih := ih fun q hq => hb q (.tail _ hq)
    obtain hp | rfl := hb p (.head _)
    · exact ih.blank hp
    · exact ih.newline

theorem Phrase.trail {strict : Bool} {s : GrammarSymbol} {v : Value} {pieces blanks : List Piece}
    {refused : List Terminal} (h : Phrase strict true s v pieces refused) (hb : AreBlank blanks) :
    Phrase strict true s v (pieces ++ blanks) refused := by
  obtain ⟨tokens, hlays, h⟩ := h
  have := hlays.append (.blanks hb)
  rw [List.append_nil] at this
  exact ⟨tokens, this, h⟩

/-- Items, each with what is written between it and the next one. -/
def spread : List (Node × List Piece × List Piece) → List Piece
  | [] => []
  | [i] => i.2.1
  | i :: rest => i.2.1 ++ i.2.2 ++ spread rest

theorem exists_spread (items : List (Node × List Piece × List Piece))
    (hb : ∀ i ∈ items, AreBlank i.2.2) :
    ∃ others : List (Node × List Piece), others.map Prod.fst = items.map Prod.fst ∧
      others.flatMap Prod.snd = spread items ∧
      ∀ o ∈ others, ∃ i ∈ items, ∃ blanks, AreBlank blanks ∧ o = (i.1, i.2.1 ++ blanks) := by
  fun_induction spread items with
  | case1 => exact ⟨[], rfl, rfl, nofun⟩
  | case2 i =>
    refine ⟨[(i.1, i.2.1 ++ [])], rfl, by simp, fun o ho => ⟨i, .head _, [], nofun, ?_⟩⟩
    exact List.mem_singleton.1 ho
  | case3 i rest hne ih =>
    obtain ⟨others, hfst, hsnd, hall⟩ := ih fun j hj => hb j (.tail _ hj)
    refine ⟨(i.1, i.2.1 ++ i.2.2) :: others, by simp [hfst], by simp [hsnd], fun o ho => ?_⟩
    obtain rfl | ho := List.mem_cons.1 ho
    · exact ⟨i, .head _, i.2.2, hb i (.head _), rfl⟩
    · obtain ⟨j, hj, blanks, hblanks, rfl⟩ := hall o ho
      exact ⟨j, .tail _ hj, blanks, hblanks, rfl⟩

theorem Phrase.spread {strict : Bool} {refused : List Terminal} {m : Nonterminal}
    {kind : Node → Nonterminal} (hm : Repeats m kind refused)
    {items : List (Node × List Piece × List Piece)} (hne : items ≠ [])
    (hb : ∀ i ∈ items, AreBlank i.2.2)
    (h : ∀ i ∈ items, Phrase strict true (.nonterminal (kind i.1)) (.node i.1) i.2.1 refused) :
    Phrase strict true (.nonterminal m) (.list (items.map fun i => .node i.1))
      (Debundle.spread items) refused := by
  obtain ⟨others, hfst, hsnd, hall⟩ := exists_spread items hb
  have hothers : others ≠ [] := by
    rintro rfl
    exact hne (List.map_eq_nil_iff.1 hfst.symm)
  have := repeated hm hothers fun o ho => by
    obtain ⟨i, hi, blanks, hblanks, rfl⟩ := hall o ho
    exact (h i hi).trail hblanks
  have hvalues : others.map (fun o => Value.node o.1) = items.map fun i => .node i.1 := by
    have := congrArg (List.map Value.node) hfst
    rwa [List.map_map, List.map_map] at this
  rwa [hvalues, hsnd] at this

@[simp] theorem Build.nodes_map {α : Type} (f : α → Node) (xs : List α) :
    nodes (xs.map fun x => .node (f x)) = xs.map f := by
  have := nodes_map_node (xs.map f)
  rwa [List.map_map] at this

theorem Layout.intercalate_cons (sep x : List Piece) (xs : List (List Piece)) :
    sep.intercalate (x :: xs) = x ++ xs.flatMap (sep ++ ·) := by
  induction xs generalizing x with
  | nil => simp [List.intercalate]
  | cons y xs ih =>
    rw [List.flatMap_cons, ← List.append_assoc, ← List.append_assoc]
    simpa [List.intercalate] using ih y

/-! ## Parameters -/

theorem Phrase.parameters {strict : Bool} {ks : List String} (h : ∀ k ∈ ks, IsIdentifier k) :
    Phrase strict false (.nonterminal .parameters) (.list (ks.map fun k => .token (.of .name k)))
      (Layout.comma.intercalate (ks.map fun k => [word k])) [] := by
  cases ks with
  | nil =>
    exact .rule .parameters .nil rfl rfl
  | cons k ks =>
    obtain ⟨hk, hks⟩ := List.forall_mem_cons.1 h
    rw [List.map_cons, List.map_cons, Layout.intercalate_cons, List.flatMap_map]
    obtain rfl | hne := eq_or_ne ks []
    · exact .rule .parameters (.name hk.own hk.name .nil) rfl rfl
    · have hitems : ∀ i ∈ ks.map fun k => (Value.token (.of .name k), [word k]),
          Phrase strict false (.terminal .name) i.1 i.2 [] ∧ i.1.items = [i.1] := by
        intro i hi
        obtain ⟨k, hk, rfl⟩ := List.mem_map.1 hi
        have hk := hks k hk
        exact ⟨token (.name rfl hk.name) hk.own (by decide) fun _ _ => rfl, rfl⟩
      have hmore := more (m := .moreParameters) areBlank_space List.not_mem_nil
        (by simpa using hne) hitems rfl
      rw [List.map_map, List.flatMap_map] at hmore
      refine .rule .parameters (.name hk.own hk.name (.single hmore)) ?_ rfl
      simp [apply.eq_def, items_token, isMark, Token.of, Function.comp_def]

/-! ## Bodies -/

namespace Node

/-- The terminals that may not come after just any statement. -/
def afterStatement : List Terminal := [.kwElse, .slash, .slashEqual]

/-- The terminals that may not come after a statement: a slash, and an `else` that an `if` inside
the statement would take. -/
def shunned (n : Node) : List Terminal :=
  if Layout.capturesElse n then afterStatement else [.slash, .slashEqual]

theorem shunned_subset (n : Node) : ∀ t ∈ n.shunned, t ∈ afterStatement := by
  unfold shunned
  split
  · exact fun _ => id
  · decide

/-- A node is written as a statement. -/
def Stated (style : Style) (strict : Bool) (n : Node) : Prop :=
  Phrase strict true (.nonterminal .statement) (.node (n.settled style)) (n.pieces style .root)
    n.shunned

variable {style : Style} {strict : Bool}

theorem Stated.statements {ns : List Node} (hne : ns ≠ []) (h : ∀ n ∈ ns, n.Stated style strict) :
    Phrase strict true (.nonterminal .statements) (.list (ns.map fun n => .node (n.settled style)))
      (ns.flatMap fun n => indent :: n.pieces style .root ++ [newline]) afterStatement := by
  have hitems : ∀ i ∈ ns.map fun n => (n.settled style, indent :: n.pieces style .root ++ [newline]),
      Phrase strict true (.nonterminal .statement) (.node i.1) i.2 afterStatement := by
    intro i hi
    obtain ⟨n, hn, rfl⟩ := List.mem_map.1 hi
    exact ((h n hn).refuse n.shunned_subset).newline.blank
  have := Phrase.repeated (Phrase.repeats_statements (by decide)) (by simpa using hne) hitems
  simpa [List.map_map, List.flatMap_map, Function.comp_def] using this

theorem kept_map (ns : List Node) :
    kept (ns.map fun n => (n, n.settled style)) = (ns.filter (!·.form.isEmpty)).map (settled style) := by
  simp [kept, List.filter_map, Function.comp_def]

theorem lines_map (ns : List Node) :
    Layout.lines (ns.map fun n => (n, n.pieces style)) =
      (ns.filter (!·.form.isEmpty)).flatMap fun n =>
        indent :: n.pieces style .root ++ [newline] := by
  simp [Layout.lines, Layout.isEmpty, Layout.alone, List.filter_map, List.flatMap_map,
    Function.comp_def]

theorem Stated.braced {head : Nonterminal} (label : Label) {refused : List Terminal} {v : Value}
    (hends : ∀ body, ∀ t ∉ refused, Rule.endsAt ⟨head, body, label⟩ t = true) {ns : List Node}
    (h : ∀ n ∈ ns, n.Stated style strict)
    (ha : ∀ vs, gather vs = (kept (ns.map fun n => (n, n.settled style))).map .node →
      apply label none vs = .ok v)
    (full : (⟨head, [.terminal .lbrace, .nonterminal .statements, .terminal .rbrace], label⟩ :
      Rule) ∈ Rule.all.toList)
    (bare : (⟨head, [.terminal .lbrace, .terminal .rbrace], label⟩ : Rule) ∈ Rule.all.toList) :
    Phrase strict true (.nonterminal head) v
      (Layout.braced (ns.map fun n => (n, n.pieces style))) refused := by
  have hall : (ns.map fun n => (n, n.pieces style)).all Layout.isEmpty = true ↔
      ns.filter (!·.form.isEmpty) = [] := by
    simp [Layout.isEmpty, List.filter_eq_nil_iff]
  rw [kept_map] at ha
  rw [Layout.braced]
  split
  · rename_i hempty
    rw [hall.1 hempty] at ha
    exact .ruleBefore label (.braces .nil) (ha _ (by simp [items_token, isMark, Token.of]))
      (hends _) bare
  · rename_i hfull
    have hbody := Stated.statements (mt hall.2 hfull) fun n hn => h n (List.mem_filter.1 hn).1
    rw [← lines_map] at hbody
    have hclose : Phrases strict true true [.terminal .rbrace] [.token (.of .rbrace "\x7d")]
        [shallower, indent, word "\x7d"] refused :=
      (Phrases.markEnd .rbrace "\x7d" rfl rfl .nil).blank.blank
    simp only [Layout.braces, List.cons_append, List.nil_append]
    refine .ruleBefore label (.markEnd .lbrace "\x7b" rfl rfl (.newline (.blank
      (.cons hbody hclose rfl)))) (ha _ ?_) (hends _) full
    simp [items_token, isMark, Token.of]

theorem Stated.functionBody {ns : List Node} (h : ∀ n ∈ ns, n.Stated style strict) :
    Phrase strict true (.nonterminal .functionBody)
      (.list ((kept (ns.map fun n => (n, n.settled style))).map .node))
      (Layout.braced (ns.map fun n => (n, n.pieces style))) [.slash, .slashEqual] := by
  refine Stated.braced .gather ?_ h ?_ (by decide) (by decide)
  · intro body t ht
    cases t <;> first | rfl | simp at ht
  · intro vs hvs
    rw [← hvs]
    rfl

theorem Stated.block {ns : List Node} (h : ∀ n ∈ ns, n.Stated style strict) :
    Phrase strict true (.nonterminal .block)
      (.node (mk none (.block (kept (ns.map fun n => (n, n.settled style))))))
      (Layout.braced (ns.map fun n => (n, n.pieces style))) [] := by
  refine Stated.braced .block (fun body t _ => rfl) h (fun vs hvs => ?_) (by decide) (by decide)
  simp only [apply.eq_def, nodesOf, hvs, nodes_map_node, Option.map_none]

end Node

end Debundle
