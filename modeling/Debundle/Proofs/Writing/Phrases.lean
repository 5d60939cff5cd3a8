import Debundle.Proofs.Reading.Chains
import Debundle.Proofs.Writing.Rendering

/-!
# Phrases

A phrase is a list of pieces that is written for tokens which form a symbol of the grammar. Phrases
are put together along the rules of the grammar, piece by piece; what may not come after a phrase
is kept as a list of terminals.
-/
namespace Debundle

open Derivation Build Piece Reader Text GrammarSymbol

/-- No two neighbours among the tokens clash, nor the last one with what comes after it. -/
def Apart (strict : Bool) : List Token → Terminal → Prop
  | [], _ => True
  | a :: tokens, after =>
    a.clashes strict (firstClass tokens after) = false ∧ Apart strict tokens after

theorem apart_append {strict : Bool} {tokens more : List Token} {after : Terminal} :
    Apart strict (tokens ++ more) after ↔
      Apart strict tokens (firstClass more after) ∧ Apart strict more after := by
  induction tokens with
  | nil => simp [Apart]
  | cons a tokens ih => simp only [List.cons_append, Apart, ih, firstClass_append, and_assoc]

theorem Apart.isChain {strict : Bool} {tokens : List Token} {after : Terminal}
    (h : Apart strict tokens after)
    (hmeets : tokens.IsChain fun a b => a.terminal.meets b.terminal = true) :
    tokens.IsChain (Token.Meets strict) := by
  induction tokens with
  | nil => exact .nil
  | cons a tokens ih =>
    cases tokens with
    | nil => exact .singleton a
    | cons b tokens =>
      obtain ⟨hmeet, hmeets⟩ := List.isChain_cons_cons.1 hmeets
      exact .cons_cons ⟨hmeet, h.1⟩ (ih h.2 hmeets)

/-- Pieces are written for complete tokens. A line may end before them if one may have to, and a
line may end after them if `rests` says so. -/
structure Lays (needs rests : Bool) (pieces : List Piece) (tokens : List Token) : Prop where
  complete : ∀ a ∈ tokens, a.Complete
  written : ∀ rested, (needs = true → rested = true) →
    ∃ r, Written rested pieces tokens r ∧ (rests = true → r = true)

namespace Lays

variable {needs between rests : Bool} {pieces more : List Piece} {tokens others : List Token}

theorem nil (b : Bool) : Lays b b [] [] where
  complete := nofun
  written rested h := ⟨rested, .nil rested, h⟩

theorem append (h : Lays needs between pieces tokens) (h' : Lays between rests more others) :
    Lays needs rests (pieces ++ more) (tokens ++ others) where
  complete := List.forall_mem_append.2 ⟨h.complete, h'.complete⟩
  written rested hr := by
    obtain ⟨m, hm, hbetween⟩ := h.written rested hr
    obtain ⟨r, hw, hrests⟩ := h'.written m hbetween
    exact ⟨r, hm.append hw, hrests⟩

theorem of_needs (h : Lays false rests pieces tokens) : Lays needs rests pieces tokens where
  complete := h.complete
  written rested _ := h.written rested nofun

theorem blank (h : Lays needs rests pieces tokens) {p : Piece} (hp : p.isBlank = true) :
    Lays needs rests (p :: pieces) tokens where
  complete := h.complete
  written rested hr := by
    obtain ⟨r, hw, hrests⟩ := h.written rested hr
    exact ⟨r, .blank hp hw, hrests⟩

theorem newline (h : Lays true rests pieces tokens) :
    Lays true rests (.newline :: pieces) tokens where
  complete := h.complete
  written rested hr := by
    obtain rfl := hr rfl
    obtain ⟨r, hw, hrests⟩ := h.written true fun _ => rfl
    exact ⟨r, .newline hw, hrests⟩

theorem closing (h : Lays true rests pieces tokens) :
    Lays needs rests (.newline :: shallower :: indent :: word "\x7d" :: pieces)
      (.of .rbrace "\x7d" :: tokens) where
  complete := List.forall_mem_cons.2 ⟨.word (by decide), h.complete⟩
  written rested _ := by
    obtain ⟨r, hw, hrests⟩ := h.written true fun _ => rfl
    exact ⟨r, .closing hw, hrests⟩

variable {a b : Token}

theorem token (h : Lays between rests pieces tokens) (ha : a.Complete)
    (hb : between = true → a.endsLine = true)
    (hplain : a.terminal ∉ [.kwIn, .kwInstanceof]) :
    Lays needs rests (word a.text :: pieces) (a :: tokens) where
  complete := List.forall_mem_cons.2 ⟨ha, h.complete⟩
  written rested _ := by
    obtain ⟨r, hw, hrests⟩ := h.written a.endsLine hb
    exact ⟨r, .token hplain hw, hrests⟩

theorem spaced (h : Lays between rests pieces tokens) (ha : a.Complete)
    (hb : between = true → a.endsLine = true) :
    Lays needs rests (space :: word a.text :: pieces) (a :: tokens) where
  complete := List.forall_mem_cons.2 ⟨ha, h.complete⟩
  written rested _ := by
    obtain ⟨r, hw, hrests⟩ := h.written a.endsLine hb
    exact ⟨r, .spaced hw, hrests⟩

theorem pair (h : Lays between rests pieces tokens) (ha : a.Complete) (hb : b.Complete)
    (hbetween : between = true → b.endsLine = true)
    (hends : ∀ c ∈ b.text.toList.head?, a.endsBefore c = true) (hheeds : heedsLine a b = false)
    (hplain : a.terminal ∉ [.kwIn, .kwInstanceof]) :
    Lays needs rests (text (a.text.toList ++ b.text.toList) :: pieces) (a :: b :: tokens) where
  complete := List.forall_mem_cons.2 ⟨ha, List.forall_mem_cons.2 ⟨hb, h.complete⟩⟩
  written rested _ := by
    obtain ⟨r, hw, hrests⟩ := h.written b.endsLine hbetween
    exact ⟨r, .pair hends hheeds hplain hw, hrests⟩

end Lays

/-- Pieces are a phrase of a symbol: they are written for tokens that form the symbol with a value,
whatever comes after them, the refused terminals apart. -/
def Phrase (strict rests : Bool) (s : GrammarSymbol) (v : Value) (pieces : List Piece)
    (refused : List Terminal) : Prop :=
  ∃ tokens, Lays false rests pieces tokens ∧
    ∀ after ∉ refused, Forms s v tokens after ∧ Apart strict tokens after

/-- The same for the body of a rule. -/
def Phrases (strict needs rests : Bool) (ss : List GrammarSymbol) (vs : List Value)
    (pieces : List Piece) (refused : List Terminal) : Prop :=
  ∃ tokens, Lays needs rests pieces tokens ∧
    ∀ after ∉ refused, FormsAll ss vs tokens after ∧ Apart strict tokens after

theorem FormsAll.first {ss : List GrammarSymbol} {vs : List Value} {tokens : List Token}
    {after : Terminal} (h : FormsAll ss vs tokens after) :
    (∀ a ∈ tokens.head?, a.terminal ∈ firsts ss) ∧ (tokens = [] → ss.all isNullable = true) := by
  induction h with
  | nil after => exact ⟨by simp, fun _ => rfl⟩
  | @cons s v tokens ss vs more after head tail ih =>
    have horder := head.orderly
    rw [firsts]
    cases tokens with
    | nil =>
      rw [horder.nonempty rfl, if_pos rfl, List.all_cons, horder.nonempty rfl, Bool.true_and]
      exact ⟨fun a ha => List.mem_append_right _ (ih.1 a ha), ih.2⟩
    | cons b tokens =>
      exact ⟨fun a ha => List.mem_append_left _ (horder.first a ha), by simp⟩

/-- A piece that is at most a blank, as `Piece.isBlank` tells. -/
class Piece.Blank (p : Piece) : Prop where
  isBlank : p.isBlank = true

instance : space.Blank := ⟨rfl⟩

instance : indent.Blank := ⟨rfl⟩

instance : halfIndent.Blank := ⟨rfl⟩

instance : deeper.Blank := ⟨rfl⟩

instance : shallower.Blank := ⟨rfl⟩

/-- Whether something begins with some symbols, and with none of the refused terminals. -/
def mayFollow (refused : List Terminal) (ss : List GrammarSymbol) : Bool :=
  !ss.all isNullable && ∀ t ∈ firsts ss, t ∉ refused

namespace Phrases

variable {strict needs between rests : Bool} {s : GrammarSymbol} {ss : List GrammarSymbol}
  {v : Value} {vs : List Value} {pieces more : List Piece} {refused others : List Terminal}

theorem nil {b : Bool} : Phrases strict b b [] [] [] refused :=
  ⟨[], .nil b, fun after _ => ⟨.nil after, trivial⟩⟩

theorem consBefore (h : Phrase strict between s v pieces refused)
    (hs : Phrases strict between rests ss vs more others)
    (hfirst : ∀ t ∈ firsts ss, t ∉ refused)
    (hnull : ss.all isNullable = true → ∀ t ∈ refused, t ∈ others) :
    Phrases strict needs rests (s :: ss) (v :: vs) (pieces ++ more) others := by
  obtain ⟨tokens, hlays, htokens⟩ := h
  obtain ⟨rest, hlays', hrest⟩ := hs
  refine ⟨tokens ++ rest, hlays.of_needs.append hlays', fun after hafter => ?_⟩
  obtain ⟨hforms', hapart'⟩ := hrest after hafter
  have hnext : firstClass rest after ∉ refused := by
    cases rest with
    | nil => exact fun hmem => hafter (hnull (hforms'.first.2 rfl) _ hmem)
    | cons a rest => exact hfirst _ (hforms'.first.1 a rfl)
  obtain ⟨hforms, hapart⟩ := htokens _ hnext
  exact ⟨.cons hforms hforms', apart_append.2 ⟨hapart, hapart'⟩⟩

theorem cons (h : Phrase strict between s v pieces refused)
    (hs : Phrases strict between rests ss vs more others) (hnext : mayFollow refused ss = true) :
    Phrases strict needs rests (s :: ss) (v :: vs) (pieces ++ more) others := by
  simp only [mayFollow, Bool.and_eq_true, Bool.not_eq_true', decide_eq_true_eq] at hnext
  exact consBefore h hs hnext.2 (by simp [hnext.1])

theorem single (h : Phrase strict rests s v pieces refused) :
    Phrases strict needs rests [s] [v] pieces refused := by
  have : Phrases strict needs rests [s] [v] (pieces ++ []) refused :=
    consBefore h .nil nofun fun _ _ => id
  rwa [List.append_nil] at this

theorem blank {p : Piece} [hp : p.Blank] (h : Phrases strict needs rests ss vs pieces refused) :
    Phrases strict needs rests ss vs (p :: pieces) refused := by
  obtain ⟨tokens, hlays, h⟩ := h
  exact ⟨tokens, hlays.blank hp.isBlank, h⟩

theorem newline (h : Phrases strict true rests ss vs pieces refused) :
    Phrases strict true rests ss vs (.newline :: pieces) refused := by
  obtain ⟨tokens, hlays, h⟩ := h
  exact ⟨tokens, hlays.newline, h⟩

theorem formsAll_token {t : Terminal} {k : String} {tokens : List Token} {after : Terminal}
    (hk : (Token.of t k).spellsKeyword = false) (hc : t ∉ [.number, .regex])
    (h : FormsAll ss vs tokens after ∧ Apart strict tokens after) :
    FormsAll (.terminal t :: ss) (.token (.of t k) :: vs) (.of t k :: tokens) after ∧
      Apart strict (.of t k :: tokens) after := by
  refine ⟨.cons (.leaf (.of t k) hk _) h.1, ?_, h.2⟩
  simp only [List.mem_cons, List.not_mem_nil, or_false, not_or] at hc
  unfold Token.clashes Token.of
  split <;> simp_all

theorem name {k : String} (hk : (Token.of .name k).spellsKeyword = false) (hn : IsName k.toList)
    (h : Phrases strict false rests ss vs pieces refused) :
    Phrases strict needs rests (.terminal .name :: ss) (.token (.of .name k) :: vs)
      (word k :: pieces) refused := by
  obtain ⟨tokens, hlays, h⟩ := h
  exact ⟨.of .name k :: tokens, hlays.token (a := .of .name k) (.name rfl hn) nofun (by simp [Token.of]),
    fun after hafter => formsAll_token hk (by decide) (h after hafter)⟩

end Phrases

/-- Terminals with a spelling of their own that are written as they are. -/
def Terminal.isMark (t : Terminal) : Bool :=
  t ∉ [.number, .regex, .string, .name, .kwIn, .kwInstanceof, .finish]

/-- Whether a terminal is written as it is, in this spelling. -/
def Terminal.marks (t : Terminal) (k : String) : Bool :=
  t.isMark && k ∈ t.spellings

theorem Terminal.marks_iff {t : Terminal} {k : String} :
    t.marks k = true ↔ t.isMark = true ∧ k ∈ t.spellings := by
  simp [marks]

theorem spellsKeyword_of_ne_name {t : Terminal} (h : t ≠ .name) (k : String) :
    (Token.of t k).spellsKeyword = false := by
  simp [Token.spellsKeyword, Token.of, h]

namespace Phrases

variable {strict needs between rests : Bool} {s : GrammarSymbol} {ss : List GrammarSymbol}
  {v : Value} {vs : List Value} {pieces more : List Piece} {refused others : List Terminal}

theorem markWith {t : Terminal} (ht : t.isMark = true) {k : String} (hk : k ∈ t.spellings)
    (h : Phrases strict between rests ss vs pieces refused)
    (hb : between = true → (Token.of t k).endsLine = true) :
    Phrases strict needs rests (.terminal t :: ss) (.token (.of t k) :: vs) (word k :: pieces)
      refused := by
  obtain ⟨tokens, hlays, h⟩ := h
  have ht := of_decide_eq_true ht
  simp only [List.mem_cons, List.not_mem_nil, or_false, not_or] at ht
  refine ⟨.of t k :: tokens, hlays.token (a := .of t k) (.word hk) hb ?_, fun after hafter =>
    formsAll_token (spellsKeyword_of_ne_name ht.2.2.2.1 k) ?_ (h after hafter)⟩
  · simp [Token.of, ht]
  · simp [ht]

theorem mark (t : Terminal) (k : String) (hk : t.marks k = true)
    (h : Phrases strict false rests ss vs pieces refused) :
    Phrases strict needs rests (.terminal t :: ss) (.token (.of t k) :: vs) (word k :: pieces)
      refused :=
  markWith (Terminal.marks_iff.1 hk).1 (Terminal.marks_iff.1 hk).2 h nofun

theorem markEnd (t : Terminal) (k : String) (hk : t.marks k = true)
    (hb : (Token.of t k).endsLine = true) (h : Phrases strict true rests ss vs pieces refused) :
    Phrases strict needs rests (.terminal t :: ss) (.token (.of t k) :: vs) (word k :: pieces)
      refused :=
  markWith (Terminal.marks_iff.1 hk).1 (Terminal.marks_iff.1 hk).2 h fun _ => hb

theorem spaced (t : Terminal) (k : String) (hk : t ∉ [.number, .regex, .name] ∧ k ∈ t.spellings)
    (h : Phrases strict false rests ss vs pieces refused) :
    Phrases strict needs rests (.terminal t :: ss) (.token (.of t k) :: vs)
      (space :: word k :: pieces) refused := by
  obtain ⟨ht, hk⟩ := hk
  obtain ⟨tokens, hlays, h⟩ := h
  simp only [List.mem_cons, List.not_mem_nil, or_false, not_or] at ht
  refine ⟨.of t k :: tokens, hlays.spaced (a := .of t k) (.word hk) nofun, fun after hafter =>
    formsAll_token (spellsKeyword_of_ne_name ht.2.2 k) ?_ (h after hafter)⟩
  simp [ht]

theorem closing (h : Phrases strict true rests ss vs pieces refused) :
    Phrases strict needs rests (.terminal .rbrace :: ss) (.token (.of .rbrace "\x7d") :: vs)
      (.newline :: shallower :: indent :: word "\x7d" :: pieces) refused := by
  obtain ⟨tokens, hlays, h⟩ := h
  exact ⟨.of .rbrace "\x7d" :: tokens, hlays.closing, fun after hafter =>
    formsAll_token (by decide) (by decide) (h after hafter)⟩

theorem pair {t u : Terminal} (ht : t.isMark = true) (hu : u.isMark = true) {j k : String}
    (hj : j ∈ t.spellings) (hk : k ∈ u.spellings)
    (hends : ∀ c ∈ k.toList.head?, (Token.of t j).endsBefore c = true)
    (hheeds : heedsLine (.of t j) (.of u k) = false)
    (h : Phrases strict between rests ss vs pieces refused)
    (hb : between = true → (Token.of u k).endsLine = true) :
    Phrases strict needs rests (.terminal t :: .terminal u :: ss)
      (.token (.of t j) :: .token (.of u k) :: vs) (text (j.toList ++ k.toList) :: pieces)
      refused := by
  obtain ⟨tokens, hlays, h⟩ := h
  have ht := of_decide_eq_true ht
  have hu := of_decide_eq_true hu
  simp only [List.mem_cons, List.not_mem_nil, or_false, not_or] at ht hu
  refine ⟨.of t j :: .of u k :: tokens, hlays.pair (a := .of t j) (b := .of u k) (.word hj)
    (.word hk) hb hends hheeds ?_, fun after hafter => ?_⟩
  · simp [Token.of, ht]
  · refine formsAll_token (spellsKeyword_of_ne_name ht.2.2.2.1 j) ?_
      (formsAll_token (spellsKeyword_of_ne_name hu.2.2.2.1 k) ?_ (h after hafter))
    · simp [ht]
    · simp [hu]

theorem braces (h : Phrases strict between rests ss vs pieces refused) :
    Phrases strict needs rests (.terminal .lbrace :: .terminal .rbrace :: ss)
      (.token (.of .lbrace "\x7b") :: .token (.of .rbrace "\x7d") :: vs)
      (word "\x7b\x7d" :: pieces) refused :=
  pair (t := .lbrace) (u := .rbrace) (j := "\x7b") (k := "\x7d") (by decide) (by decide) (by decide)
    (by decide) (by decide) (by decide) h fun _ => rfl

end Phrases

/-- Whether a rule of the grammar is complete before everything. -/
def Rule.isFree (r : Rule) : Bool :=
  r ∈ Rule.all.toList && r.head ∉ [.ifStatement, .doStatement, .functionBody]

theorem Rule.isFree_iff {r : Rule} : r.isFree = true ↔
    r ∈ Rule.all.toList ∧ r.head ∉ [.ifStatement, .doStatement, .functionBody] := by
  simp [isFree]

theorem Rule.endsAt_of_head {r : Rule} (h : r.head ∉ [.ifStatement, .doStatement, .functionBody])
    (t : Terminal) : r.endsAt t = true := by
  simp only [List.mem_cons, List.not_mem_nil, or_false, not_or] at h
  unfold endsAt
  split <;> simp_all

namespace Phrase

variable {strict rests : Bool} {s : GrammarSymbol} {v : Value} {vs : List Value}
  {pieces : List Piece} {refused others : List Terminal}

theorem ruleBefore {n : Nonterminal} {ss : List GrammarSymbol} (label : Label)
    (h : Phrases strict false rests ss vs pieces refused) (ha : apply label none vs = .ok v)
    (he : ∀ t ∉ refused, Rule.endsAt ⟨n, ss, label⟩ t = true)
    (hr : (⟨n, ss, label⟩ : Rule) ∈ Rule.all.toList) :
    Phrase strict rests (.nonterminal n) v pieces refused := by
  obtain ⟨tokens, hlays, h⟩ := h
  refine ⟨tokens, hlays, fun after hafter => ?_⟩
  obtain ⟨hforms, hapart⟩ := h after hafter
  exact ⟨.rule label hforms ha (Rule.isReadBefore_of_mem hr (he after hafter)), hapart⟩

theorem rule {n : Nonterminal} {ss : List GrammarSymbol} (label : Label)
    (h : Phrases strict false rests ss vs pieces refused) (ha : apply label none vs = .ok v)
    (hr : Rule.isFree ⟨n, ss, label⟩ = true) :
    Phrase strict rests (.nonterminal n) v pieces refused :=
  have ⟨hr, hn⟩ := Rule.isFree_iff.1 hr
  ruleBefore label h ha (fun t _ => Rule.endsAt_of_head hn t) hr

theorem pass {n m : Nonterminal} (h : Phrase strict rests (.nonterminal n) v pieces refused)
    (hr : Rule.isFree ⟨m, [.nonterminal n], .pass⟩ = true) :
    Phrase strict rests (.nonterminal m) v pieces refused :=
  rule .pass (.single h) rfl hr

theorem refuse (h : Phrase strict rests s v pieces refused) (hsub : ∀ t ∈ refused, t ∈ others) :
    Phrase strict rests s v pieces others := by
  obtain ⟨tokens, hlays, h⟩ := h
  exact ⟨tokens, hlays, fun after hafter => h after fun hmem => hafter (hsub _ hmem)⟩

theorem blank {p : Piece} [hp : p.Blank] (h : Phrase strict rests s v pieces refused) :
    Phrase strict rests s v (p :: pieces) refused := by
  obtain ⟨tokens, hlays, h⟩ := h
  exact ⟨tokens, hlays.blank hp.isBlank, h⟩

theorem newline (h : Phrase strict true s v pieces refused) :
    Phrase strict true s v (pieces ++ [.newline]) refused := by
  obtain ⟨tokens, hlays, h⟩ := h
  have := hlays.append (.newline (.nil true))
  rw [List.append_nil] at this
  exact ⟨tokens, this, h⟩

theorem of_rests (h : Phrase strict true s v pieces refused) :
    Phrase strict rests s v pieces refused := by
  obtain ⟨tokens, ⟨hcomplete, hwritten⟩, h⟩ := h
  refine ⟨tokens, ⟨hcomplete, fun rested hr => ?_⟩, h⟩
  obtain ⟨r, hw, hrests⟩ := hwritten rested hr
  exact ⟨r, hw, fun _ => hrests rfl⟩

end Phrase

end Debundle
