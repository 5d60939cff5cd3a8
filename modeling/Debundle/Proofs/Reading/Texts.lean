import Debundle.Proofs.Reading.Places
import Debundle.Proofs.Reading.Spelling

/-!
# Texts that are written token by token

A text is spelled by some tokens if it is these tokens with blanks between them, each token ends
where the next character comes, and no line end stands where it would count (`SpelledBy`). Such a
text is read to the derivation of its tokens (`read_of_spelled`, `parse_of_spelled`).
-/
namespace Debundle

open Lexeme Text Derivation Reader

/-- Whether a terminal is a keyword. -/
def Terminal.isKeyword (t : Terminal) : Bool :=
  keywords.any (·.1 = t)

namespace Token

/-- A token whose text is read to its end by its class, and by nothing before it. -/
inductive Complete (a : Token) : Prop
  | word (text : a.text ∈ a.terminal.spellings)
  | name (is : a.terminal = .name) (text : IsName a.text.toList)
  | number (is : a.terminal = .number) (nonempty : a.text.toList ≠ [])
      (digits : ∀ c ∈ a.text.toList, c.isDigit = true)
  | string (is : a.terminal = .string) (text : string? a.text.toList = some a.text.toList.length)
  | regex (is : a.terminal = .regex) (text : regex? a.text.toList = some a.text.toList.length)

/-- Whether a token ends before a character. -/
def endsBefore (a : Token) (c : Char) : Bool :=
  match a.terminal with
  | .string => true
  | .regex => !c.isAlpha
  | .number => !isNamePart c && !isDecimal c && c != '.'
  | .name => !isNamePart c
  | t => if t.isKeyword then !isNamePart c else !extends_ a.text.toList c

theorem not_isKeyword_of_punctuator :
    ∀ p ∈ Terminal.punctuators, p.1.isKeyword = false ∧
      p.1 ∉ [Terminal.string, .regex, .number, .name] := by
  decide

theorem isKeyword_of_keyword :
    ∀ k ∈ Terminal.keywords, k.1.isKeyword = true ∧
      k.1 ∉ [Terminal.string, .regex, .number, .name] := by
  decide

theorem endsBefore_word {a : Token} {c : Char}
    (h : a.terminal ∉ [Terminal.string, .regex, .number, .name]) :
    a.endsBefore c = if a.terminal.isKeyword then !isNamePart c else !extends_ a.text.toList c := by
  simp only [List.mem_cons, List.not_mem_nil, or_false, not_or] at h
  unfold endsBefore
  split <;> simp_all

theorem Complete.leads {a : Token} (h : a.Complete) {rest : List Char}
    (hr : ∀ c ∈ rest.head?, a.endsBefore c = true) : a.Leads rest := by
  cases h with
  | word text =>
    obtain ⟨words, hk, ht⟩ | hp := Terminal.mem_spellings.1 text
    · obtain ⟨hkey, hno⟩ := isKeyword_of_keyword _ hk
      refine leads_keyword hk ht fun c hc => ?_
      simpa [endsBefore_word hno, hkey] using hr c hc
    · obtain ⟨hkey, hno⟩ := not_isKeyword_of_punctuator _ hp
      refine leads_punctuator hp fun c hc => ?_
      simpa [endsBefore_word hno, hkey] using hr c hc
  | name is text =>
    exact leads_name is text fun c hc => by simpa [endsBefore, is] using hr c hc
  | number is nonempty digits =>
    refine leads_number is nonempty digits fun c hc => ?_
    simpa [endsBefore, is, and_assoc] using hr c hc
  | string is text => exact leads_string is text rest
  | regex is text =>
    exact leads_regex is text fun c hc => by simpa [endsBefore, is] using hr c hc

theorem Complete.endsBefore_blank {a : Token} (h : a.Complete) {c : Char}
    (hc : Gap.isGapBlank c = true) : a.endsBefore c = true := by
  have outside : ∀ {p : Char → Bool}, (p c = true → Gap.isGapBlank c = false) → p c = false :=
    fun hp => Bool.eq_false_iff.2 fun h => by simp [hp h] at hc
  have hpart := outside Gap.isGapBlank_of_isNamePart
  cases h with
  | word text =>
    obtain ⟨words, hk, ht⟩ | hp := Terminal.mem_spellings.1 text
    · obtain ⟨hkey, hno⟩ := isKeyword_of_keyword _ hk
      simp [endsBefore_word hno, hkey, hpart]
    · obtain ⟨hkey, hno⟩ := not_isKeyword_of_punctuator _ hp
      have hlonger : extends_ a.text.toList c = false := outside Gap.isGapBlank_of_extends
      simp [endsBefore_word hno, hkey, hlonger]
  | name is text => simp [endsBefore, is, hpart]
  | number is nonempty digits =>
    have hdot : c ≠ '.' := by rintro rfl; exact absurd hc (by decide)
    simp [endsBefore, is, hpart, outside Gap.isGapBlank_of_isDecimal, hdot]
  | string is text => simp [endsBefore, is]
  | regex is text =>
    have halpha : c.isAlpha = false := outside fun h => Gap.isGapBlank_of_class h (by decide)
    simp [endsBefore, is, halpha]

/-- Where the text of a token ends, no line end is looked for behind it. -/
def IsSolid (a : Token) : Prop :=
  ∃ c ∈ a.text.toList.getLast?, c ≠ '/' ∧ isLineEnd c = false ∧ Gap.isPassed c = false

end Token

theorem Gap.lineEndBehind_of_solid {c : Char} (hc : c ≠ '/') (hl : isLineEnd c = false)
    (hp : isPassed c = false) (before : List Char) : lineEndBehind none (c :: before) = false := by
  rw [lineEndBehind]
  · simp [hl, hp]
  · exact fun more h => absurd h hc

theorem Gap.lineEndBehind_calm {gap before : List Char} (hg : ∀ c ∈ gap, isGapBlank c = true)
    (hl : ∀ c ∈ gap, isLineEnd c = false) (hb : lineEndBehind none before = false) :
    lineEndBehind none (gap ++ before) = false := by
  induction gap with
  | nil => exact hb
  | cons c gap ih =>
    have hc : c ≠ '/' := by
      rintro rfl
      exact absurd (hg '/' (.head _)) (by decide)
    rw [List.cons_append, lineEndBehind]
    · rw [ih (fun d hd => hg d (.tail _ hd)) fun d hd => hl d (.tail _ hd), hl c (.head _)]
      simp
    · exact fun more h => absurd h hc

theorem Token.joins_of_solid {a : Token} {x : Ahead}
    (h : heedsLine a x.next = true →
      a.IsSolid ∧ ∀ c ∈ gapOf x.text, isLineEnd c = false) : a.Joins x := by
  intro hh before
  obtain ⟨⟨c, hc, hslash, hline, hpassed⟩, hgap⟩ := h hh
  refine Gap.lineEndBehind_calm (fun d hd => ?_) (fun d hd => hgap d (List.mem_reverse.1 hd)) ?_
  · exact List.mem_takeWhile_imp (List.mem_reverse.1 hd)
  · obtain ⟨text, htext⟩ := List.getLast?_eq_some_iff.1 hc
    rw [htext, List.reverse_append, List.reverse_singleton, List.singleton_append, List.cons_append]
    exact Gap.lineEndBehind_of_solid hslash hline hpassed _

/-- A token that stands nowhere in particular. -/
def Token.of (t : Terminal) (text : String) : Token := ⟨t, text, 0, 0, 0, false⟩

/-- The token at the end of a text. -/
def Token.finish : Token := .of .finish ""

/-- The first of some tokens, or else the end of the text. -/
def nextOf (tokens : List Token) : Token :=
  tokens.head?.getD .finish

/-- A text consists of some tokens, with blanks between them. -/
def SpelledBy (text : List Char) (tokens : List Token) : Prop :=
  ∃ tail, (∀ c ∈ tail, Gap.isGapBlank c = true) ∧
    Spells tokens ⟨text, nextOf tokens⟩ ⟨tail, .finish⟩

theorem spelledBy_nil {tail : List Char} (h : ∀ c ∈ tail, Gap.isGapBlank c = true) :
    SpelledBy tail [] :=
  ⟨tail, h, rfl⟩

theorem spelledBy_cons {a : Token} {tokens : List Token} {gap rest : List Char}
    (ha : a.Complete) (h : SpelledBy rest tokens) (hg : ∀ c ∈ gap, Gap.isGapBlank c = true)
    (hends : ∀ c ∈ rest.head?, a.endsBefore c = true)
    (hline : heedsLine a (nextOf tokens) = true →
      a.IsSolid ∧ ∀ c ∈ gapOf rest, isLineEnd c = false) :
    SpelledBy (gap ++ (a.text.toList ++ rest)) (a :: tokens) := by
  obtain ⟨tail, ht, hs⟩ := h
  exact ⟨tail, ht, rfl, ⟨rest, nextOf tokens⟩,
    ⟨⟨gap, rfl, hg⟩, ha.leads hends, Token.joins_of_solid hline⟩, hs⟩

theorem SpelledBy.blanks {text gap : List Char} {tokens : List Token} (h : SpelledBy text tokens)
    (hg : ∀ c ∈ gap, Gap.isGapBlank c = true) : SpelledBy (gap ++ text) tokens := by
  obtain ⟨tail, ht, hs⟩ := h
  cases tokens with
  | nil =>
    obtain rfl : text = tail := congrArg Ahead.text hs
    refine spelledBy_nil fun c hc => ?_
    obtain hc | hc := List.mem_append.1 hc
    · exact hg c hc
    · exact ht c hc
  | cons a tokens =>
    obtain ⟨-, z, ⟨⟨inner, htext, hinner⟩, leads, joins⟩, hz⟩ := hs
    refine ⟨tail, ht, rfl, z, ⟨⟨gap ++ inner, ?_, fun c hc => ?_⟩, leads, joins⟩, hz⟩
    · rw [List.append_assoc]
      exact congrArg (gap ++ ·) htext
    · obtain hc | hc := List.mem_append.1 hc
      · exact hg c hc
      · exact hinner c hc

/-- Some tokens with a blank before and after each. -/
def spaced : List Token → List Char
  | [] => [' ']
  | a :: tokens => ' ' :: (a.text.toList ++ spaced tokens)

theorem head?_spaced (tokens : List Token) : (spaced tokens).head? = some ' ' := by
  cases tokens <;> rfl

theorem Token.Complete.leads_spaced {a : Token} (h : a.Complete) (tokens : List Token) :
    a.Leads (spaced tokens) := by
  refine h.leads fun c hc => h.endsBefore_blank ?_
  obtain rfl : ' ' = c := Option.some.inj ((head?_spaced tokens).symm.trans hc)
  decide

theorem gapOf_spaced {tokens : List Token} (h : ∀ a ∈ tokens, a.Complete) :
    gapOf (spaced tokens) = [' '] := by
  cases tokens with
  | nil => decide
  | cons a tokens =>
    have := Gap.head_of_extent?_eq_none ((h a (.head _)).leads_spaced tokens).solid
    rw [spaced, gapOf, List.takeWhile_cons_of_pos (by decide), this]

theorem spelledBy_spaced {tokens : List Token} (h : ∀ a ∈ tokens, a.Complete)
    (hsolid : ∀ a ∈ tokens, a.IsSolid) : SpelledBy (spaced tokens) tokens := by
  induction tokens with
  | nil => exact spelledBy_nil (List.forall_mem_singleton.2 rfl)
  | cons a tokens ih =>
    have hall : ∀ b ∈ tokens, b.Complete := fun b hb => h b (.tail _ hb)
    show SpelledBy ([' '] ++ (a.text.toList ++ spaced tokens)) (a :: tokens)
    refine spelledBy_cons (h a (.head _)) (ih hall fun b hb => hsolid b (.tail _ hb))
      (List.forall_mem_singleton.2 rfl) (fun c hc => (h a (.head _)).endsBefore_blank ?_) fun _ =>
        ⟨hsolid a (.head _), by rw [gapOf_spaced hall]; exact List.forall_mem_singleton.2 rfl⟩
    obtain rfl : ' ' = c := Option.some.inj ((head?_spaced tokens).symm.trans hc)
    decide

theorem read_of_spelled {d : Derivation} (h : Derives (.nonterminal .program) d)
    (hclear : d.clear .finish = true) {cs : List Char} (hs : SpelledBy cs d.leaves) :
    ∃ d', (Reader.read cs).1 = .ok d' ∧ d.Alike d' := by
  obtain ⟨tail, ht, hs⟩ := hs
  exact read_of_reads (reads_of_derives h ⟨cs, _⟩ ⟨tail, .finish⟩ hclear hs) rfl ht

theorem parse_of_read {file text : String} {d : Derivation}
    (h : (Reader.read (maskHashbang text.toList)).1 = .ok d) {t : Node}
    (ht : Build.tree d = .ok t) : (parse file text).result = .ok t := by
  simp [parse, h, ht]

theorem parse_of_spelled {d : Derivation} (h : Derives (.nonterminal .program) d)
    (hclear : d.clear .finish = true) {text : String}
    (hs : SpelledBy (maskHashbang text.toList) d.leaves) {t : Node} (ht : Build.tree d = .ok t)
    (file : String) :
    ∃ t', (parse file text).result = .ok t' ∧ t'.unplaced = t.unplaced := by
  obtain ⟨d', hread, halike⟩ := read_of_spelled h hclear hs
  obtain ⟨t', ht', hu⟩ := Build.tree_alike h halike ht
  exact ⟨t', parse_of_read hread ht', hu⟩

end Debundle
