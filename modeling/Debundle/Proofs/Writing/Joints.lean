import Debundle.Proofs.Reading.Neighbours
import Debundle.Writing.Piece

/-!
# Joints between tokens

Two tokens may be written without a blank between them if the first one ends before the first
character of the second. Neighbours that meet as the grammar lets them do so wherever the writer
puts no blank of its own (`Token.Complete.endsBefore_of_meets`), a few pairs apart
(`Token.clashes`).
-/
namespace Debundle

open Lexeme Text Reader Terminal

namespace Lexeme

theorem string?_cases {cs : List Char} (h : string? cs = some cs.length) :
    ∃ quote body, (quote = '"' ∨ quote = '\'') ∧ cs = quote :: (body ++ [quote]) := by
  obtain ⟨quote, body, tail, hq, rfl, hlen, -⟩ := exists_of_string? h
  obtain rfl : tail = [] := List.eq_nil_of_length_eq_zero (by simpa using hlen)
  exact ⟨quote, body, hq, rfl⟩

theorem regex?_cases {cs : List Char} (h : regex? cs = some cs.length) :
    ∃ body flags, cs = '/' :: (body ++ '/' :: flags) ∧ ∀ c ∈ flags, c.isAlpha = true := by
  obtain ⟨c, body, flags, rfl, -, hlen, -⟩ := exists_of_regex? h
  refine ⟨c :: body, flags, rfl, all_of_run ?_⟩
  simp only [List.length_cons, List.length_append] at hlen
  omega

end Lexeme

namespace Token

variable {a b : Token} {c l : Char} {strict : Bool}

/-- The first character of a token of each class. -/
inductive Begins (a : Token) (c : Char) : Prop
  | keyword (is : a.terminal.isKeyword = true) (start : isNameStart c = true)
  | punctuator (is : (a.terminal, a.text) ∈ punctuators)
  | name (is : a.terminal = .name) (start : isNameStart c = true)
  | number (is : a.terminal = .number) (digit : c.isDigit = true)
  | string (is : a.terminal = .string) (quote : c = '"' ∨ c = '\'')
  | regex (is : a.terminal = .regex) (slash : c = '/')

/-- The last character of a token of each class. -/
inductive Finishes (a : Token) (c : Char) : Prop
  | word (is : a.terminal.isKeyword = true ∨ a.terminal = .name ∨ a.terminal = .number)
      (part : isNamePart c = true)
  | punctuator (is : (a.terminal, a.text) ∈ punctuators)
  | string (is : a.terminal = .string) (quote : c = '"' ∨ c = '\'')
  | regex (is : a.terminal = .regex) (mark : c = '/' ∨ c.isAlpha = true)

theorem Complete.begins (h : a.Complete) (hc : a.text.toList.head? = some c) : a.Begins c := by
  cases h with
  | word text =>
    obtain ⟨words, hk, ht⟩ | hp := Terminal.mem_spellings.1 text
    · have hstart := isName_of_keyword _ hk _ ht
      rw [hc, Bool.and_eq_true] at hstart
      exact .keyword (isKeyword_of_keyword _ hk).1 hstart.1
    · exact .punctuator hp
  | name is text =>
    obtain ⟨d, rest, htext, hstart, -⟩ := text
    rw [htext] at hc
    cases hc
    exact .name is hstart
  | number is _ digits => exact .number is (digits c (List.mem_of_mem_head? hc))
  | string is text =>
    obtain ⟨quote, body, hq, htext⟩ := string?_cases text
    rw [htext] at hc
    cases hc
    exact .string is hq
  | regex is text =>
    obtain ⟨body, flags, htext, -⟩ := regex?_cases text
    rw [htext] at hc
    cases hc
    exact .regex is rfl

theorem Complete.finishes (h : a.Complete) (hc : a.text.toList.getLast? = some c) :
    a.Finishes c := by
  have hmem := List.mem_of_getLast? hc
  cases h with
  | word text =>
    obtain ⟨words, hk, ht⟩ | hp := Terminal.mem_spellings.1 text
    · exact .word (.inl (isKeyword_of_keyword _ hk).1)
        (isNamePart_of_keyword hk _ (List.mem_map.2 ⟨_, ht, rfl⟩) c hmem)
    · exact .punctuator hp
  | name is text => exact .word (.inr (.inl is)) (text.isNamePart hmem)
  | number is _ digits => exact .word (.inr (.inr is)) (isNamePart_of_isDigit (digits c hmem))
  | string is text =>
    obtain ⟨quote, body, hq, htext⟩ := string?_cases text
    rw [htext, ← List.cons_append, List.getLast?_concat] at hc
    cases hc
    exact .string is hq
  | regex is text =>
    obtain ⟨body, flags, htext, hflags⟩ := regex?_cases text
    rw [htext] at hc
    obtain rfl | hne := eq_or_ne flags []
    · rw [← List.cons_append, List.getLast?_concat] at hc
      cases hc
      exact .regex is (.inl rfl)
    · rw [← List.cons_append, List.getLast?_append_of_ne_nil _ (by simp),
        List.getLast?_cons_of_ne_nil hne] at hc
      exact .regex is (.inr (hflags c (List.mem_of_getLast? hc)))

theorem Complete.ne_nil (h : a.Complete) : a.text.toList ≠ [] := by
  cases h with
  | word text =>
    obtain ⟨words, hk, ht⟩ | hp := Terminal.mem_spellings.1 text
    · have : ∀ k ∈ keywords, ∀ w ∈ k.2, w.toList ≠ [] := by decide
      exact this _ hk _ ht
    · have : ∀ p ∈ punctuators, p.2.toList ≠ [] := by decide
      exact this _ hp
  | name is text => exact text.ne_nil
  | number is nonempty => exact nonempty
  | string is text =>
    intro hnil
    rw [hnil] at text
    cases text
  | regex is text =>
    intro hnil
    rw [hnil] at text
    cases text

theorem Begins.not_blank (h : a.Begins c) (hc : a.text.toList.head? = some c) :
    Gap.isGapBlank c = false := by
  cases h with
  | keyword _ start | name _ start =>
    exact Gap.isGapBlank_of_isNamePart (isNamePart_of_isNameStart start)
  | punctuator is =>
    have : ∀ p ∈ punctuators, ∀ c ∈ p.2.toList.head?, Gap.isGapBlank c = false := by
      decide
    exact this _ is _ hc
  | number _ digit => exact Gap.isGapBlank_of_isNamePart (isNamePart_of_isDigit digit)
  | string _ quote => obtain rfl | rfl := quote <;> decide
  | regex _ slash => subst slash; decide

/-- Tokens that must not stand next to each other although the grammar lets them: a dot after a
number, an operator after a regular expression that would have to stand on the same line, and, if
there is no blank between them, a word after a regular expression without flags. -/
def clashes (strict : Bool) (a : Token) (t : Terminal) : Bool :=
  match a.terminal with
  | .number => t = .dot
  | .regex => t = .plusPlus || t = .minusMinus ||
      (strict && a.text.toList.getLast? = some '/' && (t = .kwIn || t = .kwInstanceof))
  | _ => false

/-- Two tokens can stand next to each other. -/
structure Meets (strict : Bool) (a b : Token) : Prop where
  meets : a.terminal.meets b.terminal = true
  apart : a.clashes strict b.terminal = false

theorem extends_cases {text : List Char} (h : extends_ text c = true) :
    (∃ p ∈ punctuators, ∃ more, p.2.toList = text ++ c :: more) ∨
      (text = ['.'] ∧ isDecimal c = true) ∨ (text = ['/'] ∧ (c = '/' ∨ c = '*')) := by
  simp only [extends_, Bool.or_eq_true, Bool.and_eq_true, decide_eq_true_eq, List.any_eq_true] at h
  obtain (⟨p, hp, hprefix⟩ | h) | h := h
  · obtain ⟨more, hmore⟩ := List.isPrefixOf_iff_prefix.1 hprefix
    exact .inl ⟨p, hp, more, by rw [← hmore]; simp⟩
  · exact .inr (.inl h)
  · exact .inr (.inr h)

/-- No name, number or string begins with a character of a punctuator. -/
theorem punctuator_chars : ∀ p ∈ punctuators, ∀ c ∈ p.2.toList,
    isNamePart c = false ∧ isDecimal c = false ∧ c.isAlpha = false ∧ c ≠ '"' ∧ c ≠ '\'' := by
  decide

theorem not_extends_of_isNamePart {text : List Char} (hc : isNamePart c = true)
    (hdot : text = ['.'] → isDecimal c = false) : extends_ text c = false := by
  by_contra h
  obtain ⟨p, hp, more, htext⟩ | ⟨rfl, hdec⟩ | ⟨-, rfl | rfl⟩ :=
    extends_cases (Bool.of_not_eq_false h)
  · rw [(punctuator_chars p hp c (by simp [htext])).1] at hc
    cases hc
  · rw [hdot rfl] at hdec
    cases hdec
  · exact absurd hc (by decide)
  · exact absurd hc (by decide)

theorem not_extends_quote (hc : c = '"' ∨ c = '\'') (text : List Char) :
    extends_ text c = false := by
  by_contra h
  obtain ⟨p, hp, more, htext⟩ | ⟨-, hdec⟩ | ⟨-, rfl | rfl⟩ :=
    extends_cases (Bool.of_not_eq_false h)
  · obtain ⟨-, -, -, hdouble, hsingle⟩ := punctuator_chars p hp c (by simp [htext])
    exact hc.elim hdouble hsingle
  · obtain rfl | rfl := hc <;> exact absurd hdec (by decide)
  · exact absurd hc (by decide)
  · exact absurd hc (by decide)

/-- The first characters of the punctuators that a token of a class can meet. -/
def headsAfter (t : Terminal) : List Char :=
  (punctuators.filter (t.meets ·.1)).filterMap (·.2.toList.head?)

/-- Where a character would lengthen a punctuator, the grammar has no token that begins with it, or
the writer puts a blank before it. -/
theorem punctuators_apart : ∀ p ∈ punctuators, ∀ q ∈ punctuators,
    p.2.toList.isPrefixOf q.2.toList = true →
      ∀ c ∈ (q.2.toList.drop p.2.toList.length).head?, c = '/' ∨ c ∈ headsAfter p.1 →
        p.2.toList.getLast?.any (Piece.mustSeparate · c) = true := by
  decide +kernel

theorem slash_apart : ∀ p ∈ punctuators, p.2.toList = ['/'] →
    '*' ∉ headsAfter p.1 ∧ p.2.toList.getLast?.any (Piece.mustSeparate · '/') = true := by
  decide

theorem not_extends_of_heads (hp : (a.terminal, a.text) ∈ punctuators)
    (hc : c = '/' ∨ c ∈ headsAfter a.terminal) (hdec : isDecimal c = false)
    (hl : a.text.toList.getLast? = some l) (hsep : Piece.mustSeparate l c = false) :
    extends_ a.text.toList c = false := by
  by_contra h
  suffices ht : a.text.toList.getLast?.any (Piece.mustSeparate · c) = true by
    rw [hl, Option.any_some, hsep] at ht
    cases ht
  obtain ⟨q, hq, more, htext⟩ | ⟨-, h⟩ | ⟨htext, rfl | rfl⟩ :=
    extends_cases (Bool.of_not_eq_false h)
  · refine punctuators_apart _ hp q hq ?_ c ?_ hc
    · rw [htext, List.isPrefixOf_iff_prefix]
      exact List.prefix_append _ _
    · simp [htext]
  · rw [hdec] at h
    cases h
  · exact (slash_apart _ hp htext).2
  · exact absurd (hc.resolve_left (by decide)) (slash_apart _ hp htext).1

theorem isDecimal_of_isNameStart (h : isNameStart c = true) : isDecimal c = false := by
  simp only [isNameStart, Bool.or_eq_true, Bool.and_eq_true, beq_iff_eq] at h
  obtain ⟨-, h⟩ | rfl := h
  · simpa using h
  · decide

theorem punctuator_ends (hp : (a.terminal, a.text) ∈ punctuators) :
    a.endsBefore c = !extends_ a.text.toList c := by
  obtain ⟨hkey, hno⟩ := not_isKeyword_of_punctuator _ hp
  rw [endsBefore_word hno, hkey]
  rfl

theorem dot_of_punctuator : ∀ p ∈ punctuators,
    (p.2.toList = ['.'] → p.1 = .dot) ∧ (p.2.toList.head? = some '.' → p.1 = .dot) := by
  decide

theorem punctuator_endsBefore (hp : (a.terminal, a.text) ∈ punctuators) (hb : b.Begins c)
    (hc : b.text.toList.head? = some c) (h : a.Meets strict b)
    (hl : a.text.toList.getLast? = some l) (hsep : Piece.mustSeparate l c = false) :
    a.endsBefore c = true := by
  rw [punctuator_ends hp, Bool.not_eq_true']
  cases hb with
  | keyword _ start | name _ start =>
    exact not_extends_of_isNamePart (isNamePart_of_isNameStart start) fun _ =>
      isDecimal_of_isNameStart start
  | punctuator is =>
    refine not_extends_of_heads hp (.inr ?_)
      (punctuator_chars _ is c (List.mem_of_mem_head? hc)).2.1 hl hsep
    exact List.mem_filterMap.2 ⟨_, List.mem_filter.2 ⟨is, h.meets⟩, hc⟩
  | number is digit =>
    refine not_extends_of_isNamePart (isNamePart_of_isDigit digit) fun hdot => ?_
    have hmeets := h.meets
    rw [show a.terminal = .dot from (dot_of_punctuator _ hp).1 hdot, is] at hmeets
    cases hmeets
  | string _ quote => exact not_extends_quote quote _
  | regex _ slash => subst slash; exact not_extends_of_heads hp (.inl rfl) (by decide) hl hsep

theorem not_isNamePart_of_mustSeparate (hl : isNamePart l = true)
    (hsep : Piece.mustSeparate l c = false) : isNamePart c = false := by
  simp only [Piece.mustSeparate, Piece.joinsNames, hl, Bool.true_or, Bool.true_and,
    Bool.or_eq_false_iff] at hsep
  exact hsep.1.1

theorem number_endsBefore (ha : a.terminal = .number) (hb : b.Begins c)
    (hc : b.text.toList.head? = some c) (h : a.Meets strict b) (hpart : isNamePart c = false) :
    a.endsBefore c = true := by
  have hno : ∀ {d : Char}, isNameStart d = true → isNamePart d = false → False := fun hs hp => by
    rw [isNamePart_of_isNameStart hs] at hp
    cases hp
  suffices hd : isDecimal c = false ∧ c ≠ '.' by simp [endsBefore, ha, hpart, hd]
  cases hb with
  | keyword _ start | name _ start => exact (hno start hpart).elim
  | punctuator is =>
    refine ⟨(punctuator_chars _ is c (List.mem_of_mem_head? hc)).2.1, ?_⟩
    rintro rfl
    have hapart := h.apart
    rw [show b.terminal = .dot from (dot_of_punctuator _ is).2 hc, clashes, ha] at hapart
    cases hapart
  | number _ digit =>
    rw [isNamePart_of_isDigit digit] at hpart
    cases hpart
  | string _ quote => obtain rfl | rfl := quote <;> decide
  | regex _ slash => subst slash; decide

theorem isNamePart_of_isAlpha (h : c.isAlpha = true) : isNamePart c = true := by
  have hlt : c.toNat < 128 := by
    simp only [Char.isAlpha, Char.isUpper, Char.isLower, Bool.or_eq_true, Bool.and_eq_true,
      decide_eq_true_eq, UInt32.le_iff_toNat_le] at h
    have : c.toNat = c.val.toNat := rfl
    obtain h | h := h
    · exact Nat.lt_of_le_of_lt h.2 (by decide)
    · exact Nat.lt_of_le_of_lt h.2 (by decide)
  simp [isNamePart, isWord, hlt, Char.isAlphanum, h]

theorem isAlpha_of_isDigit (h : c.isDigit = true) : c.isAlpha = false := by
  simp only [Char.isDigit, Bool.and_eq_true, decide_eq_true_eq, UInt32.le_iff_toNat_le, ge_iff_le]
    at h
  simp only [Char.isAlpha, Char.isUpper, Char.isLower, Bool.or_eq_false_iff, Bool.and_eq_false_iff,
    decide_eq_false_iff_not, UInt32.le_iff_toNat_le, ge_iff_le, Bool.decide_and]
  have hlt : c.val.toNat < 'A'.val.toNat := Nat.lt_of_le_of_lt h.2 (by decide)
  exact ⟨.inl (Nat.not_le.2 hlt), .inl (Nat.not_le.2 (Nat.lt_trans hlt (by decide)))⟩

theorem regex_endsBefore (ha : a.terminal = .regex) (hl : a.text.toList.getLast? = some l)
    (hmark : l = '/' ∨ l.isAlpha = true) (hb : b.Begins c) (hc : b.text.toList.head? = some c)
    (h : a.Meets strict b) (hs : strict = true ∨ b.terminal ∉ [.kwIn, .kwInstanceof])
    (hsep : Piece.mustSeparate l c = false) : a.endsBefore c = true := by
  suffices hd : c.isAlpha = false by simp [endsBefore, ha, hd]
  by_contra halpha
  have halpha := Bool.of_not_eq_false halpha
  have hpart := isNamePart_of_isAlpha halpha
  have hmeets := h.meets
  have hapart := h.apart
  rw [ha] at hmeets
  cases hb with
  | keyword is start =>
    -- only an operator that is a word can follow, and it is kept off by a flag
    have hop : b.terminal = .kwIn ∨ b.terminal = .kwInstanceof := by
      have := hmeets
      simp only [meets, is, Bool.and_eq_true, Bool.not_true, Bool.false_or, Bool.or_eq_true,
        decide_eq_true_eq] at this
      exact this.2
    have hstrict := hs.resolve_right fun hno => hno (by simpa using hop)
    have hslash : l = '/' := by
      refine hmark.resolve_right fun hflag => ?_
      rw [not_isNamePart_of_mustSeparate (isNamePart_of_isAlpha hflag) hsep] at hpart
      cases hpart
    obtain hop | hop := hop <;>
      · rw [clashes, ha, hl, hslash, hstrict, hop] at hapart
        cases hapart
  | punctuator is =>
    rw [(punctuator_chars _ is c (List.mem_of_mem_head? hc)).2.2.1] at halpha
    cases halpha
  | name is start =>
    rw [is] at hmeets
    cases hmeets
  | number _ digit =>
    rw [isAlpha_of_isDigit digit] at halpha
    cases halpha
  | string _ quote => obtain rfl | rfl := quote <;> exact absurd halpha (by decide)
  | regex _ slash => subst slash; exact absurd halpha (by decide)

/-- Where the writer puts no blank, a token ends before the next one. -/
theorem Complete.endsBefore_of_meets (ha : a.Complete) (hb : b.Complete) (h : a.Meets strict b)
    (hs : strict = true ∨ b.terminal ∉ [.kwIn, .kwInstanceof])
    (hl : a.text.toList.getLast? = some l) (hc : b.text.toList.head? = some c)
    (hsep : Piece.mustSeparate l c = false) : a.endsBefore c = true := by
  have hbegins := hb.begins hc
  cases ha.finishes hl with
  | word is part =>
    have hpart := not_isNamePart_of_mustSeparate part hsep
    obtain is | is | is := is
    · have hno : ∀ t ∈ [Terminal.string, .regex, .number, .name], t.isKeyword = false := by decide
      rw [endsBefore_word fun hmem => Bool.false_ne_true ((hno _ hmem).symm.trans is), is, hpart]
      rfl
    · simp [endsBefore, is, hpart]
    · exact number_endsBefore is hbegins hc h hpart
  | punctuator is => exact punctuator_endsBefore is hbegins hc h hl hsep
  | string is => simp [endsBefore, is]
  | regex is mark => exact regex_endsBefore is hl mark hbegins hc h hs hsep

/-- Tokens after which a line may end. -/
def endsLine (a : Token) : Bool :=
  a.terminal ∈ [.lbrace, .rbrace, .semicolon, .comma, .colon]

theorem heedsLine_of_endsLine (h : a.endsLine = true) (b : Token) : heedsLine a b = false := by
  have : ∀ t ∈ [Terminal.lbrace, .rbrace, .semicolon, .comma, .colon],
      (isRestricted t || endsOperand t) = false := by decide
  have := this _ (of_decide_eq_true h)
  rw [Bool.or_eq_false_iff] at this
  simp [heedsLine, this]

/-- No line end is looked for behind a character that is neither a blank nor a slash. -/
theorem calm_of_not_blank (h : Gap.isGapBlank c = false) (hslash : c ≠ '/') :
    c ≠ '/' ∧ isLineEnd c = false ∧ Gap.isPassed c = false := by
  have blanks : ∀ d ∈ ['\n', '\r', '\u2028', '\u2029', ' ', '\t', '\x0b', '\x0c', '\ufeff', '\u00a0'],
      Gap.isGapBlank d = true := by decide
  have hno : ∀ d ∈ ['\n', '\r', '\u2028', '\u2029', ' ', '\t', '\x0b', '\x0c', '\ufeff', '\u00a0'],
      c ≠ d := by
    rintro d hd rfl
    rw [blanks c hd] at h
    cases h
  refine ⟨hslash, ?_, ?_⟩
  · simp [isLineEnd, hno]
  · simp [Gap.isPassed, hno]

theorem terminal_of_update (hb : b.Complete) (h : b.text = "++" ∨ b.text = "--") :
    b.terminal = .plusPlus ∨ b.terminal = .minusMinus := by
  have hhead : b.text.toList.head? = some '+' ∨ b.text.toList.head? = some '-' := by
    obtain h | h := h <;> rw [h] <;> decide
  have update : ∀ p ∈ punctuators, p.2 = "++" ∨ p.2 = "--" →
      p.1 = .plusPlus ∨ p.1 = .minusMinus := by decide
  obtain hhead | hhead := hhead <;>
  · cases hb.begins hhead with
    | punctuator is => exact update _ is h
    | keyword _ start | name _ start => exact absurd start (by decide)
    | number _ digit => exact absurd digit (by decide)
    | string _ quote => exact absurd quote (by decide)
    | regex _ slash => exact absurd slash (by decide)

/-- A token that a line end after it matters for is not taken for the end of a comment. -/
theorem Complete.isSolid_of_heeds (ha : a.Complete) (hb : b.Complete ∨ b.text = "")
    (h : b.text ≠ "" → a.Meets strict b) (hh : heedsLine a b = true) : a.IsSolid := by
  obtain ⟨c, hc⟩ : ∃ c, a.text.toList.getLast? = some c :=
    ⟨_, List.getLast?_eq_some_getLast ha.ne_nil⟩
  refine ⟨c, hc, ?_⟩
  have hheeds : (isRestricted a.terminal || endsOperand a.terminal) = true := by
    simp only [heedsLine, Bool.or_eq_true, Bool.and_eq_true] at hh ⊢
    exact hh.imp id And.right
  cases ha.finishes hc with
  | word _ part =>
    refine calm_of_not_blank (Gap.isGapBlank_of_isNamePart part) ?_
    rintro rfl
    exact absurd part (by decide)
  | punctuator is =>
    have : ∀ p ∈ punctuators, (isRestricted p.1 || endsOperand p.1) = true →
        ∀ c ∈ p.2.toList.getLast?, c ≠ '/' ∧ isLineEnd c = false ∧ Gap.isPassed c = false := by
      decide
    exact this _ is hheeds c hc
  | string _ quote => obtain rfl | rfl := quote <;> decide
  | regex is mark =>
    simp only [heedsLine, is, Bool.or_eq_true, Bool.and_eq_true, decide_eq_true_eq] at hh
    obtain hh | ⟨hh, -⟩ := hh
    · exact absurd hh (by decide)
    · have hne : b.text ≠ "" := by rintro hnil; rw [hnil] at hh; exact absurd hh (by decide)
      have hapart := (h hne).apart
      obtain ht | ht := terminal_of_update (hb.resolve_right hne) hh <;>
      · rw [clashes, is, ht] at hapart
        cases hapart

end Token

end Debundle
