import Debundle.Proofs.Writing.Faithful

/-!
# Names and literals

The phrases of single tokens: names, numbers, strings, regular expressions and the keys of
properties are written so that they are read to the same value.
-/
namespace Debundle

open Text Escape Build Piece Literal

/-! ## Texts of literals -/

theorem Escape.ascii_of_isPrintable {cs : List Char} (h : IsPrintable cs) (inName : Bool) :
    ascii inName cs = cs := by
  induction cs with
  | nil => rfl
  | cons c cs ih =>
    have hc : ¬(c.toNat < 0x20 ∨ 0x7f ≤ c.toNat) := by
      simpa [isBeyondAscii] using h c (.head _)
    simpa [ascii, hc] using ih fun d hd => h d (.tail _ hd)

theorem Layout.name_of_isPrintable {s : String} (h : IsPrintable s.toList) (style : Style) :
    Layout.name style s = word s := by
  rw [Layout.name, ascii_of_isPrintable h, ite_self]
  rfl

theorem Literal.string_written (asciiOnly : Bool) {v : List Char} (hv : '\\' ∉ v) :
    Lexeme.string? (Escape.string asciiOnly v) = some (Escape.string asciiOnly v).length ∧
      Literal.string (String.ofList (Escape.string asciiOnly v)) = .ok (String.ofList v) := by
  have hq := quoteFor_eq v
  have hstring := Escape.string_eq asciiOnly v
  generalize quoteFor v = quote at hq hstring
  have hbody : ((String.ofList (Escape.string asciiOnly v)).toList.drop 1).dropLast =
      written asciiOnly quote v := by
    rw [String.toList_ofList, hstring]
    simp
  have hscan : Scanned quote (written asciiOnly quote v) := scanned_written hq hv
  constructor
  · rw [Scanned] at hscan
    rw [hstring]
    rcases hq with rfl | rfl <;> simp [Lexeme.string?, hscan]
  · rw [Literal.string, hbody, codePoints_of_decodes (decodes_written hq hv) le_rfl]
    dsimp only [bind, Except.bind]
    rw [joinPairs_points]
    rfl

namespace Numeral

theorem digitsValue_eq (cs : List Char) : digitsValue cs = Nat.ofDigitChars 10 cs 0 := by
  rw [Nat.ofDigitChars_eq_foldl, digitsValue]
  exact congrFun (congrFun (congrArg _ (funext₂ fun n c => by rw [Nat.mul_comm]; rfl)) _) _

theorem plainDigit_of_isDigit {c : Char} (h : c.isDigit = true) : plainDigit c = c := by
  have hle : '0'.toNat ≤ c.toNat ∧ c.toNat ≤ '9'.toNat := by
    simpa [Char.isDigit, UInt32.le_iff_toNat_le] using h
  have hlt : c.toNat < 128 := Nat.lt_of_le_of_lt hle.2 (by decide)
  have hvalue : decimalValue? c = some (c.toNat - 0x30) := by simp [decimalValue?, hlt, h]
  rw [plainDigit, hvalue]
  have : 0x30 + (c.toNat - 0x30) = c.toNat := Nat.add_sub_cancel' hle.1
  simp only [this, Char.ofNat_toNat]

theorem read?_digits {cs : List Char} (hne : cs ≠ []) (hd : ∀ c ∈ cs, c.isDigit = true)
    (hlen : cs.length ≤ maxDigits) : read? cs = some (.whole (digitsValue cs)) := by
  have hall : (cs ≠ [] && cs.all isDecimal) = true := by
    simpa [hne] using fun c hc => isDecimal_of_isDigit (hd c hc)
  have hplain : cs.map plainDigit = cs := by
    refine (List.map_congr_left fun c hc => plainDigit_of_isDigit (hd c hc)).trans ?_
    exact List.map_id _
  unfold read?
  split
  · exact absurd (hd 'x' (by simp)) (by decide)
  · exact absurd (hd 'X' (by simp)) (by decide)
  · rw [if_pos hall, if_pos hlen, hplain]

theorem isDigit_naturalText {n : Nat} {c : Char} (hc : c ∈ naturalText n) : c.isDigit = true :=
  Nat.isDigit_of_mem_toDigits (by decide) (by decide) hc

theorem length_naturalText {n : Nat} (h : n < 10 ^ maxDigits) :
    (naturalText n).length ≤ maxDigits :=
  (Nat.length_toDigits_le_iff (by decide) (by decide)).2 h

theorem code?_whole {n : Nat} (h : (naturalText n).length ≤ maxDigits) :
    (Numeral.whole n).code? = some (String.ofList (naturalText n)) := by
  have hn : ¬(n : Int) < 0 := Int.not_lt.2 (Int.natCast_nonneg n)
  simp [code?, wholeText?, h, if_neg hn]

theorem number_written {n : Nat} (h : n < 10 ^ maxDigits) :
    Literal.number (String.ofList (naturalText n)) = .ok (.whole n) := by
  have hne : naturalText n ≠ [] := Nat.toDigits_ne_nil
  have hread := read?_digits hne (fun c => isDigit_naturalText) (length_naturalText h)
  rw [digitsValue_eq, naturalText, Nat.ofDigitChars_ten_toDigits] at hread
  rw [Literal.number, String.toList_ofList, naturalText, hread]

theorem digitChar_of_isDigit {c : Char} (h : c.isDigit = true) :
    c.toNat - '0'.toNat < 10 ∧ (c.toNat - '0'.toNat).digitChar = c := by
  have hle : '0'.toNat ≤ c.toNat ∧ c.toNat ≤ '9'.toNat := by
    simpa [Char.isDigit, UInt32.le_iff_toNat_le] using h
  have all : ∀ d < 10, Nat.digitChar d = Char.ofNat ('0'.toNat + d) := by decide
  have hlt : c.toNat - '0'.toNat < 10 :=
    Nat.lt_of_le_of_lt (Nat.sub_le_sub_right hle.2 _) (by decide)
  rw [all _ hlt, Nat.add_sub_cancel' hle.1, Char.ofNat_toNat]
  exact ⟨hlt, rfl⟩

theorem naturalText_digitsValue {cs : List Char} (hne : cs ≠ [])
    (hd : ∀ c ∈ cs, c.isDigit = true) (hzero : cs.head? = some '0' → cs = ['0']) :
    naturalText (digitsValue cs) = cs := by
  rw [digitsValue_eq]
  induction cs using List.reverseRecOn with
  | nil => exact absurd rfl hne
  | append_singleton init c ih =>
    obtain ⟨hlt, hchar⟩ := digitChar_of_isDigit (hd c (by simp))
    rw [Nat.ofDigitChars_append, Nat.ofDigitChars_cons, Nat.ofDigitChars_nil, naturalText]
    obtain rfl | hinit := eq_or_ne init []
    · rw [Nat.ofDigitChars_nil, Nat.mul_zero, Nat.zero_add, Nat.toDigits_of_lt_base hlt, hchar]
      rfl
    · have hhead : ∀ x, init.head? = some x → x ≠ '0' := by
        rintro x hx rfl
        have := congrArg List.length (hzero (by rw [List.head?_append, hx]; rfl))
        exact hinit (by simpa using this)
      have ih := ih hinit (fun d hd' => hd d (by simp [hd'])) fun h => absurd rfl (hhead _ h)
      have hpos : 0 < Nat.ofDigitChars 10 init 0 := by
        refine Nat.pos_of_ne_zero fun h0 => ?_
        rw [h0] at ih
        exact hhead '0' (by rw [← ih]; rfl) rfl
      rw [← Nat.toDigits_append_toDigits (by decide) hpos hlt, Nat.toDigits_of_lt_base hlt, hchar]
      exact congrArg (· ++ [c]) ih

theorem numberKey_digits {s : String} (hne : s.toList ≠ [])
    (hd : ∀ c ∈ s.toList, c.isDigit = true) (hzero : s.toList.head? = some '0' → s.toList = ['0'])
    (hlen : s.length ≤ maxDigits) : Literal.numberKey s = .ok s := by
  have hlen : s.toList.length ≤ maxDigits := by rwa [String.length_toList]
  have htext := naturalText_digitsValue hne hd hzero
  rw [Literal.numberKey, Literal.number, read?_digits hne hd hlen]
  dsimp only [bind, Except.bind]
  rw [code?_whole (by rwa [htext]), htext, String.ofList_toList]
  rfl

end Numeral

/-! ## Phrases of one token -/

namespace Phrase

variable {strict : Bool} {refused : List Terminal}

theorem token {t : Terminal} {k : String} (ha : (Token.of t k).Complete)
    (hk : (Token.of t k).spellsKeyword = false) (hplain : t ∉ [.kwIn, .kwInstanceof])
    (hclash : ∀ u ∉ refused, (Token.of t k).clashes strict u = false) :
    Phrase strict false (.terminal t) (.token (.of t k)) [word k] refused :=
  ⟨[.of t k], (Lays.nil false).token (a := .of t k) ha nofun hplain, fun after hafter =>
    ⟨.leaf (.of t k) hk after, hclash after hafter, trivial⟩⟩

theorem propertyWord {r : Rule} (hr : r ∈ Rule.all.toList) (hb : r.body = [.terminal .name])
    (hh : r.head = .propertyName ∨ r.head = .propertyKey) {k : String} (hn : IsName k.toList)
    {v : Value} (ha : apply r.label none [.token (.of .name k)] = .ok v) :
    Phrase strict false (.nonterminal r.head) v [word k] [] :=
  ⟨[.of .name k], (Lays.nil false).token (a := .of .name k) (.name rfl hn) nofun (by simp [Token.of]),
    fun _ _ => ⟨.propertyWord hr hb hh rfl ha, rfl, trivial⟩⟩

theorem string (asciiOnly : Bool) {v : String} (hv : '\\' ∉ v.toList) :
    Phrase strict false (.terminal .string)
      (.token (.of .string (String.ofList (Escape.string asciiOnly v.toList))))
      [text (Escape.string asciiOnly v.toList)] refused := by
  have hlex := (Literal.string_written asciiOnly hv).1
  generalize Escape.string asciiOnly v.toList = cs at hlex
  have hword : text cs = word (String.ofList cs) := by rw [word, String.toList_ofList]
  rw [hword]
  exact token (.string rfl (by simpa [Token.of] using hlex)) rfl (by decide) fun _ _ => rfl

theorem number {k : String} (hne : k.toList ≠ []) (hd : ∀ c ∈ k.toList, c.isDigit = true) :
    Phrase strict false (.terminal .number) (.token (.of .number k)) [word k] [.dot] :=
  token (.number rfl hne hd) rfl (by decide) fun t ht => by
    simpa [Token.clashes, Token.of] using ht

theorem regex {k : String} (hk : Lexeme.regex? k.toList = some k.toList.length) :
    Phrase strict false (.terminal .regex) (.token (.of .regex k)) [word k]
      ((Form.regexp k : Form Node).refused strict) :=
  token (.regex rfl hk) rfl (by decide) fun t ht => by
    simp only [Form.refused, List.mem_append, List.mem_cons, List.not_mem_nil, or_false,
      not_or] at ht
    obtain ⟨⟨hplus, hminus⟩, ht⟩ := ht
    simp only [Token.clashes, Token.of, hplus, hminus, decide_false, Bool.false_or]
    cases strict with
    | false => rfl
    | true =>
      by_cases hlast : k.toList.getLast? = some '/'
      · simpa [hlast] using ht
      · simp [hlast]

theorem primary (label : Label) {t : Terminal} {a : Token} {pieces : List Piece} {v : Node}
    (h : Phrase strict false (.terminal t) (.token a) pieces refused)
    (ha : apply label none [.token a] = .ok (.node v))
    (hr : Rule.isFree ⟨.primaryLead, [.terminal t], label⟩ = true) :
    Phrase strict false (.nonterminal .primaryLead) (.node v) pieces refused :=
  .rule label (.single h) ha hr

end Phrase

/-! ## Keys of properties -/

namespace Layout

theorem isName_of_isAlpha {c : Char} {rest : List Char}
    (hc : (c.isAlpha || c == '_' || c == '$') = true) (hr : rest.all isNamePart = true) :
    IsName (c :: rest) := by
  refine ⟨c, rest, rfl, ?_, List.all_eq_true.1 hr⟩
  simp only [Bool.or_eq_true, beq_iff_eq] at hc
  obtain (hc | rfl) | rfl := hc
  · have hlt : c.toNat < 128 := by
      simp only [Char.isAlpha, Char.isUpper, Char.isLower, Bool.or_eq_true, Bool.and_eq_true,
        decide_eq_true_eq, UInt32.le_iff_toNat_le] at hc
      obtain ⟨-, h⟩ | ⟨-, h⟩ := hc <;> exact Nat.lt_of_le_of_lt h (by decide)
    have hd : c.isDigit = false := by
      by_contra hd
      rw [Token.isAlpha_of_isDigit (Bool.of_not_eq_false hd)] at hc
      cases hc
    simp [isNameStart, isWord, isDecimal, decimalValue?, hlt, hd, Char.isAlphanum, hc]
  · decide
  · decide

theorem isDigit_of_isDecimal {c : Char} (hc : isDecimal c = true) (hp : isBeyondAscii c = false) :
    c.isDigit = true := by
  have hlt : c.toNat < 128 := by
    simp only [isBeyondAscii, Bool.or_eq_false_iff, decide_eq_false_iff_not] at hp
    omega
  by_contra hd
  simp [isDecimal, decimalValue?, hlt, hd] at hc

theorem isBareKey_cases {cs : List Char} (h : isBareKey cs = true) (hp : IsPrintable cs) :
    IsName cs ∨ cs ≠ [] ∧ (∀ c ∈ cs, c.isDigit = true) ∧ (cs.head? = some '0' → cs = ['0']) := by
  cases cs with
  | nil => cases h
  | cons c rest =>
    simp only [isBareKey, Bool.or_eq_true] at h
    obtain (h | h) | h := h
    · rw [Bool.and_eq_true] at h
      exact .inl (isName_of_isAlpha (by simpa using h.1) h.2)
    · simp only [Bool.and_eq_true, beq_iff_eq, List.isEmpty_iff] at h
      obtain ⟨rfl, rfl⟩ := h
      exact .inr ⟨by simp, by decide, fun _ => rfl⟩
    · simp only [Bool.and_eq_true, decide_eq_true_eq] at h
      obtain ⟨⟨hlow, hhigh⟩, hrest⟩ := h
      refine .inr ⟨by simp, ?_, fun hzero => ?_⟩
      · refine List.forall_mem_cons.2 ⟨?_, fun d hd =>
          isDigit_of_isDecimal (List.all_eq_true.1 hrest d hd) (hp d (.tail _ hd))⟩
        have hlow : '0' ≤ c := Char.le_trans (by decide) hlow
        simpa [Char.isDigit] using ⟨hlow, hhigh⟩
      · obtain rfl : c = '0' := Option.some.inj hzero
        exact absurd hlow (by decide)

end Layout

theorem Phrase.key {strict : Bool} (style : Style) {k : String} (place : Build.Place)
    (hslash : '\\' ∉ k.toList) (hprint : Layout.isBareKey k.toList = true → IsPrintable k.toList)
    (hlen : k.toList.all Char.isDigit = true → k.length < Numeral.maxDigits) :
    ∃ a, Phrase strict false (.nonterminal .propertyKey) (.token a) [Layout.key style k] [.dot] ∧
      propertyKey place a = .ok k := by
  by_cases hbare : Layout.isBareKey k.toList = true
  · have hkey : Layout.key style k = word k := by rw [Layout.key, if_pos hbare]; rfl
    rw [hkey]
    obtain hn | ⟨hne, hd, hzero⟩ := Layout.isBareKey_cases hbare (hprint hbare)
    · exact ⟨.of .name k, (propertyWord (r := ⟨.propertyKey, [.terminal .name], .pass⟩)
        (by decide) rfl (.inr rfl) hn rfl).refuse (by simp), rfl⟩
    · refine ⟨.of .number k, .rule .pass (.single (.number hne hd)) rfl rfl, ?_⟩
      have := Numeral.numberKey_digits hne hd hzero
        (Nat.le_of_lt (hlen (List.all_eq_true.2 hd)))
      simp [propertyKey, Token.of, this, literal]
  · have hkey : Layout.key style k = text (Escape.string style.asciiOnly k.toList) := by
      rw [Layout.key, if_neg hbare]
    rw [hkey]
    refine ⟨.of .string _, .rule .pass (.single (.string style.asciiOnly hslash)) rfl rfl, ?_⟩
    have := (Literal.string_written style.asciiOnly hslash).2
    simp [propertyKey, Token.of, this, literal]

end Debundle
