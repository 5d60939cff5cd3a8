import Debundle.Proofs.Token.Scan

/-!
# Where tokens end

Each kind of token leads a text if the character after it cannot belong to it: a punctuator that no
longer one begins with, a word before a character of no name, a number before neither a name nor a
point, a string, and a regular expression before no letter.
-/
namespace Debundle

namespace Lexeme

open Text

/-- The word at the start of a text. -/
def wordOf (cs : List Char) : List Char :=
  cs.takeWhile isNamePart

theorem wordOf_append {w rest : List Char} (hw : ∀ c ∈ w, isNamePart c = true)
    (hr : ∀ c ∈ rest.head?, isNamePart c = false) : wordOf (w ++ rest) = w := by
  rw [wordOf, List.takeWhile_append_of_pos hw]
  cases rest with
  | nil => simp
  | cons c rest => simp [hr c rfl]

theorem wordOf_eq_nil {c : Char} (rest : List Char) (hc : isNamePart c = false) :
    wordOf (c :: rest) = [] := by
  simp [wordOf, hc]

theorem wholeWord?_eq {w : List Char} (hw : ∀ c ∈ w, isNamePart c = true) (cs : List Char) :
    wholeWord? w cs = if w = wordOf cs then some w.length else none := by
  by_cases hp : w <+: cs
  · obtain ⟨rest, rfl⟩ := hp
    simp only [wholeWord?, word?, List.isPrefixOf_iff_prefix, List.prefix_append, if_true,
      List.drop_left]
    by_cases hr : rest.head?.any isNamePart = true
    · obtain ⟨c, rest, rfl⟩ : ∃ c rest', rest = c :: rest' := by
        cases rest with
        | nil => simp at hr
        | cons c rest => exact ⟨c, rest, rfl⟩
      have hc : isNamePart c = true := by simpa using hr
      rw [if_pos hr, if_neg]
      intro h
      have hlen := congrArg List.length h
      rw [wordOf, List.takeWhile_append_of_pos hw, List.takeWhile_cons_of_pos hc] at hlen
      simp at hlen
    · rw [if_neg hr, if_pos]
      rw [wordOf_append hw]
      intro c hc
      by_contra hn
      rw [Option.mem_def] at hc
      simp [hc, Bool.of_not_eq_false hn] at hr
  · have hne : w ≠ wordOf cs := by
      rintro rfl
      exact hp (List.takeWhile_prefix _)
    simp [wholeWord?, word?, List.isPrefixOf_iff_prefix, hp, hne]

theorem keyword?_eq {words : List (List Char)}
    (hw : ∀ w ∈ words, ∀ c ∈ w, isNamePart c = true) (cs : List Char) :
    keyword? words cs = if wordOf cs ∈ words then some (wordOf cs).length else none := by
  rw [keyword?]
  induction words with
  | nil => rfl
  | cons w words ih =>
    rw [List.findSome?_cons, wholeWord?_eq (hw w List.mem_cons_self)]
    by_cases h : w = wordOf cs
    · simp [h]
    · rw [if_neg h]
      dsimp only
      rw [ih fun w' hw' => hw w' (List.mem_cons_of_mem w hw')]
      simp [Ne.symm h]

/-- The readers of the classes of terminals. -/
inductive IsReader : Terminal → (List Char → Option Nat) → Prop
  | keyword {k : Terminal × List String} (mem : k ∈ Terminal.keywords) :
      IsReader k.1 (keyword? (k.2.map String.toList))
  | regex : IsReader .regex regex?
  | string : IsReader .string string?
  | number : IsReader .number number?
  | name : IsReader .name name?
  | punctuator {p : Terminal × String} (mem : p ∈ Terminal.punctuators) :
      IsReader p.1 (word? p.2.toList)

theorem isReader_of_mem {t : Terminal} {f : List Char → Option Nat} (h : (t, f) ∈ readers) :
    IsReader t f := by
  simp only [readers, List.mem_append, List.mem_map, List.mem_cons, List.not_mem_nil, or_false,
    Prod.mk.injEq] at h
  obtain (⟨k, hk, rfl, rfl⟩ | ⟨rfl, rfl⟩ | ⟨rfl, rfl⟩ | ⟨rfl, rfl⟩ | ⟨rfl, rfl⟩) | ⟨p, hp, rfl, rfl⟩ := h
  · exact .keyword hk
  · exact .regex
  · exact .string
  · exact .number
  · exact .name
  · exact .punctuator hp

section Attempt

variable {allowed : Terminal → Bool} {cs : List Char} {r : Terminal × (List Char → Option Nat)}

theorem attempt?_of_none (h : r.2 cs = none) : attempt? allowed cs r = none := by
  rw [attempt?, h]

theorem attempt?_of_not_allowed (h : allowed r.1 = false) : attempt? allowed cs r = none := by
  rw [attempt?]
  split <;> simp [h]

theorem attempt?_of_some {n : Nat} (h : r.2 cs = some n) (ha : allowed r.1 = true) :
    attempt? allowed cs r = some (r.1, n) := by
  rw [attempt?, h]
  exact if_pos ha

end Attempt

/-- The class of a word among the keywords that are allowed. -/
def keywordOf? (allowed : Terminal → Bool) (w : List Char) : Option Terminal :=
  (Terminal.keywords.find? fun k => decide (w ∈ k.2.map String.toList) && allowed k.1).map Prod.fst

theorem isName_of_keyword : ∀ k ∈ Terminal.keywords, ∀ w ∈ k.2,
    (w.toList.head?.any isNameStart && w.toList.all isNamePart) = true := by
  have hall : (Terminal.keywords.all fun k => k.2.all fun w =>
      w.toList.head?.any isNameStart && w.toList.all isNamePart) = true := by decide
  exact fun k hk w hw => List.all_eq_true.1 (List.all_eq_true.1 hall k hk) w hw

theorem isNamePart_of_keyword {k : Terminal × List String} (hk : k ∈ Terminal.keywords) :
    ∀ w ∈ k.2.map String.toList, ∀ c ∈ w, isNamePart c = true := by
  intro w hw c hc
  obtain ⟨word, hword, rfl⟩ := List.mem_map.1 hw
  have := isName_of_keyword k hk word hword
  rw [Bool.and_eq_true] at this
  exact List.all_eq_true.1 this.2 c hc

theorem attempt?_keyword (allowed : Terminal → Bool) (cs : List Char)
    {k : Terminal × List String} (hk : k ∈ Terminal.keywords) :
    attempt? allowed cs (k.1, keyword? (k.2.map String.toList)) =
      if (decide (wordOf cs ∈ k.2.map String.toList) && allowed k.1) = true then
        some (k.1, (wordOf cs).length)
      else none := by
  rw [attempt?]
  dsimp only
  rw [keyword?_eq (isNamePart_of_keyword hk)]
  by_cases hmem : wordOf cs ∈ k.2.map String.toList
  · simp [hmem]
  · simp [hmem]

/-- The readers of all terminals but the keywords. -/
def otherReaders : List (Terminal × (List Char → Option Nat)) :=
  [(.regex, regex?), (.string, string?), (.number, number?), (.name, name?)] ++
    Terminal.punctuators.map fun p => (p.1, word? p.2.toList)

theorem first?_eq (allowed : Terminal → Bool) (cs : List Char) :
    first? allowed cs =
      match keywordOf? allowed (wordOf cs) with
      | some t => some (t, (wordOf cs).length)
      | none => otherReaders.findSome? (attempt? allowed cs) := by
  have keywords : ∀ ks : List (Terminal × List String), (∀ k ∈ ks, k ∈ Terminal.keywords) →
      (ks.map fun k => (k.1, keyword? (k.2.map String.toList))).findSome? (attempt? allowed cs) =
      (ks.find? fun k => decide (wordOf cs ∈ k.2.map String.toList) && allowed k.1).map
        fun k => (k.1, (wordOf cs).length) := by
    intro ks hks
    induction ks with
    | nil => rfl
    | cons k ks ih =>
      rw [List.map_cons, List.findSome?_cons, List.find?_cons,
        ih fun k' hk' => hks k' (List.mem_cons_of_mem k hk'),
        attempt?_keyword allowed cs (hks k List.mem_cons_self)]
      cases decide (wordOf cs ∈ k.2.map String.toList) && allowed k.1 <;> rfl
  rw [first?, readers, List.append_assoc, List.findSome?_append, keywords _ fun k hk => hk,
    keywordOf?]
  cases Terminal.keywords.find? fun k => decide (wordOf cs ∈ k.2.map String.toList) && allowed k.1 <;>
    rfl

theorem keywordOf?_eq_none {allowed : Terminal → Bool} {w : List Char}
    (h : ∀ k ∈ Terminal.keywords, w ∈ k.2.map String.toList → allowed k.1 = false) :
    keywordOf? allowed w = none := by
  rw [keywordOf?, Option.map_eq_none_iff, List.find?_eq_none]
  intro k hk hmem
  rw [Bool.and_eq_true, decide_eq_true_eq] at hmem
  rw [h k hk hmem.1] at hmem
  exact absurd hmem.2 (by decide)

theorem keywordOf?_nil (allowed : Terminal → Bool) : keywordOf? allowed [] = none := by
  refine keywordOf?_eq_none fun k hk hmem => ?_
  obtain ⟨word, hword, hnil⟩ := List.mem_map.1 hmem
  have := isName_of_keyword k hk word hword
  rw [hnil] at this
  cases this

theorem isNamePart_of_isNameStart {c : Char} (h : isNameStart c = true) : isNamePart c = true := by
  rw [isNameStart, Bool.or_eq_true, Bool.and_eq_true] at h
  rw [isNamePart, Bool.or_eq_true]
  exact h.imp (·.1) id

/-! ## Punctuators -/

/-- Whether a character after a punctuator would be read along with it. -/
def extends_ (text : List Char) (c : Char) : Bool :=
  (Terminal.punctuators.any fun p => (text ++ [c]).isPrefixOf p.2.toList) ||
    (text = ['.'] && isDecimal c) || (text = ['/'] && (c = '/' || c = '*'))

theorem word?_eq_some_iff {text cs : List Char} {n : Nat} :
    word? text cs = some n ↔ text <+: cs ∧ n = text.length := by
  rw [word?]
  split_ifs with h
  · rw [List.isPrefixOf_iff_prefix] at h
    simp [h, eq_comm]
  · rw [List.isPrefixOf_iff_prefix] at h
    simp [h]

theorem findSome?_punctuators {allowed : Terminal → Bool} {p : Terminal × String}
    (hp : p ∈ Terminal.punctuators) {rest : List Char} (ha : allowed p.1 = true)
    (hr : ∀ c ∈ rest.head?, extends_ p.2.toList c = false) :
    ((Terminal.punctuators.map fun p => (p.1, word? p.2.toList)).findSome?
      (attempt? allowed (p.2.toList ++ rest))) = some (p.1, p.2.toList.length) := by
  have sorted : Terminal.punctuators.Pairwise fun p q =>
      q.2.toList.length ≤ p.2.toList.length ∧ p.2.toList ≠ q.2.toList := by
    decide
  obtain ⟨before, after, hsplit⟩ := List.append_of_mem hp
  rw [hsplit] at sorted
  have longer : ∀ q ∈ before, attempt? allowed (p.2.toList ++ rest) (q.1, word? q.2.toList) =
      none := by
    intro q hq
    have hqp := (List.pairwise_append.1 sorted).2.2 q hq p List.mem_cons_self
    cases hw : word? q.2.toList (p.2.toList ++ rest) with
    | none => exact attempt?_of_none hw
    | some n =>
      obtain ⟨hpre, -⟩ := word?_eq_some_iff.1 hw
      obtain ⟨more, hmore⟩ := List.prefix_of_prefix_length_le (List.prefix_append _ _) hpre hqp.1
      obtain _ | ⟨c, more⟩ := more
      · exact absurd (by simpa using hmore) hqp.2.symm
      · rw [← hmore, List.prefix_append_right_inj] at hpre
        obtain ⟨tail, rfl⟩ := hpre
        have hext := hr c rfl
        have hq' : q ∈ Terminal.punctuators := hsplit ▸ List.mem_append_left _ hq
        have : (Terminal.punctuators.any fun p' =>
            (p.2.toList ++ [c]).isPrefixOf p'.2.toList) = true := by
          refine List.any_eq_true.2 ⟨q, hq', List.isPrefixOf_iff_prefix.2 ⟨more, ?_⟩⟩
          rw [← hmore, List.append_assoc, List.singleton_append]
        simp [extends_, this] at hext
  rw [hsplit, List.map_append, List.findSome?_append, List.map_cons, List.findSome?_cons]
  have hnone : (before.map fun p => (p.1, word? p.2.toList)).findSome?
      (attempt? allowed (p.2.toList ++ rest)) = none := by
    rw [List.findSome?_eq_none_iff]
    intro r hr
    obtain ⟨q, hq, rfl⟩ := List.mem_map.1 hr
    exact longer q hq
  have hown : attempt? allowed (p.2.toList ++ rest) (p.1, word? p.2.toList) =
      some (p.1, p.2.toList.length) :=
    attempt?_of_some (word?_eq_some_iff.2 ⟨List.prefix_append _ _, rfl⟩) ha
  rw [hnone, hown, Option.none_or]

theorem first?_of_wordOf_eq_nil {allowed : Terminal → Bool} {cs : List Char}
    (hword : wordOf cs = []) (hregex : regex? cs = none ∨ allowed .regex = false)
    (hstring : string? cs = none) (hnumber : number? cs = none) (hname : name? cs = none) :
    first? allowed cs = (Terminal.punctuators.map fun p => (p.1, word? p.2.toList)).findSome?
      (attempt? allowed cs) := by
  have hr : attempt? allowed cs (.regex, regex?) = none :=
    hregex.elim (fun h => attempt?_of_none (r := (.regex, regex?)) h)
      fun h => attempt?_of_not_allowed (r := (.regex, regex?)) h
  rw [first?_eq, hword, keywordOf?_nil, otherReaders, List.findSome?_append]
  simp [hr, attempt?_of_none (r := (Terminal.string, string?)) hstring,
    attempt?_of_none (r := (Terminal.number, number?)) hnumber,
    attempt?_of_none (r := (Terminal.name, name?)) hname]

/-- What is known of the first character of every punctuator. -/
def startsPunctuator (text : List Char) : Bool :=
  match text with
  | [] => false
  | c :: more => !isNamePart c && !isDecimal c && !Gap.isGapBlank c && c != '"' && c != '\'' &&
      (c != '.' || more.isEmpty) && (c != '/' || more.isEmpty || more = ['='])

theorem startsPunctuator_all :
    ∀ p ∈ Terminal.punctuators, startsPunctuator p.2.toList = true ∧
      (p.2.toList.head? = some '/' → Automaton.isSlash p.1 = true) := by
  decide

theorem name?_eq_none {c : Char} {cs : List Char} (h : isNamePart c = false) :
    name? (c :: cs) = none := by
  rw [name?, if_neg]
  intro hs
  rw [isNamePart_of_isNameStart hs] at h
  cases h

theorem string?_eq_none {c : Char} {cs : List Char} (h : c ≠ '"') (h' : c ≠ '\'') :
    string? (c :: cs) = none := by
  unfold string?
  split <;> simp_all

theorem regex?_eq_none {c : Char} {cs : List Char} (h : c ≠ '/') : regex? (c :: cs) = none := by
  unfold regex?
  split <;> simp_all

theorem run_cons_eq_zero {p : Char → Bool} {c : Char} {cs : List Char} (h : p c = false) :
    run p (c :: cs) = 0 := by
  simp [run, h]

theorem run_eq_zero {p : Char → Bool} {cs : List Char} (h : ∀ c ∈ cs.head?, p c = false) :
    run p cs = 0 := by
  cases cs with
  | nil => rfl
  | cons c cs => exact run_cons_eq_zero (h c rfl)

theorem number?_eq_none {c : Char} {cs : List Char} (h : isDecimal c = false)
    (hdot : c = '.' → ∀ d ∈ cs.head?, isDecimal d = false) : number? (c :: cs) = none := by
  have hdec : decimal? (c :: cs) = none := by
    unfold decimal?
    simp only [run_cons_eq_zero h, List.drop_zero, Nat.zero_add]
    split
    · rename_i rest heq
      cases heq
      simp [run_eq_zero (hdot rfl)]
    · simp
  unfold number?
  split
  · rename_i heq
    cases heq
    exact absurd h (by decide)
  · exact hdec

end Lexeme

namespace Gap

theorem extent?_eq_none {c : Char} {cs : List Char} (h : isGapBlank c = false)
    (hslash : c = '/' → ∀ d ∈ cs.head?, d ≠ '/' ∧ d ≠ '*') : extent? (c :: cs) = none := by
  unfold extent?
  split
  · rename_i heq
    cases heq
    exact absurd rfl (hslash rfl _ rfl).2
  · rename_i heq
    cases heq
    exact absurd rfl (hslash rfl _ rfl).1
  · rename_i heq
    cases heq
    simp [h]
  · rfl

end Gap

open Lexeme Text in
theorem Token.leads_punctuator {a : Token} (h : (a.terminal, a.text) ∈ Terminal.punctuators)
    {rest : List Char} (hr : ∀ c ∈ rest.head?, extends_ a.text.toList c = false) :
    a.Leads rest := by
  obtain ⟨hstart, hslash⟩ := startsPunctuator_all _ h
  obtain ⟨c, more, htext⟩ : ∃ c more, a.text.toList = c :: more := by
    cases ht : a.text.toList with
    | nil => simp [ht, startsPunctuator] at hstart
    | cons c more => exact ⟨c, more, rfl⟩
  simp only [htext, startsPunctuator, Bool.and_eq_true, Bool.not_eq_true', Bool.or_eq_true,
    bne_iff_ne, ne_eq, List.isEmpty_iff, decide_eq_true_eq, List.head?_cons, Option.some.injEq]
    at hstart hslash
  obtain ⟨⟨⟨⟨⟨⟨hname, hdec⟩, hblank⟩, hq⟩, hq'⟩, hdot⟩, hsl⟩ := hstart
  have hfirst : ∀ d ∈ (more ++ rest).head?, (c = '.' → isDecimal d = false) ∧
      (c = '/' → d ≠ '/' ∧ d ≠ '*') := by
    intro d hd
    obtain rfl | hmore := eq_or_ne more []
    · have hext := hr d (by simpa using hd)
      rw [htext, extends_, Bool.or_eq_false_iff, Bool.or_eq_false_iff] at hext
      refine ⟨fun hc => ?_, fun hc => ?_⟩
      · simpa [hc] using hext.1.2
      · simpa [hc] using hext.2
    · refine ⟨fun hc => absurd (hdot.resolve_left fun h => h hc) hmore, fun hc => ?_⟩
      obtain rfl := (hsl.resolve_left fun h => h.elim (fun h => h hc) hmore)
      cases hd
      decide
  refine ⟨by simp [htext], ?_, fun allowed ha => ?_⟩
  · rw [htext, List.cons_append]
    exact Gap.extent?_eq_none hblank fun hc d hd => (hfirst d hd).2 hc
  · rw [first?_of_wordOf_eq_nil]
    · exact findSome?_punctuators h ha.own hr
    · rw [htext, List.cons_append, wordOf_eq_nil _ hname]
    · rw [htext, List.cons_append]
      by_cases hc : c = '/'
      · exact .inr (ha.slash (hslash hc))
      · exact .inl (regex?_eq_none hc)
    · rw [htext, List.cons_append, string?_eq_none hq hq']
    · rw [htext, List.cons_append]
      exact number?_eq_none hdec fun hc d hd => (hfirst d hd).1 hc
    · rw [htext, List.cons_append, name?_eq_none hname]

/-! ## Words -/

namespace Lexeme

open Text

theorem keywords_disjoint : ∀ k ∈ Terminal.keywords, ∀ k' ∈ Terminal.keywords, ∀ w ∈ k.2, w ∈ k'.2 →
    k = k' := by
  decide

end Lexeme

/-- The code points of the blanks in gaps. -/
def Gap.blankCodes : List Nat :=
  List.range' 9 5 ++ List.range' 0x1c 5 ++ [0x85, 0xa0, 0x1680] ++ List.range' 0x2000 11 ++
    [0x2028, 0x2029, 0x202f, 0x205f, 0x3000, 0xfeff]

theorem Gap.toNat_mem_blankCodes {c : Char} (h : isGapBlank c = true) : c.toNat ∈ blankCodes := by
  simp only [isGapBlank, Text.isBlank, Bool.or_eq_true, Bool.and_eq_true, decide_eq_true_eq,
    beq_iff_eq] at h
  simp only [blankCodes, List.mem_append, List.mem_range'_1, List.mem_cons, List.not_mem_nil, or_false]
  obtain h | rfl := h
  · omega
  · decide

theorem Gap.isGapBlank_of_class {p : Char → Bool} {c : Char} (h : p c = true)
    (none : ∀ n ∈ blankCodes, p (Char.ofNat n) = false) : isGapBlank c = false := by
  by_contra hb
  have := none c.toNat (toNat_mem_blankCodes (Bool.of_not_eq_false hb))
  rw [Char.ofNat_toNat, h] at this
  cases this

theorem Gap.isGapBlank_of_isNamePart {c : Char} (h : Text.isNamePart c = true) :
    isGapBlank c = false :=
  isGapBlank_of_class h (by decide +kernel)

theorem Gap.isGapBlank_of_isDecimal {c : Char} (h : Text.isDecimal c = true) :
    isGapBlank c = false :=
  isGapBlank_of_class h (by decide)

theorem Gap.isGapBlank_of_extends {text : List Char} {c : Char}
    (h : Lexeme.extends_ text c = true) : isGapBlank c = false := by
  have solid : (Terminal.punctuators.all fun p => p.2.toList.all fun d => !isGapBlank d) = true := by
    decide
  simp only [List.all_eq_true, Bool.not_eq_true'] at solid
  simp only [Lexeme.extends_, Bool.or_eq_true, List.any_eq_true, Bool.and_eq_true,
    decide_eq_true_eq] at h
  obtain (⟨p, hp, hlong⟩ | ⟨-, hd⟩) | ⟨-, rfl | rfl⟩ := h
  · exact solid p hp c ((List.isPrefixOf_iff_prefix.1 hlong).subset (by simp))
  · exact isGapBlank_of_isDecimal hd
  · decide
  · decide

/-- A name, which may have the spelling of a keyword. -/
def Text.IsName (cs : List Char) : Prop :=
  ∃ c rest, cs = c :: rest ∧ isNameStart c = true ∧ ∀ d ∈ rest, isNamePart d = true

namespace Text.IsName

variable {cs : List Char}

theorem ne_nil (h : IsName cs) : cs ≠ [] := by
  obtain ⟨c, rest, rfl, -⟩ := h
  exact List.cons_ne_nil c rest

theorem isNamePart (h : IsName cs) {c : Char} (hc : c ∈ cs) : Text.isNamePart c = true := by
  obtain ⟨d, rest, rfl, hd, hrest⟩ := h
  obtain rfl | hc := List.mem_cons.1 hc
  · exact Lexeme.isNamePart_of_isNameStart hd
  · exact hrest c hc

theorem extent? (h : IsName cs) (rest : List Char) : Gap.extent? (cs ++ rest) = none := by
  obtain ⟨c, more, rfl, hc, -⟩ := h
  refine Gap.extent?_eq_none ?_ ?_
  · exact Gap.isGapBlank_of_isNamePart (Lexeme.isNamePart_of_isNameStart hc)
  · rintro rfl
    exact absurd hc (by decide)

end Text.IsName

open Lexeme Text

theorem Text.isName_of_all {cs : List Char}
    (h : (cs.head?.any isNameStart && cs.all isNamePart) = true) : IsName cs := by
  obtain _ | ⟨c, rest⟩ := cs
  · cases h
  · simp only [List.head?_cons, Option.any_some, Bool.and_eq_true, List.all_cons,
      List.all_eq_true] at h
    exact ⟨c, rest, rfl, h.1, h.2.2⟩

theorem Token.leads_keyword {a : Token} {words : List String}
    (h : (a.terminal, words) ∈ Terminal.keywords) (ht : a.text ∈ words) {rest : List Char}
    (hr : ∀ c ∈ rest.head?, isNamePart c = false) : a.Leads rest := by
  have hn : IsName a.text.toList := isName_of_all (isName_of_keyword _ h _ ht)
  refine ⟨hn.ne_nil, hn.extent? rest, fun allowed ha => ?_⟩
  rw [first?_eq, wordOf_append (fun c => hn.isNamePart) hr]
  have hkey : keywordOf? allowed a.text.toList = some a.terminal := by
    rw [keywordOf?]
    cases hf : Terminal.keywords.find? fun k =>
        decide (a.text.toList ∈ k.2.map String.toList) && allowed k.1 with
    | none =>
      have := List.find?_eq_none.1 hf _ h
      simp [ha.own] at this
      exact absurd rfl (this _ ht)
    | some k =>
      have hk := List.find?_some hf
      rw [Bool.and_eq_true, decide_eq_true_eq] at hk
      obtain ⟨w, hw, hwt⟩ := List.mem_map.1 hk.1
      rw [String.toList_inj.1 hwt] at hw
      rw [← keywords_disjoint _ h _ (List.mem_of_find?_eq_some hf) _ ht hw]
      rfl
  rw [hkey]

theorem Token.leads_name {a : Token} (ht : a.terminal = .name) (hn : IsName a.text.toList)
    {rest : List Char} (hr : ∀ c ∈ rest.head?, isNamePart c = false) : a.Leads rest := by
  refine ⟨hn.ne_nil, hn.extent? rest, fun allowed ha => ?_⟩
  have hkey : keywordOf? allowed a.text.toList = none := by
    refine keywordOf?_eq_none fun k hk hmem => ha.word ?_ k hk
    obtain ⟨w, hw, hwt⟩ := List.mem_map.1 hmem
    rw [String.toList_inj.1 hwt] at hw
    simp only [spellsKeyword, ht, decide_true, Bool.true_and, List.any_eq_true, decide_eq_true_eq]
    exact ⟨k, hk, hw⟩
  rw [first?_eq, wordOf_append (fun c => hn.isNamePart) hr, hkey]
  obtain ⟨c, more, htext, hc, hmore⟩ := hn
  have hpart := isNamePart_of_isNameStart hc
  have hname : name? (c :: more ++ rest) = some (c :: more).length := by
    rw [List.cons_append, name?, if_pos hc, run, List.takeWhile_append_of_pos hmore]
    cases rest with
    | nil => simp [Nat.add_comm]
    | cons d rest => simp [hr d rfl, Nat.add_comm]
  have hchars : c ≠ '/' ∧ c ≠ '"' ∧ c ≠ '\'' ∧ c ≠ '.' := by
    refine ⟨?_, ?_, ?_, ?_⟩ <;> rintro rfl <;> exact absurd hc (by decide)
  have hdec : isDecimal c = false := by
    rw [isNameStart, Bool.or_eq_true, Bool.and_eq_true] at hc
    obtain ⟨-, hc⟩ | hc := hc
    · simpa using hc
    · rw [beq_iff_eq.1 hc]
      decide
  have hregex : attempt? allowed (c :: more ++ rest) (.regex, regex?) = none :=
    attempt?_of_none (regex?_eq_none hchars.1)
  have hstring : attempt? allowed (c :: more ++ rest) (.string, string?) = none :=
    attempt?_of_none (string?_eq_none hchars.2.1 hchars.2.2.1)
  have hnumber : attempt? allowed (c :: more ++ rest) (.number, number?) = none :=
    attempt?_of_none (number?_eq_none hdec fun h => absurd h hchars.2.2.2)
  have hown : attempt? allowed (c :: more ++ rest) (.name, name?) =
      some (.name, (c :: more).length) :=
    attempt?_of_some hname (ht ▸ ha.own)
  rw [otherReaders, htext, ht]
  simp only [List.cons_append, List.nil_append, List.findSome?_cons] at *
  rw [hregex, hstring, hnumber, hown]

/-! ## Literals -/

theorem Text.isDecimal_of_isDigit {c : Char} (h : c.isDigit = true) : isDecimal c = true := by
  have hlt : c.toNat < 128 := by
    simp only [Char.isDigit, Bool.and_eq_true, decide_eq_true_eq, UInt32.le_iff_toNat_le] at h
    exact Nat.lt_of_le_of_lt h.2 (by decide)
  simp [isDecimal, decimalValue?, hlt, h]

theorem Text.isNamePart_of_isDigit {c : Char} (h : c.isDigit = true) : isNamePart c = true := by
  have hlt : c.toNat < 128 := by
    simp only [Char.isDigit, Bool.and_eq_true, decide_eq_true_eq, UInt32.le_iff_toNat_le] at h
    exact Nat.lt_of_le_of_lt h.2 (by decide)
  simp [isNamePart, isWord, hlt, Char.isAlphanum, h]

theorem Text.isNameStart_of_isDigit {c : Char} (h : c.isDigit = true) : isNameStart c = false := by
  have hc : c ≠ '$' := by rintro rfl; exact absurd h (by decide)
  simp [isNameStart, isDecimal_of_isDigit h, hc]

namespace Lexeme

theorem run_append {p : Char → Bool} {cs rest : List Char} (h : ∀ c ∈ cs, p c = true)
    (hr : ∀ c ∈ rest.head?, p c = false) : run p (cs ++ rest) = cs.length := by
  rw [run, List.takeWhile_append_of_pos h]
  cases rest with
  | nil => simp
  | cons c rest => simp [hr c rfl]

theorem all_of_run {p : Char → Bool} {cs : List Char} (h : run p cs = cs.length) :
    ∀ c ∈ cs, p c = true := by
  rw [← (List.takeWhile_prefix p).eq_of_length h]
  exact fun c hc => List.mem_takeWhile_imp hc

theorem decimal?_digits {cs rest : List Char} (hne : cs ≠ []) (h : ∀ c ∈ cs, c.isDigit = true)
    (hr : ∀ c ∈ rest.head?, isNamePart c = false ∧ isDecimal c = false ∧ c ≠ '.') :
    decimal? (cs ++ rest) = some cs.length := by
  have hrun : run isDecimal (cs ++ rest) = cs.length :=
    run_append (fun c hc => isDecimal_of_isDigit (h c hc)) fun c hc => (hr c hc).2.1
  have hlen : cs.length ≠ 0 := fun h0 => hne (List.length_eq_zero_iff.1 h0)
  have hexp : exponent rest = 0 := by
    unfold exponent
    split
    · rename_i c rest
      have hc := (hr c rfl).1
      rw [if_neg]
      simp only [Bool.or_eq_true, decide_eq_true_eq, not_or]
      constructor <;> rintro rfl <;> exact absurd hc (by decide)
    · rfl
  unfold decimal?
  simp only [hrun, List.drop_left]
  split
  · exact absurd rfl (hr _ rfl).2.2
  · simp [hlen, hexp]

theorem number?_digits {cs rest : List Char} (hne : cs ≠ []) (h : ∀ c ∈ cs, c.isDigit = true)
    (hr : ∀ c ∈ rest.head?, isNamePart c = false ∧ isDecimal c = false ∧ c ≠ '.') :
    number? (cs ++ rest) = some cs.length := by
  rw [← decimal?_digits hne h hr]
  unfold number?
  split
  · rename_i x more heq
    have hx : ¬ (x = 'x' ∨ x = 'X') := by
      obtain ⟨c, cs, rfl⟩ := List.exists_cons_of_ne_nil hne
      rw [List.cons_append, List.cons_eq_cons] at heq
      obtain _ | ⟨d, cs⟩ := cs
      · have hx := (hr x (by rw [List.nil_append] at heq; rw [heq.2]; rfl)).1
        rintro (rfl | rfl) <;> exact absurd hx (by decide)
      · rw [List.cons_append, List.cons_eq_cons] at heq
        obtain ⟨-, rfl, -⟩ := heq
        have hd := h d (by simp)
        rintro (rfl | rfl) <;> exact absurd hd (by decide)
    rw [heq, if_neg]
    simp [hx]
  · rfl

theorem stringRest?_cons {quote c : Char} (hc : c ≠ '\\') (cs : List Char) :
    stringRest? quote (c :: cs) =
      if c = quote then some 1
      else if c = '\\' || c = '\n' || c = '\r' then none
      else (stringRest? quote cs).map (· + 1) := by
  rw [stringRest?]
  · exact fun _ h => absurd h hc
  · exact fun _ _ h => absurd h hc

theorem exists_of_stringRest? {quote : Char} (hq : quote ≠ '\\') {cs : List Char} {n : Nat}
    (h : stringRest? quote cs = some n) :
    ∃ body tail, cs = body ++ quote :: tail ∧ n = body.length + 1 ∧
      ∀ more, stringRest? quote (body ++ quote :: more) = some n := by
  fun_induction stringRest? quote cs generalizing n with
  | case1 => cases h
  | case2 rest ih =>
    obtain ⟨m, hm, rfl⟩ := Option.map_eq_some_iff.1 h
    obtain ⟨body, tail, rfl, rfl, hbody⟩ := ih hm
    exact ⟨'\\' :: '\r' :: '\n' :: body, tail, rfl, rfl, fun more => by simp [stringRest?, hbody]⟩
  | case3 c rest hno ih =>
    obtain ⟨m, hm, rfl⟩ := Option.map_eq_some_iff.1 h
    obtain ⟨body, tail, rfl, rfl, hbody⟩ := ih hm
    refine ⟨'\\' :: c :: body, tail, rfl, rfl, fun more => ?_⟩
    rw [List.cons_append, List.cons_append, stringRest?, hbody]
    · rfl
    · intro rest hc hrest
      obtain _ | ⟨d, body⟩ := body
      · exact hno tail hc (by rw [(List.cons_eq_cons.1 hrest).1]; rfl)
      · exact hno (body ++ quote :: tail) hc (by rw [(List.cons_eq_cons.1 hrest).1]; rfl)
  | case4 rest =>
    cases h
    exact ⟨[], rest, rfl, rfl, fun more => (stringRest?_cons hq more).trans (if_pos rfl)⟩
  | case5 => cases h
  | case6 c rest _ _ hne hend ih =>
    obtain ⟨m, hm, rfl⟩ := Option.map_eq_some_iff.1 h
    obtain ⟨body, tail, rfl, rfl, hbody⟩ := ih hm
    have hc : c ≠ '\\' := by rintro rfl; simp at hend
    refine ⟨c :: body, tail, rfl, rfl, fun more => ?_⟩
    rw [List.cons_append, stringRest?_cons hc, if_neg hne, if_neg hend, hbody]
    rfl

theorem exists_of_string? {cs : List Char} {n : Nat} (h : string? cs = some n) :
    ∃ quote body tail, (quote = '"' ∨ quote = '\'') ∧ cs = quote :: (body ++ quote :: tail) ∧
      n = body.length + 2 ∧ ∀ more, string? (quote :: (body ++ quote :: more)) = some n := by
  unfold string? at h
  split at h
  · obtain ⟨m, hm, rfl⟩ := Option.map_eq_some_iff.1 h
    obtain ⟨body, tail, rfl, rfl, hbody⟩ := exists_of_stringRest? (by decide) hm
    exact ⟨'"', body, tail, .inl rfl, rfl, rfl, fun more => by rw [string?, hbody]; rfl⟩
  · obtain ⟨m, hm, rfl⟩ := Option.map_eq_some_iff.1 h
    obtain ⟨body, tail, rfl, rfl, hbody⟩ := exists_of_stringRest? (by decide) hm
    exact ⟨'\'', body, tail, .inr rfl, rfl, rfl, fun more => by rw [string?, hbody]; rfl⟩
  · cases h

theorem regexRest?_cons {bracket : Bool} {c : Char} (hc : c ≠ '\\') (cs : List Char) :
    regexRest? bracket (c :: cs) =
      if c = '\\' || c = '\n' || c = '\r' then none
      else if bracket then (regexRest? (c != ']') cs).map (· + 1)
      else if c = '/' then some 1
      else (regexRest? (c == '[') cs).map (· + 1) := by
  rw [regexRest?]
  exact fun _ _ h => absurd h hc

theorem exists_of_regexRest? {bracket : Bool} {cs : List Char} {n : Nat}
    (h : regexRest? bracket cs = some n) :
    ∃ body tail, cs = body ++ '/' :: tail ∧ n = body.length + 1 ∧
      ∀ more, regexRest? bracket (body ++ '/' :: more) = some n := by
  fun_induction regexRest? bracket cs generalizing n with
  | case1 => cases h
  | case2 => cases h
  | case3 bracket c rest hc ih =>
    obtain ⟨m, hm, rfl⟩ := Option.map_eq_some_iff.1 h
    obtain ⟨body, tail, rfl, rfl, hbody⟩ := ih hm
    refine ⟨'\\' :: c :: body, tail, rfl, rfl, fun more => ?_⟩
    rw [List.cons_append, List.cons_append, regexRest?, if_neg hc, hbody]
    rfl
  | case4 => cases h
  | case5 c rest hno hend ih =>
    obtain ⟨m, hm, rfl⟩ := Option.map_eq_some_iff.1 h
    obtain ⟨body, tail, rfl, rfl, hbody⟩ := ih hm
    have hc : c ≠ '\\' := by rintro rfl; simp at hend
    refine ⟨c :: body, tail, rfl, rfl, fun more => ?_⟩
    rw [List.cons_append, regexRest?_cons hc, if_neg hend, if_pos rfl, hbody]
    rfl
  | case6 bracket rest hbracket =>
    cases h
    refine ⟨[], rest, rfl, rfl, fun more => ?_⟩
    rw [List.nil_append, regexRest?_cons (by decide), if_neg (by decide), if_neg hbracket, if_pos rfl]
  | case7 bracket c rest hno hend hbracket hslash ih =>
    obtain ⟨m, hm, rfl⟩ := Option.map_eq_some_iff.1 h
    obtain ⟨body, tail, rfl, rfl, hbody⟩ := ih hm
    have hc : c ≠ '\\' := by rintro rfl; simp at hend
    refine ⟨c :: body, tail, rfl, rfl, fun more => ?_⟩
    rw [List.cons_append, regexRest?_cons hc, if_neg hend, if_neg hbracket, if_neg hslash, hbody]
    rfl

theorem exists_of_regex? {cs : List Char} {n : Nat} (h : regex? cs = some n) :
    ∃ c body tail, cs = '/' :: c :: (body ++ '/' :: tail) ∧ (c ≠ '*' ∧ c ≠ '/') ∧
      n = body.length + 3 + run Char.isAlpha tail ∧ ∀ more,
        regex? ('/' :: c :: (body ++ '/' :: more)) = some (body.length + 3 + run Char.isAlpha more) := by
  unfold regex? at h
  split at h
  · rename_i c rest
    split_ifs at h with hc
    obtain ⟨m, hm, rfl⟩ := Option.map_eq_some_iff.1 h
    obtain ⟨body, tail, hrest, rfl, hbody⟩ := exists_of_regexRest? hm
    obtain _ | ⟨d, body⟩ := body
    · simp [(List.cons_eq_cons.1 hrest).1] at hc
    · rw [List.cons_append, List.cons_eq_cons] at hrest
      obtain ⟨rfl, rfl⟩ := hrest
      have hlen : ∀ more, 1 + ((c :: body).length + 1) + run Char.isAlpha
          ((c :: (body ++ '/' :: more)).drop ((c :: body).length + 1)) =
          body.length + 3 + run Char.isAlpha more := fun more => by
        simp only [List.length_cons, List.drop_succ_cons, List.drop_length_add_append, List.drop_zero]
        omega
      refine ⟨c, body, tail, rfl, by simpa using hc, hlen tail, fun more => ?_⟩
      rw [regex?, if_neg hc, show regexRest? false (c :: (body ++ '/' :: more)) = _ from hbody more,
        Option.map_some, hlen]
  · cases h

end Lexeme

theorem Token.leads_number {a : Token} (ht : a.terminal = .number) (hne : a.text.toList ≠ [])
    (hd : ∀ c ∈ a.text.toList, c.isDigit = true) {rest : List Char}
    (hr : ∀ c ∈ rest.head?, isNamePart c = false ∧ isDecimal c = false ∧ c ≠ '.') :
    a.Leads rest := by
  obtain ⟨c, more, htext⟩ := List.exists_cons_of_ne_nil hne
  have hc := hd c (by simp [htext])
  have hslash : c ≠ '/' := by rintro rfl; exact absurd hc (by decide)
  refine ⟨hne, ?_, fun allowed ha => ?_⟩
  · rw [htext, List.cons_append]
    exact Gap.extent?_eq_none (Gap.isGapBlank_of_isNamePart (isNamePart_of_isDigit hc))
      fun h => absurd h hslash
  · have hkey : keywordOf? allowed a.text.toList = none := by
      refine keywordOf?_eq_none fun k hk hmem => ?_
      obtain ⟨w, hw, hwt⟩ := List.mem_map.1 hmem
      have := isName_of_keyword k hk w hw
      rw [hwt, htext] at this
      simp [isNameStart_of_isDigit hc] at this
    rw [first?_eq, wordOf_append (fun d hd' => isNamePart_of_isDigit (hd d hd')) fun d hd' =>
      (hr d hd').1, hkey]
    have hregex : attempt? allowed (c :: more ++ rest) (.regex, regex?) = none :=
      attempt?_of_none (regex?_eq_none hslash)
    have hstring : attempt? allowed (c :: more ++ rest) (.string, string?) = none := by
      refine attempt?_of_none (string?_eq_none ?_ ?_) <;> rintro rfl <;>
        exact absurd hc (by decide)
    have hown : attempt? allowed (a.text.toList ++ rest) (.number, number?) =
        some (.number, a.text.toList.length) :=
      attempt?_of_some (number?_digits hne hd hr) (ht ▸ ha.own)
    rw [otherReaders, ht]
    rw [← htext] at hregex hstring
    simp only [List.cons_append, List.nil_append, List.findSome?_cons, hregex, hstring, hown]

theorem Token.leads_string {a : Token} (ht : a.terminal = .string)
    (hs : string? a.text.toList = some a.text.toList.length) (rest : List Char) :
    a.Leads rest := by
  obtain ⟨quote, body, tail, hq, htext, hlen, hmore⟩ := exists_of_string? hs
  have happend : a.text.toList ++ rest = quote :: (body ++ quote :: (tail ++ rest)) := by
    simp [htext]
  refine ⟨by simp [htext], ?_, fun allowed ha => ?_⟩
  · rw [happend]
    refine Gap.extent?_eq_none ?_ ?_ <;> obtain rfl | rfl := hq <;> first | decide | simp
  · have hword : wordOf (a.text.toList ++ rest) = [] := by
      rw [happend]
      refine wordOf_eq_nil _ ?_
      obtain rfl | rfl := hq <;> decide
    have hregex : attempt? allowed (a.text.toList ++ rest) (.regex, regex?) = none := by
      rw [happend]
      refine attempt?_of_none (regex?_eq_none ?_)
      obtain rfl | rfl := hq <;> decide
    have hown : attempt? allowed (a.text.toList ++ rest) (.string, string?) =
        some (.string, a.text.toList.length) :=
      attempt?_of_some (by rw [happend]; exact hmore _) (ht ▸ ha.own)
    rw [first?_eq, hword, keywordOf?_nil, otherReaders, ht]
    simp only [List.cons_append, List.nil_append, List.findSome?_cons, hregex, hown]

theorem Token.leads_regex {a : Token} (ht : a.terminal = .regex)
    (hs : regex? a.text.toList = some a.text.toList.length) {rest : List Char}
    (hr : ∀ c ∈ rest.head?, c.isAlpha = false) : a.Leads rest := by
  obtain ⟨c, body, flags, htext, hc, hlen, hmore⟩ := exists_of_regex? hs
  have happend : a.text.toList ++ rest = '/' :: c :: (body ++ '/' :: (flags ++ rest)) := by
    simp [htext]
  refine ⟨by simp [htext], ?_, fun allowed ha => ?_⟩
  · rw [happend]
    exact Gap.extent?_eq_none (by decide) fun _ d hd => by cases hd; exact hc.symm
  · have hword : wordOf (a.text.toList ++ rest) = [] := by
      rw [happend, wordOf_eq_nil _ (by decide)]
    have hflags : run Char.isAlpha flags = flags.length := by
      rw [htext] at hlen
      simp only [List.length_cons, List.length_append] at hlen
      omega
    have hregex : regex? (a.text.toList ++ rest) = some a.text.toList.length := by
      rw [happend, hmore, run_append (all_of_run hflags) hr, ← hflags, hlen]
    have hown : attempt? allowed (a.text.toList ++ rest) (.regex, regex?) =
        some (.regex, a.text.toList.length) := attempt?_of_some hregex (ht ▸ ha.own)
    rw [first?_eq, hword, keywordOf?_nil, otherReaders, ht]
    simp only [List.cons_append, List.findSome?_cons, hown]

end Debundle
