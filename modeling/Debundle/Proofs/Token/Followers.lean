import Debundle.Proofs.Automaton.Semicolons
import Debundle.Proofs.Token.Strewn

/-!
# Tokens after a semicolon

A semicolon that is written before a token does not change how the token is found
(`Lexeme.first?_of_followers`), nor where the gap before it ends (`Gap.Fills.of_solid`). Before
later tokens the same line ends are found (`Gap.interchangeable_semicolon`).
-/
namespace Debundle

namespace Lexeme

open Text Automaton

/-- The kinds of tokens that may follow a semicolon, told apart by their first characters. -/
def lead (c : Char) : Nat :=
  if isNameStart c then 0 else if c = '/' then 1 else if c = '"' || c = '\'' then 2
  else if isDecimal c || c = '.' then 3 else 4

theorem lead_of_keyword? {k : Terminal × List String} (hk : k ∈ Terminal.keywords) {c : Char}
    {cs : List Char} (h : keyword? (k.2.map String.toList) (c :: cs) ≠ none) : lead c = 0 := by
  rw [keyword?_eq (isNamePart_of_keyword hk)] at h
  have hmem := (ite_ne_right_iff.1 h).1
  obtain ⟨w, hw, hword⟩ := List.mem_map.1 hmem
  have hstart := isName_of_keyword k hk w hw
  rw [hword, Bool.and_eq_true] at hstart
  by_cases hc : isNamePart c = true
  · rw [wordOf, List.takeWhile_cons_of_pos hc] at hstart
    exact if_pos (by simpa using hstart.1)
  · rw [wordOf, List.takeWhile_cons_of_neg hc] at hstart
    simp at hstart

theorem lead_of_regex? {c : Char} {cs : List Char} (h : regex? (c :: cs) ≠ none) : lead c = 1 := by
  by_cases hc : c = '/'
  · subst hc
    decide
  · exact absurd (regex?_eq_none hc) h

theorem lead_of_string? {c : Char} {cs : List Char} (h : string? (c :: cs) ≠ none) : lead c = 2 := by
  obtain ⟨n, hn⟩ := Option.ne_none_iff_exists'.1 h
  obtain ⟨quote, body, tail, hq, hcs, -⟩ := exists_of_string? hn
  rw [(List.cons_eq_cons.1 hcs).1]
  obtain rfl | rfl := hq <;> decide

theorem lead_of_number? {c : Char} {cs : List Char} (h : number? (c :: cs) ≠ none) : lead c = 3 := by
  by_cases hdot : c = '.'
  · subst hdot
    decide
  · by_cases hc : isDecimal c = true
    · have hmarks : c ≠ '/' ∧ c ≠ '"' ∧ c ≠ '\'' := by
        refine ⟨?_, ?_, ?_⟩ <;> rintro rfl <;> exact absurd hc (by decide)
      simp [lead, isNameStart_eq_false hc, hmarks, hc]
    · exact absurd (number?_eq_none (by simpa using hc) fun h => absurd h hdot) h

theorem lead_of_name? {c : Char} {cs : List Char} (h : name? (c :: cs) ≠ none) : lead c = 0 := by
  rw [name?] at h
  exact if_pos (ite_ne_right_iff.1 h).1

theorem lead_of_punctuator {p : Terminal × String} (hp : p ∈ Terminal.punctuators)
    (hf : p.1 ∈ followers) {c : Char} {cs : List Char} (h : word? p.2.toList (c :: cs) ≠ none) :
    lead c = 4 := by
  have test : ∀ p ∈ Terminal.punctuators, p.1 ∈ followers → p.2.toList.head?.map lead = some 4 := by
    decide
  obtain ⟨n, hn⟩ := Option.ne_none_iff_exists'.1 h
  obtain ⟨⟨rest, hrest⟩, -⟩ := word?_eq_some_iff.1 hn
  have htext := test p hp hf
  cases hp : p.2.toList with
  | nil => simp [hp] at htext
  | cons d text =>
    rw [hp, List.cons_append, List.cons_eq_cons] at hrest
    rw [hp, List.head?_cons, Option.map_some, Option.some.injEq, hrest.1] at htext
    exact htext

theorem pairwise_readers : readers.Pairwise fun r r' => ∀ c cs, r.1 ∈ followers → r'.1 ∈ followers →
    r.2 (c :: cs) ≠ none → r'.2 (c :: cs) ≠ none → r.1 = r'.1 ∨ r.1 ∈ rivals r'.1 := by
  have hpunctuators : Terminal.punctuators.Pairwise fun p q => p.1 ∈ followers → q.1 ∈ followers →
      (p.2.toList <+: q.2.toList ∨ q.2.toList <+: p.2.toList) → p.1 ∈ rivals q.1 := by
    decide
  unfold readers
  rw [List.append_assoc, List.pairwise_append, List.pairwise_append]
  refine ⟨?_, ⟨?_, ?_, ?_⟩, ?_⟩
  · rw [List.pairwise_map]
    refine List.Pairwise.imp_of_mem (R := fun _ _ => True) ?_ (by simp [List.pairwise_of_forall])
    intro k k' hk hk' _ c cs _ _ h h'
    dsimp only at h h'
    rw [keyword?_eq (isNamePart_of_keyword hk)] at h
    rw [keyword?_eq (isNamePart_of_keyword hk')] at h'
    obtain ⟨w, hw, hword⟩ := List.mem_map.1 (ite_ne_right_iff.1 h).1
    obtain ⟨w', hw', hword'⟩ := List.mem_map.1 (ite_ne_right_iff.1 h').1
    rw [← hword', String.toList_inj] at hword
    exact .inl (by rw [keywords_disjoint k hk k' hk' w hw (hword ▸ hw')])
  · simp only [List.pairwise_cons, List.mem_cons, List.not_mem_nil, or_false]
    refine ⟨?_, ?_, ?_, nofun, .nil⟩
    · rintro r (rfl | rfl | rfl) c cs - - h h'
      · exact absurd ((lead_of_regex? h).symm.trans (lead_of_string? h')) (by decide)
      · exact absurd ((lead_of_regex? h).symm.trans (lead_of_number? h')) (by decide)
      · exact absurd ((lead_of_regex? h).symm.trans (lead_of_name? h')) (by decide)
    · rintro r (rfl | rfl) c cs - - h h'
      · exact absurd ((lead_of_string? h).symm.trans (lead_of_number? h')) (by decide)
      · exact absurd ((lead_of_string? h).symm.trans (lead_of_name? h')) (by decide)
    · rintro r rfl c cs - - h h'
      exact absurd ((lead_of_number? h).symm.trans (lead_of_name? h')) (by decide)
  · rw [List.pairwise_map]
    refine hpunctuators.imp ?_
    intro p q h c cs hp hq hmatch hmatch'
    obtain ⟨n, hn⟩ := Option.ne_none_iff_exists'.1 hmatch
    obtain ⟨n', hn'⟩ := Option.ne_none_iff_exists'.1 hmatch'
    have hpre := (word?_eq_some_iff.1 hn).1
    have hpre' := (word?_eq_some_iff.1 hn').1
    exact .inr (h hp hq (List.prefix_or_prefix_of_prefix hpre hpre'))
  · intro r hr r' hr' c cs _ hf h h'
    obtain ⟨p, hp, rfl⟩ := List.mem_map.1 hr'
    have hlead := lead_of_punctuator hp hf h'
    simp only [List.mem_cons, List.not_mem_nil, or_false] at hr
    obtain rfl | rfl | rfl | rfl := hr
    · exact absurd ((lead_of_regex? h).symm.trans hlead) (by decide)
    · exact absurd ((lead_of_string? h).symm.trans hlead) (by decide)
    · exact absurd ((lead_of_number? h).symm.trans hlead) (by decide)
    · exact absurd ((lead_of_name? h).symm.trans hlead) (by decide)
  · intro r hr r' hr' c cs _ hf h h'
    obtain ⟨k, hk, rfl⟩ := List.mem_map.1 hr
    have hlead := lead_of_keyword? hk h
    obtain hr' | hr' := List.mem_append.1 hr'
    · simp only [List.mem_cons, List.not_mem_nil, or_false] at hr'
      obtain rfl | rfl | rfl | rfl := hr'
      · exact absurd (hlead.symm.trans (lead_of_regex? h')) (by decide)
      · exact absurd (hlead.symm.trans (lead_of_string? h')) (by decide)
      · exact absurd (hlead.symm.trans (lead_of_number? h')) (by decide)
      · exact .inr (List.mem_map_of_mem hk)
    · obtain ⟨p, hp, rfl⟩ := List.mem_map.1 hr'
      exact absurd (hlead.symm.trans (lead_of_punctuator hp hf h')) (by decide)

/-- A token that was found among some classes is found among others that may follow a semicolon,
unless one of its rivals comes in. -/
theorem first?_of_followers {allowed allowed' : Terminal → Bool} {cs : List Char} {t : Terminal}
    {n : Nat} (h : first? allowed cs = some (t, n)) (ht : allowed' t = true)
    (hfollow : ∀ x, allowed' x = true → x ∈ followers)
    (hrivals : ∀ x ∈ rivals t, allowed' x = true → allowed x = true) :
    first? allowed' cs = some (t, n) := by
  obtain ⟨before, f, after, hsplit, hf, hallowed, hbefore⟩ := first?_eq_some_iff.1 h
  refine first?_eq_some_iff.2 ⟨before, f, after, hsplit, hf, ht, fun r hr hr' => ?_⟩
  by_contra hsome
  have hpairs := pairwise_readers
  rw [hsplit, List.pairwise_append] at hpairs
  obtain ⟨c, cs, rfl⟩ : ∃ c cs', cs = c :: cs' := by
    obtain ⟨u, c, tail, rfl, -⟩ := split_of_first? h
    exact List.exists_cons_of_ne_nil (by simp)
  obtain heq | hrival := hpairs.2.2 r hr (t, f) List.mem_cons_self c cs (hfollow _ hr')
    (hfollow t ht) hsome (by simp [hf])
  · exact hsome (hbefore r hr (heq ▸ hallowed))
  · exact hsome (hbefore r hr (hrivals _ hrival hr'))

/-- A token that may follow a semicolon does not begin with a star, and with a slash only if it is a
regular expression. -/
theorem head_of_followers {allowed : Terminal → Bool} {u more : List Char} {t : Terminal}
    (h : first? allowed (u ++ more) = some (t, u.length)) (ht : t ∈ followers) :
    ∃ x text, u = x :: text ∧ x ≠ '*' ∧ (x = '/' → t = .regex ∧ ∃ c ∈ text.head?, c ≠ '*') := by
  obtain _ | ⟨x, text⟩ := u
  · obtain ⟨v, c, tail, -, hlen, -⟩ := split_of_first? h
    simp at hlen
  refine ⟨x, text, rfl, ?_, ?_⟩
  · rintro rfl
    obtain rfl | rfl := eq_star_of_first? h
    · exact absurd ht (by decide)
    · exact absurd ht (by decide)
  · rintro rfl
    obtain ⟨rfl, -, hr⟩ | ⟨-, hq, -⟩ | ⟨mark, tail, hp, hmark, -, -⟩ :=
      mark_cases h (by decide) (by decide) (by decide)
    · refine ⟨rfl, ?_⟩
      have htwo := two_le_of_regex? hr
      obtain _ | ⟨c, text⟩ := text
      · simp at htwo
      · refine ⟨c, rfl, ?_⟩
        rintro rfl
        simp [regex?] at hr
    · exact absurd hq (by decide)
    · have test : ∀ p ∈ Terminal.punctuators, p.2.toList.head? = some '/' → p.1 ∉ followers := by
        decide
      exact absurd ht (test _ hp (by rw [hmark]; rfl))

/-! ## Names that spell keywords -/

theorem IsReader.eq_name? {f : List Char → Option Nat} (h : IsReader .name f) : f = name? := by
  have hkeys : ∀ k ∈ Terminal.keywords, k.1 ≠ .name := by decide
  have hmarks : ∀ p ∈ Terminal.punctuators, p.1 ≠ .name := by decide
  generalize ht : Terminal.name = t at h
  cases h with
  | keyword mem => exact absurd ht.symm (hkeys _ mem)
  | punctuator mem => exact absurd ht.symm (hmarks _ mem)
  | name => rfl
  | _ => cases ht

theorem length_of_name {allowed : Terminal → Bool} {cs : List Char} {n : Nat}
    (h : first? allowed cs = some (.name, n)) : n = (wordOf cs).length := by
  obtain ⟨-, f, hr, hf⟩ := exists_reader h
  obtain rfl := hr.eq_name?
  cases cs with
  | nil => cases hf
  | cons c cs =>
    rw [name?] at hf
    split_ifs at hf with hc
    cases hf
    rw [wordOf, List.takeWhile_cons_of_pos (isNamePart_of_isNameStart hc), List.length_cons, run,
      Nat.add_comm]

/-- A name, read again after a semicolon, is the keyword that it spells, if that is allowed. -/
theorem first?_of_name {allowed allowed' : Terminal → Bool} {cs : List Char} {n : Nat}
    (h : first? allowed cs = some (.name, n)) (hfollow : ∀ x, allowed' x = true → x ∈ followers)
    (hname : allowed' ((keywordOf? allowed' (wordOf cs)).getD .name) = true) :
    first? allowed' cs = some ((keywordOf? allowed' (wordOf cs)).getD .name, n) := by
  cases hk : keywordOf? allowed' (wordOf cs) with
  | some t => rw [first?_eq, hk, length_of_name h, Option.getD_some]
  | none =>
    rw [hk] at hname
    have hothers : ∀ r ∈ otherReaders, r.1 ∉ rivals .name := by
      have hmarks : ∀ p ∈ Terminal.punctuators, p.1 ∉ rivals .name := by decide
      intro r hr
      simp only [otherReaders, List.mem_append, List.mem_cons, List.not_mem_nil, or_false,
        List.mem_map] at hr
      obtain (rfl | rfl | rfl | rfl) | ⟨p, hp, rfl⟩ := hr
      · decide
      · decide
      · decide
      · decide
      · exact hmarks p hp
    -- no keyword that is allowed is found here, so keywords may as well be left out
    have hsame : first? allowed' cs = first? (fun x => allowed' x && decide (x ∉ rivals .name)) cs := by
      refine first?_congr fun r hr hsome => ?_
      have hr : r ∈ Terminal.keywords.map (fun k => (k.1, keyword? (k.2.map String.toList))) ++
          otherReaders := by rwa [readers, List.append_assoc] at hr
      obtain hr | hr := List.mem_append.1 hr
      · obtain ⟨k, hkey, rfl⟩ := List.mem_map.1 hr
        dsimp only at hsome ⊢
        rw [keyword?_eq (isNamePart_of_keyword hkey)] at hsome
        have hmem := (ite_ne_right_iff.1 hsome).1
        rw [keywordOf?, Option.map_eq_none_iff, List.find?_eq_none] at hk
        have hnot := hk k hkey
        simp only [decide_eq_true hmem, Bool.true_and, Bool.not_eq_true] at hnot
        rw [hnot, Bool.false_and]
      · rw [decide_eq_true (hothers r hr), Bool.and_true]
    rw [hsame]
    refine first?_of_followers h ?_ (fun x hx => hfollow x (Bool.and_eq_true _ _ ▸ hx).1)
      fun x hx hx' => ?_
    · rw [Option.getD_none] at hname
      rw [Option.getD_none, hname, Bool.true_and]
      decide
    · rw [Bool.and_eq_true, decide_eq_true_eq] at hx'
      exact absurd hx hx'.2

theorem isUpdate_of_take {allowed : Terminal → Bool} {cs : List Char} {t : Terminal} {n : Nat}
    (h : first? allowed cs = some (t, n)) (ht : cs.take n = ['+', '+'] ∨ cs.take n = ['-', '-']) :
    isUpdate t = true := by
  have test : ∀ p ∈ Terminal.punctuators, p.2.toList = ['+', '+'] ∨ p.2.toList = ['-', '-'] →
      isUpdate p.1 = true := by decide
  obtain ⟨c, rest, rfl, hc⟩ : ∃ c rest, cs = c :: rest ∧ (c = '+' ∨ c = '-') := by
    obtain _ | ⟨c, rest⟩ := cs
    · simp at ht
    · obtain _ | n := n
      · simp at ht
      · simp only [List.take_succ_cons, List.cons_eq_cons] at ht
        exact ⟨c, rest, rfl, ht.imp (·.1) (·.1)⟩
  have hmark : isNamePart c = false ∧ isDecimal c = false ∧ c ≠ '.' ∧ c ≠ '/' ∧
      ¬ (c = '"' ∨ c = '\'') := by
    obtain rfl | rfl := hc <;> decide
  obtain ⟨-, hslash, -⟩ | ⟨-, hq, -⟩ | ⟨text, tail, hp, htext, hpre, rfl⟩ :=
    mark_cases h hmark.1 hmark.2.1 hmark.2.2.1
  · exact absurd hslash hmark.2.2.2.1
  · exact absurd hq hmark.2.2.2.2
  · have htake : (c :: rest).take text.toList.length = text.toList := by
      rw [htext, List.length_cons, List.take_succ_cons, ← List.prefix_iff_eq_take.1 hpre]
    exact test _ hp (htake ▸ ht)

theorem first?_semicolon {allowed : Terminal → Bool} (rest : List Char)
    (h : allowed .semicolon = true) : first? allowed (';' :: rest) = some (.semicolon, 1) := by
  have hleads : (⟨.semicolon, ";", 0, 0, 0, false⟩ : Token).Leads rest := by
    refine Token.leads_punctuator (by decide) fun c _ => ?_
    have test : ∀ p ∈ Terminal.punctuators, ¬ ';' :: [c] <+: p.2.toList := by
      simp [Terminal.punctuators]
    simpa [extends_] using fun t text => test (t, text)
  exact hleads.first allowed ⟨h, fun h => absurd h (by decide), fun h => absurd h (by decide)⟩

end Lexeme

namespace Gap

open Text

variable {gap rest rest' : List Char}

/-! ## Gaps -/

theorem takeWhile_append_of_head {p : Char → Bool} {xs ys : List Char}
    (hxs : ∀ c ∈ xs, p c = true) (hys : ∀ c ∈ ys.head?, p c = false) :
    (xs ++ ys).takeWhile p = xs := by
  rw [List.takeWhile_append_of_pos hxs]
  cases ys with
  | nil => simp
  | cons c ys => rw [List.takeWhile_cons_of_neg (by simp [hys c rfl]), List.append_nil]

theorem isGapBlank_head (hn : extent? rest = none) : ∀ c ∈ rest.head?, isGapBlank c = false := by
  intro c hc
  obtain ⟨cs, rfl⟩ := List.head?_eq_some_iff.1 hc
  by_contra hb
  rw [extent?_blank (Bool.of_not_eq_false hb)] at hn
  cases hn

theorem Fills.of_solid (h : Fills gap rest) (hne : rest ≠ []) (hn : extent? rest = none)
    (hn' : extent? rest' = none) : Fills gap rest' := by
  induction h with
  | nil => exact .nil rest'
  | @cons piece gap rest extent tail ih =>
    refine .cons ?_ (ih hne hn)
    obtain ⟨body, rfl, hno⟩ | ⟨body, rfl, hbody, hhead⟩ | ⟨c, body, rfl, hblank, hhead⟩ :=
      piece_cases extent
    · rw [List.cons_append, List.cons_append, extent?_block, Option.map_eq_some_iff]
      exact ⟨body.length + 2, blockEnd_eq_some_iff.2 ⟨body, gap ++ rest', by simp, rfl, hno⟩,
        by simp⟩
    · -- a line end follows, so the gap goes on
      obtain _ | ⟨g, gap⟩ := gap
      · exact absurd hhead (not_isLineEnd_head hn hne)
      · have hline : isLineEnd g = true := hhead g rfl
        rw [List.cons_append, List.cons_append, extent?_line,
          takeWhile_append_of_head (fun c hc => by simp [hbody c hc]) (by simp [hline])]
        rw [List.length_cons, List.length_cons, Nat.add_comm]
    · have hhead' : ∀ d ∈ (gap ++ rest').head?, isGapBlank d = false := by
        obtain _ | ⟨g, gap⟩ := gap
        · exact isGapBlank_head hn'
        · exact hhead
      rw [List.cons_append, extent?_blank (hblank c List.mem_cons_self),
        takeWhile_append_of_head (fun d hd => hblank d (List.mem_cons_of_mem c hd)) hhead']
      simp [Nat.add_comm]

theorem extent?_strewn {allowed : Terminal → Bool} {t : Terminal} {fresh : Bool}
    {u xs ys : List Char} (hs : Strewn fresh xs ys)
    (hopen : u = ['/'] → ∀ c ∈ xs.head?, c ≠ '*' ∧ c ≠ '/')
    (h : Lexeme.first? allowed (u ++ xs) = some (t, u.length)) (hn : extent? (u ++ xs) = none) :
    extent? (u ++ ys) = none := by
  obtain _ | ⟨c, u⟩ := u
  · obtain ⟨v, c, tail, -, hlen, -⟩ := Lexeme.split_of_first? h
    simp at hlen
  refine extent?_eq_none (isGapBlank_head hn c rfl) ?_
  rintro rfl d hd
  obtain _ | ⟨e, u⟩ := u
  · exact (hs.head_of_all (p := fun c => c ≠ '*' ∧ c ≠ '/') (by decide) (hopen rfl) d hd).symm
  · cases hd
    refine ⟨?_, ?_⟩
    · rintro rfl
      rw [List.cons_append, List.cons_append, extent?_line] at hn
      cases hn
    · rintro rfl
      have hone := (Lexeme.eq_slash_of_first? h).2
      simp at hone

/-! ## Line ends -/

/-- Two texts, read backwards, that may stand for each other when line ends are looked for. -/
def Interchangeable (before before' : List Char) : Prop :=
  ∀ inside after, lineEndBehind inside (after ++ before) = lineEndBehind inside (after ++ before')

theorem Interchangeable.append {before before' : List Char} (h : Interchangeable before before')
    (text : List Char) : Interchangeable (text ++ before) (text ++ before') := by
  intro inside after
  rw [← List.append_assoc, ← List.append_assoc]
  exact h inside (after ++ text)

theorem lineEndBehind_semicolon {x : Char} {before after : List Char} (inside : Option Bool)
    (hstar : x ≠ '*') (hpassed : isPassed x = false)
    (hslash : x = '/' → before.head? ≠ some '*' ∧ after.getLast? ≠ some '*') :
    lineEndBehind inside (after ++ x :: before) =
      lineEndBehind inside (after ++ x :: ';' :: before) := by
  induction hlen : after.length using Nat.strongRecOn generalizing after inside with
  | _ n ih =>
    subst hlen
    obtain _ | ⟨c, after⟩ := after
    · rw [List.nil_append, List.nil_append]
      cases inside with
      | none =>
        rw [lineEndBehind_cons, lineEndBehind_cons, hpassed, Bool.false_and, Bool.false_and]
        · simp
        · rintro more ⟨⟩
          exact (hslash rfl).1 rfl
      | some seen =>
        rw [lineEndBehind_inside_cons _ (by simp [hstar]), lineEndBehind_inside_cons _ (by simp [hstar]),
          lineEndBehind_inside_cons _ (by simp)]
        simp [isLineEnd]
    · have hlast : ∀ {w v : List Char}, w ++ v = c :: after → v.getLast? = some '*' →
          (c :: after).getLast? = some '*' := by
        intro w v h hv
        rw [← h, List.getLast?_append, hv]
        rfl
      cases inside with
      | none =>
        by_cases hmark : ∃ more, c :: after = '/' :: '*' :: more
        · obtain ⟨more, hmore⟩ := hmark
          rw [hmore, List.cons_append, List.cons_append, List.cons_append, List.cons_append,
            lineEndBehind_mark, lineEndBehind_mark]
          refine ih more.length (by rw [hmore, List.length_cons, List.length_cons]; omega) _ (fun hx => ⟨(hslash hx).1, fun h => ?_⟩) rfl
          exact (hslash hx).2 (hlast (w := ['/', '*']) hmore.symm h)
        · have hno : ∀ before more, c :: (after ++ x :: before) ≠ '/' :: '*' :: more := by
            rintro before more h
            rw [List.cons_eq_cons] at h
            obtain ⟨rfl, h⟩ := h
            obtain _ | ⟨d, after⟩ := after
            · exact hstar (List.cons_eq_cons.1 h).1
            · rw [List.cons_append, List.cons_eq_cons] at h
              exact hmark ⟨after, by rw [h.1]⟩
          rw [List.cons_append, List.cons_append, lineEndBehind_cons (hno _),
            lineEndBehind_cons (hno _)]
          rw [ih after.length (by simp) none (fun hx => ⟨(hslash hx).1, fun h => ?_⟩) rfl]
          exact (hslash hx).2 (hlast (w := [c]) rfl h)
      | some seen =>
        by_cases hmark : ∃ more, c :: after = '*' :: '/' :: more
        · obtain ⟨more, hmore⟩ := hmark
          rw [hmore, List.cons_append, List.cons_append, List.cons_append, List.cons_append,
            lineEndBehind_inside_mark, lineEndBehind_inside_mark]
          rw [ih more.length (by rw [hmore, List.length_cons, List.length_cons]; omega) none
            (fun hx => ⟨(hslash hx).1, fun h => ?_⟩) rfl]
          exact (hslash hx).2 (hlast (w := ['*', '/']) hmore.symm h)
        · have hno : ∀ before more, c :: (after ++ x :: before) ≠ '*' :: '/' :: more := by
            rintro before more h
            rw [List.cons_eq_cons] at h
            obtain ⟨rfl, h⟩ := h
            obtain _ | ⟨d, after⟩ := after
            · exact (hslash (List.cons_eq_cons.1 h).1).2 rfl
            · rw [List.cons_append, List.cons_eq_cons] at h
              exact hmark ⟨after, by rw [h.1]⟩
          rw [List.cons_append, List.cons_append, lineEndBehind_inside_cons _ (hno _),
            lineEndBehind_inside_cons _ (hno _)]
          refine ih after.length (by simp) _ (fun hx => ⟨(hslash hx).1, fun h => ?_⟩) rfl
          exact (hslash hx).2 (hlast (w := [c]) rfl h)

/-- A semicolon that stands before a token changes nothing for later tokens. -/
theorem interchangeable_semicolon {x : Char} {text before : List Char} (hstar : x ≠ '*')
    (hpassed : isPassed x = false)
    (hslash : x = '/' → before.head? ≠ some '*' ∧ ∃ c ∈ text.head?, c ≠ '*') :
    Interchangeable ((x :: text).reverse ++ before) ((x :: text).reverse ++ ';' :: before) := by
  intro inside after
  have := @lineEndBehind_semicolon x before (after ++ text.reverse) inside hstar
    hpassed fun hx => ⟨(hslash hx).1, ?_⟩
  · simpa using this
  · obtain ⟨c, hc, hne⟩ := (hslash hx).2
    rw [List.getLast?_append, List.getLast?_reverse, Option.mem_def.1 hc]
    simpa using hne

end Gap

end Debundle
