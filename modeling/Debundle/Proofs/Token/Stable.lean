import Debundle.Proofs.Token.Leads

/-!
# The ends of tokens

No token ends with a backslash, and none but one with a star (`endsAt_of_first?`). What begins with
a mark is a regular expression, a string or a punctuator (`mark_cases`).
-/
namespace Debundle

namespace Lexeme

open Text

variable {allowed : Terminal → Bool} {cs more : List Char} {n : Nat}

/-- The length of a sign at the start of a text. -/
def signLength (cs : List Char) : Nat :=
  if cs.head? = some '+' ∨ cs.head? = some '-' then 1 else 0

theorem exponent_cons (e : Char) (rest : List Char) : exponent (e :: rest) =
    if e = 'e' ∨ e = 'E' then
      if run isDecimal (rest.drop (signLength rest)) = 0 then 0
      else 1 + signLength rest + run isDecimal (rest.drop (signLength rest))
    else 0 := by
  unfold exponent signLength
  simp only [Bool.or_eq_true, decide_eq_true_eq]
  obtain _ | ⟨c, rest⟩ := rest
  · rfl
  · obtain rfl | hplus := eq_or_ne c '+'
    · rfl
    · obtain rfl | hminus := eq_or_ne c '-'
      · rfl
      · simp [hplus, hminus]

/-- The length of a point and the digits after it. -/
def fractionLength (cs : List Char) : Nat :=
  if cs.head? = some '.' then 1 + run isDecimal cs.tail else 0

theorem decimal?_eq (cs : List Char) : decimal? cs =
    let whole := run isDecimal cs
    let part := fractionLength (cs.drop whole)
    if whole = 0 ∧ part ≤ 1 then none
    else some (whole + part + exponent (cs.drop (whole + part))) := by
  unfold decimal?
  simp only [Bool.and_eq_true, decide_eq_true_eq]
  split
  · rename_i rest h
    simp [fractionLength, h]
  · rename_i hdot
    have hpart : fractionLength (cs.drop (run isDecimal cs)) = 0 := by
      refine if_neg fun h => ?_
      obtain ⟨rest, hrest⟩ := List.head?_eq_some_iff.1 h
      exact hdot rest hrest
    rw [hpart]

theorem number?_eq (cs : List Char) : number? cs =
    if cs.head? = some '0' ∧ (cs.tail.head? = some 'x' ∨ cs.tail.head? = some 'X') ∧
        run (fun c => (hexValue? c).isSome) (cs.drop 2) ≠ 0 then
      some (2 + run (fun c => (hexValue? c).isSome) (cs.drop 2))
    else decimal? cs := by
  unfold number?
  split
  · rename_i x rest
    simp only [List.head?_cons, List.tail_cons, Option.some.injEq, List.drop_succ_cons,
      List.drop_zero, true_and, Bool.and_eq_true, Bool.or_eq_true, decide_eq_true_eq]
  · rename_i hno
    rw [if_neg]
    rintro ⟨h0, hx, -⟩
    obtain ⟨rest, rfl⟩ := List.head?_eq_some_iff.1 h0
    obtain _ | ⟨x, rest⟩ := rest
    · simp at hx
    · exact hno x rest rfl

/-- No string was left open at the start of a text. -/
def Closed (cs : List Char) : Prop :=
  cs.head? = some '"' ∨ cs.head? = some '\'' → (string? cs).isSome = true

theorem findSome?_congr {allowed' : Terminal → Bool} {ds : List Char}
    {rs : List (Terminal × (List Char → Option Nat))}
    (h : ∀ r ∈ rs, attempt? allowed cs r = attempt? allowed' ds r) :
    rs.findSome? (attempt? allowed cs) = rs.findSome? (attempt? allowed' ds) := by
  induction rs with
  | nil => rfl
  | cons r rs ih =>
    rw [List.findSome?_cons, List.findSome?_cons, h r List.mem_cons_self,
      ih fun r hr => h r (List.mem_cons_of_mem _ hr)]

/-! ## Where lexemes end -/

/-- The last of the first `n` characters of a text. -/
def EndsAt (cs : List Char) (n : Nat) (good : Char → Prop) : Prop :=
  ∃ k c, n = k + 1 ∧ cs[k]? = some c ∧ good c

theorem EndsAt.imp {good good' : Char → Prop} (h : EndsAt cs n good)
    (himp : ∀ c, good c → good' c) : EndsAt cs n good' := by
  obtain ⟨k, c, hn, hc, hgood⟩ := h
  exact ⟨k, c, hn, hc, himp c hgood⟩

theorem EndsAt.of_drop {good : Char → Prop} {m : Nat} (h : EndsAt (cs.drop m) n good) :
    EndsAt cs (m + n) good := by
  obtain ⟨k, c, rfl, hc, hgood⟩ := h
  exact ⟨m + k, c, rfl, by rwa [List.getElem?_drop] at hc, hgood⟩

theorem EndsAt.cons {good : Char → Prop} {c : Char} (h : EndsAt cs n good) :
    EndsAt (c :: cs) (n + 1) good := by
  obtain ⟨k, d, rfl, hd, hgood⟩ := h
  exact ⟨k + 1, d, rfl, hd, hgood⟩

theorem endsAt_run {p : Char → Bool} (h : run p cs ≠ 0) : EndsAt cs (run p cs) (p · = true) := by
  obtain ⟨k, hk⟩ := Nat.exists_eq_succ_of_ne_zero h
  have hlt : k < (cs.takeWhile p).length := by
    rw [run] at hk
    omega
  refine ⟨k, (cs.takeWhile p)[k], hk, ?_, List.mem_takeWhile_imp (List.getElem_mem hlt)⟩
  rw [(List.takeWhile_prefix p).getElem hlt, List.getElem?_eq_getElem]

theorem endsAt_append {good : Char → Prop} (u tail : List Char) {c : Char} (h : good c) :
    EndsAt (u ++ c :: tail) (u.length + 1) good :=
  ⟨u.length, c, rfl, by simp, h⟩

/-- A character that is neither a star nor a backslash. -/
def IsPlain (c : Char) : Prop :=
  c ≠ '*' ∧ c ≠ '\\'

instance (c : Char) : Decidable (IsPlain c) :=
  inferInstanceAs (Decidable (_ ∧ _))

theorem isPlain_of_class {p : Char → Bool} {c : Char} (h : p c = true)
    (hp : (p '*' || p '\\') = false) : IsPlain c := by
  constructor <;> rintro rfl <;> simp [h] at hp

theorem isPlain_of_isNamePart {c : Char} (h : isNamePart c = true) : IsPlain c :=
  isPlain_of_class h (by decide)

theorem isPlain_of_isDecimal {c : Char} (h : isDecimal c = true) : IsPlain c :=
  isPlain_of_class h (by decide)

theorem endsAt_exponent (h : exponent cs ≠ 0) : EndsAt cs (exponent cs) IsPlain := by
  obtain _ | ⟨e, rest⟩ := cs
  · exact absurd rfl h
  · rw [exponent_cons] at h ⊢
    split_ifs at h ⊢ with he hdigits
    · exact absurd rfl h
    · rw [Nat.add_assoc, Nat.add_comm]
      exact (endsAt_run hdigits).of_drop.cons.imp fun _ => isPlain_of_isDecimal
    · exact absurd rfl h

theorem endsAt_fraction (h : fractionLength cs ≠ 0) : EndsAt cs (fractionLength cs) IsPlain := by
  obtain _ | ⟨c, rest⟩ := cs
  · exact absurd rfl h
  · rw [fractionLength] at h ⊢
    split_ifs at h ⊢ with hc
    · rw [List.tail_cons, Nat.add_comm]
      by_cases hdigits : run isDecimal rest = 0
      · rw [hdigits]
        exact ⟨0, c, rfl, rfl, by cases hc; decide⟩
      · exact (endsAt_run hdigits).cons.imp fun _ => isPlain_of_isDecimal
    · exact absurd rfl h

theorem endsAt_decimal? (h : decimal? cs = some n) : EndsAt cs n IsPlain := by
  rw [decimal?_eq] at h
  dsimp only at h
  split_ifs at h with hnone
  cases h
  by_cases hexp : exponent (cs.drop (run isDecimal cs + fractionLength (cs.drop (run isDecimal cs)))) = 0
  · rw [hexp, Nat.add_zero]
    by_cases hpart : fractionLength (cs.drop (run isDecimal cs)) = 0
    · rw [hpart, Nat.add_zero]
      exact (endsAt_run fun h0 => hnone ⟨h0, by omega⟩).imp fun _ => isPlain_of_isDecimal
    · exact (endsAt_fraction hpart).of_drop
  · exact (endsAt_exponent hexp).of_drop

theorem endsAt_number? (h : number? cs = some n) : EndsAt cs n IsPlain := by
  rw [number?_eq] at h
  split_ifs at h with hhex
  · cases h
    exact (endsAt_run hhex.2.2).of_drop.imp fun _ hc =>
      isPlain_of_class (p := fun c => (hexValue? c).isSome) hc (by decide)
  · exact endsAt_decimal? h

theorem endsAt_name? (h : name? cs = some n) : EndsAt cs n IsPlain := by
  obtain _ | ⟨c, rest⟩ := cs
  · cases h
  · rw [name?] at h
    split_ifs at h with hc
    cases h
    rw [Nat.add_comm]
    by_cases hrun : run isNamePart rest = 0
    · rw [hrun]
      exact ⟨0, c, rfl, rfl, isPlain_of_isNamePart (isNamePart_of_isNameStart hc)⟩
    · exact (endsAt_run hrun).cons.imp fun _ => isPlain_of_isNamePart

theorem endsAt_string? (h : string? cs = some n) : EndsAt cs n IsPlain := by
  obtain ⟨quote, body, tail, hq, rfl, rfl, -⟩ := exists_of_string? h
  exact (endsAt_append body tail (by obtain rfl | rfl := hq <;> decide)).cons

theorem endsAt_regex? (h : regex? cs = some n) : EndsAt cs n IsPlain := by
  obtain ⟨c, body, tail, rfl, -, rfl, -⟩ := exists_of_regex? h
  by_cases hrun : run Char.isAlpha tail = 0
  · rw [hrun]
    exact (endsAt_append body tail (by decide)).cons.cons
  · refine EndsAt.of_drop ?_
    rw [show ('/' :: c :: (body ++ '/' :: tail)).drop (body.length + 3) = tail by simp]
    exact (endsAt_run hrun).imp fun _ h => isPlain_of_class h (by decide)

theorem two_le_of_regex? (h : regex? cs = some n) : 2 ≤ n := by
  obtain ⟨c, body, tail, -, -, rfl, -⟩ := exists_of_regex? h
  omega

/-- The last character of a token is no backslash, and it is a star only in the token that is one. -/
def EndsToken (t : Terminal) (c : Char) : Prop :=
  (c = '*' → t = .star) ∧ c ≠ '\\'

instance (t : Terminal) (c : Char) : Decidable (EndsToken t c) :=
  inferInstanceAs (Decidable (_ ∧ _))

theorem IsPlain.endsToken {c : Char} (h : IsPlain c) (t : Terminal) : EndsToken t c :=
  ⟨fun hc => absurd hc h.1, h.2⟩

theorem endsToken_punctuator : ∀ p ∈ Terminal.punctuators,
    ∃ c ∈ p.2.toList.getLast?, EndsToken p.1 c := by
  have hall : Terminal.punctuators.all (fun p => p.2.toList.getLast?.any fun c =>
      decide (EndsToken p.1 c)) = true := by
    decide
  intro p hp
  obtain ⟨c, hc, hends⟩ := (Option.any_eq_true _ _).1 (List.all_eq_true.1 hall p hp)
  exact ⟨c, hc, of_decide_eq_true hends⟩

theorem exists_reader {t : Terminal} (h : first? allowed cs = some (t, n)) :
    allowed t = true ∧ ∃ f, IsReader t f ∧ f cs = some n := by
  obtain ⟨⟨u, f⟩, hr, ha⟩ := List.exists_of_findSome?_eq_some h
  unfold attempt? at ha
  split at ha
  · rename_i m hm
    split_ifs at ha with hu
    cases ha
    exact ⟨hu, f, isReader_of_mem hr, hm⟩
  · cases ha

theorem endsAt_of_first? {t : Terminal} (h : first? allowed cs = some (t, n)) :
    EndsAt cs n (EndsToken t) := by
  obtain ⟨-, f, hr, hf⟩ := exists_reader h
  cases hr with
  | @keyword k hk =>
    rw [keyword?_eq (isNamePart_of_keyword hk)] at hf
    split_ifs at hf with hmem
    cases hf
    have hne : run isNamePart cs ≠ 0 := by
      intro h0
      rw [wordOf, List.length_eq_zero_iff.1 h0] at hmem
      obtain ⟨w, hw, hnil⟩ := List.mem_map.1 hmem
      have := isName_of_keyword k hk w hw
      rw [hnil] at this
      cases this
    exact (endsAt_run hne).imp fun _ hc => (isPlain_of_isNamePart hc).endsToken _
  | regex => exact (endsAt_regex? hf).imp fun _ hc => hc.endsToken _
  | string => exact (endsAt_string? hf).imp fun _ hc => hc.endsToken _
  | number => exact (endsAt_number? hf).imp fun _ hc => hc.endsToken _
  | name => exact (endsAt_name? hf).imp fun _ hc => hc.endsToken _
  | @punctuator q hq =>
    obtain ⟨hpre, rfl⟩ := word?_eq_some_iff.1 hf
    obtain ⟨c, hc, hends⟩ := endsToken_punctuator q hq
    obtain ⟨w, hw⟩ := List.getLast?_eq_some_iff.1 hc
    obtain ⟨rest, rfl⟩ := hpre
    exact ⟨w.length, c, by simp [hw], by simp [hw], hends⟩

theorem split_of_first? {t : Terminal} (h : first? allowed cs = some (t, n)) :
    ∃ u c tail, cs = u ++ c :: tail ∧ n = (u ++ [c]).length ∧ EndsToken t c := by
  obtain ⟨k, c, rfl, hc, hends⟩ := endsAt_of_first? h
  obtain ⟨hk, rfl⟩ := List.getElem?_eq_some_iff.1 hc
  refine ⟨cs.take k, cs[k], cs.drop (k + 1), ?_, ?_, hends⟩
  · rw [← List.drop_eq_getElem_cons, List.take_append_drop]
  · simp
    omega

theorem mark_cases {t : Terminal} {c : Char} {rest : List Char}
    (h : first? allowed (c :: rest) = some (t, n)) (hname : isNamePart c = false)
    (hdecimal : isDecimal c = false) (hdot : c ≠ '.') :
    t = .regex ∧ c = '/' ∧ regex? (c :: rest) = some n ∨
      t = .string ∧ (c = '"' ∨ c = '\'') ∧ string? (c :: rest) = some n ∨
      ∃ text tail, (t, text) ∈ Terminal.punctuators ∧ text.toList = c :: tail ∧ tail <+: rest ∧
        n = text.toList.length := by
  obtain ⟨-, f, hr, hf⟩ := exists_reader h
  cases hr with
  | @keyword k hk =>
    rw [keyword?_eq (isNamePart_of_keyword hk), wordOf_eq_nil _ hname] at hf
    split_ifs at hf with hmem
    have := keywordOf?_nil fun _ => true
    rw [keywordOf?, Option.map_eq_none_iff, List.find?_eq_none] at this
    exact absurd (this k hk) (by simpa using hmem)
  | regex =>
    obtain ⟨d, body, tail, hrest, -⟩ := exists_of_regex? hf
    exact .inl ⟨rfl, (List.cons_eq_cons.1 hrest).1, hf⟩
  | string =>
    obtain ⟨quote, body, tail, hq, hrest, -⟩ := exists_of_string? hf
    exact .inr (.inl ⟨rfl, (List.cons_eq_cons.1 hrest).1 ▸ hq, hf⟩)
  | number =>
    rw [number?_eq_none hdecimal fun h => absurd h hdot] at hf
    cases hf
  | name =>
    rw [name?_eq_none hname] at hf
    cases hf
  | @punctuator q hq =>
    obtain ⟨hpre, hn⟩ := word?_eq_some_iff.1 hf
    have hstart := (startsPunctuator_all _ hq).1
    cases htext : q.2.toList with
    | nil => simp [htext, startsPunctuator] at hstart
    | cons d tail =>
      rw [htext, List.cons_prefix_cons] at hpre
      obtain ⟨rfl, hpre⟩ := hpre
      exact .inr (.inr ⟨q.2, tail, hq, htext, hpre, hn⟩)

theorem closed_of_first? {t : Terminal} (h : first? allowed cs = some (t, n)) : Closed cs := by
  intro hquote
  obtain ⟨c, rest, rfl, hc⟩ : ∃ c rest, cs = c :: rest ∧ (c = '"' ∨ c = '\'') := by
    obtain _ | ⟨c, rest⟩ := cs
    · simp at hquote
    · exact ⟨c, rest, rfl, by simpa using hquote⟩
  have hmark : isNamePart c = false ∧ isDecimal c = false ∧ c ≠ '.' ∧ c ≠ '/' := by
    obtain rfl | rfl := hc <;> decide
  obtain ⟨-, hslash, -⟩ | ⟨-, -, hs⟩ | ⟨text, tail, hp, htext, -, -⟩ :=
    mark_cases h hmark.1 hmark.2.1 hmark.2.2.1
  · exact absurd hslash hmark.2.2.2
  · exact Option.isSome_iff_exists.2 ⟨n, hs⟩
  · have hstart := (startsPunctuator_all _ hp).1
    simp only [htext] at hstart
    obtain rfl | rfl := hc <;> simp [startsPunctuator] at hstart

theorem eq_slash_of_first? {t : Terminal} {rest : List Char}
    (h : first? allowed ('/' :: '*' :: rest) = some (t, n)) : t = .slash ∧ n = 1 := by
  obtain ⟨-, -, hr⟩ | ⟨-, hq, -⟩ | ⟨text, tail, hp, htext, hpre, rfl⟩ :=
    mark_cases h (by decide) (by decide) (by decide)
  · simp [regex?] at hr
  · exact absurd hq (by decide)
  · have test : ∀ p ∈ Terminal.punctuators, p.2.toList.head? = some '/' →
        p.1 = .slash ∧ p.2.toList = ['/'] ∨ p.2.toList = ['/', '='] := by decide
    obtain ⟨ht, hone⟩ | htwo := test _ hp (by rw [htext]; rfl)
    · exact ⟨ht, by rw [hone]; rfl⟩
    · rw [htext, List.cons_eq_cons] at htwo
      rw [htwo.2, List.cons_prefix_cons] at hpre
      exact absurd hpre.1 (by decide)

theorem eq_star_of_first? {t : Terminal} {rest : List Char}
    (h : first? allowed ('*' :: rest) = some (t, n)) : t = .star ∨ t = .starEqual := by
  obtain ⟨-, hslash, -⟩ | ⟨-, hq, -⟩ | ⟨text, tail, hp, htext, -, -⟩ :=
    mark_cases h (by decide) (by decide) (by decide)
  · exact absurd hslash (by decide)
  · exact absurd hq (by decide)
  · have test : ∀ p ∈ Terminal.punctuators, p.2.toList.head? = some '*' →
        p.1 = .star ∨ p.1 = .starEqual := by decide
    exact test _ hp (by rw [htext]; rfl)

/-- Readers find the same tokens if they look for the same classes of those that there are. -/
theorem first?_congr {allowed' : Terminal → Bool}
    (h : ∀ r ∈ readers, r.2 cs ≠ none → allowed r.1 = allowed' r.1) :
    first? allowed cs = first? allowed' cs := by
  refine findSome?_congr fun r hr => ?_
  cases hf : r.2 cs with
  | none => rw [attempt?_of_none hf, attempt?_of_none hf]
  | some n => rw [attempt?, attempt?, hf, h r hr (by simp [hf])]

theorem IsReader.ne_finish {t : Terminal} {f : List Char → Option Nat} (h : IsReader t f) :
    t ≠ .finish := by
  have hkeys : ∀ k ∈ Terminal.keywords, k.1 ≠ .finish := by decide
  have hmarks : ∀ p ∈ Terminal.punctuators, p.1 ≠ .finish := by decide
  cases h with
  | keyword mem => exact hkeys _ mem
  | punctuator mem => exact hmarks _ mem
  | _ => decide

end Lexeme

end Debundle
