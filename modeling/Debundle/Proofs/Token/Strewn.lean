import Debundle.Proofs.Token.Gaps

/-!
# Semicolons written into a text

Semicolons that are written between the tokens of a text (`Strewn`) change none of them
(`first?_strewn`): no token but a string or a regular expression holds a semicolon.
-/
namespace Debundle

namespace Text

/-- The second text is the first one with some semicolons written into it, none of them right after
a backslash. With `fresh`, one may stand at its start. -/
inductive Strewn : (fresh : Bool) → List Char → List Char → Prop
  | nil (fresh : Bool) : Strewn fresh [] []
  | keep {fresh : Bool} (c : Char) {xs ys : List Char} (rest : Strewn (c != '\\') xs ys) :
      Strewn fresh (c :: xs) (c :: ys)
  | write {xs ys : List Char} (rest : Strewn true xs ys) : Strewn true xs (';' :: ys)

namespace Strewn

variable {fresh : Bool} {xs ys u : List Char}

theorem head_of_all {p : Char → Prop} (h : Strewn fresh xs ys) (hsemi : p ';')
    (hxs : ∀ c ∈ xs.head?, p c) : ∀ c ∈ ys.head?, p c := by
  intro c hc
  cases h with
  | nil => cases hc
  | keep => exact hxs c hc
  | write =>
    cases hc
    exact hsemi

theorem to_true (h : Strewn fresh xs ys) : Strewn true xs ys := by
  cases h with
  | nil => exact .nil true
  | keep c rest => exact .keep c rest
  | write rest => exact .write rest

theorem append (h : Strewn true xs ys) (hne : u ≠ []) (hu : ∀ c ∈ u.getLast?, c ≠ '\\') :
    Strewn fresh (u ++ xs) (u ++ ys) := by
  induction u generalizing fresh with
  | nil => exact absurd rfl hne
  | cons c u ih =>
    refine .keep c ?_
    cases u with
    | nil =>
      have hc : (c != '\\') = true := by simpa using hu c rfl
      rw [hc]
      exact h
    | cons d u => exact ih (List.cons_ne_nil d u) (by simpa using hu)

theorem prefix_of (h : Strewn fresh xs ys) {text : List Char} (hp : text <+: ys)
    (hsemi : ';' ∉ text) : text <+: xs := by
  induction h generalizing text with
  | nil => exact hp
  | keep c rest ih =>
    cases text with
    | nil => exact List.nil_prefix
    | cons d text =>
      rw [List.cons_prefix_cons] at hp ⊢
      exact ⟨hp.1, ih hp.2 fun hmem => hsemi (List.mem_cons_of_mem d hmem)⟩
  | write rest ih =>
    cases text with
    | nil => exact List.nil_prefix
    | cons d text =>
      rw [List.cons_prefix_cons] at hp
      exact absurd (hp.1 ▸ List.mem_cons_self) hsemi

end Strewn

end Text

namespace Lexeme

open Text

variable {fresh : Bool} {xs ys u : List Char}

/-! ## Runs and numbers -/

theorem takeWhile_strewn {p : Char → Bool} (hs : Strewn fresh xs ys) (hp : p ';' = false)
    (h : run p (u ++ xs) ≤ u.length) : (u ++ ys).takeWhile p = (u ++ xs).takeWhile p := by
  rw [run, List.takeWhile_append] at h
  rw [List.takeWhile_append, List.takeWhile_append]
  split_ifs at h ⊢ with hu
  · have hxs : xs.takeWhile p = [] := by
      rw [List.length_append, ← hu] at h
      exact List.length_eq_zero_iff.1 (by omega)
    have hys : ys.takeWhile p = [] := by
      have hhead : ∀ c ∈ xs.head?, p c = false := by
        intro c hc
        obtain ⟨xs, rfl⟩ := List.head?_eq_some_iff.1 hc
        by_contra hpc
        rw [List.takeWhile_cons_of_pos (by simpa using hpc)] at hxs
        cases hxs
      have := hs.head_of_all hp hhead
      cases ys with
      | nil => rfl
      | cons c ys => exact List.takeWhile_cons_of_neg (by simp [this c rfl])
    rw [hxs, hys]
  · rfl

theorem run_strewn {p : Char → Bool} (hs : Strewn fresh xs ys) (hp : p ';' = false)
    (h : run p (u ++ xs) ≤ u.length) : run p (u ++ ys) = run p (u ++ xs) :=
  congrArg List.length (takeWhile_strewn hs hp h)

theorem fractionLength_strewn (hs : Strewn fresh xs ys)
    (h : fractionLength (u ++ xs) ≤ u.length) :
    fractionLength (u ++ ys) = fractionLength (u ++ xs) := by
  cases u with
  | nil =>
    have hno : ∀ c ∈ xs.head?, c ≠ '.' := by
      rintro c hc rfl
      simp [fractionLength, Option.mem_def.1 hc] at h
    have hno' := hs.head_of_all (by decide) hno
    have zero : ∀ {cs : List Char}, (∀ c ∈ cs.head?, c ≠ '.') → fractionLength cs = 0 :=
      fun h => if_neg fun hd => h '.' hd rfl
    rw [List.nil_append, List.nil_append, zero hno, zero hno']
  | cons c u =>
    rw [List.cons_append, fractionLength, List.head?_cons, List.tail_cons] at h
    rw [List.cons_append, List.cons_append, fractionLength, fractionLength, List.head?_cons,
      List.head?_cons, List.tail_cons, List.tail_cons]
    split_ifs at h ⊢ with hc
    · rw [List.length_cons] at h
      rw [run_strewn hs (by decide) (by omega)]
    · rfl

/-- How many digits stand at the start of a text, perhaps after a sign. -/
def signedRun (cs : List Char) : Nat :=
  run isDecimal (cs.drop (signLength cs))

theorem signLength_cons_append (c : Char) (u xs : List Char) :
    signLength (c :: u ++ xs) = signLength [c] := rfl

theorem signedRun_strewn (hs : Strewn fresh xs ys) (hne : u ≠ [])
    (h : signLength (u ++ xs) + signedRun (u ++ xs) ≤ u.length) :
    signLength (u ++ ys) = signLength (u ++ xs) ∧ signedRun (u ++ ys) = signedRun (u ++ xs) := by
  obtain ⟨c, u, rfl⟩ := List.exists_cons_of_ne_nil hne
  refine ⟨rfl, ?_⟩
  have hle : signLength [c] ≤ (c :: u).length := by
    unfold signLength
    split_ifs <;> simp
  unfold signedRun at h ⊢
  rw [signLength_cons_append, List.drop_append_of_le_length hle] at h ⊢
  rw [signLength_cons_append, List.drop_append_of_le_length hle]
  refine run_strewn hs (by decide) ?_
  rw [List.length_drop]
  omega

theorem signedRun_eq_zero (hs : Strewn fresh xs ys) (h : signedRun (u ++ xs) = 0) :
    signedRun (u ++ ys) = 0 := by
  have step : ∀ {fresh : Bool} {c : Char} {u xs ys : List Char}, Strewn fresh xs ys →
      signedRun (c :: u ++ xs) = 0 → signedRun (c :: u ++ ys) = 0 := by
    intro fresh c u xs ys hs h
    have hle : signLength [c] ≤ (c :: u).length := by
      unfold signLength
      split_ifs <;> simp
    unfold signedRun at h ⊢
    rw [signLength_cons_append, List.drop_append_of_le_length hle] at h ⊢
    rw [run_strewn hs (by decide) (by omega), h]
  cases u with
  | cons c u => exact step hs h
  | nil =>
    cases hs with
    | nil => exact h
    | write => rfl
    | keep c rest => exact step (u := []) rest h

theorem exponent_cons_eq (e : Char) (rest : List Char) : exponent (e :: rest) =
    if (e = 'e' ∨ e = 'E') ∧ signedRun rest ≠ 0 then 1 + signLength rest + signedRun rest else 0 := by
  rw [exponent_cons, signedRun]
  split_ifs <;> simp_all

theorem exponent_strewn (hs : Strewn fresh xs ys) (h : exponent (u ++ xs) ≤ u.length) :
    exponent (u ++ ys) = exponent (u ++ xs) := by
  cases u with
  | nil =>
    cases hs with
    | nil => rfl
    | write rest =>
      rw [List.nil_append, List.nil_append] at *
      rw [Nat.le_zero.1 h]
      rfl
    | keep c rest =>
      rw [List.nil_append, List.nil_append] at *
      rw [Nat.le_zero.1 h]
      rw [exponent_cons_eq] at h ⊢
      split_ifs at h with hdigits
      · simp at h
      · refine if_neg fun hys => hdigits ⟨hys.1, fun h0 => hys.2 ?_⟩
        exact signedRun_eq_zero (u := []) rest h0
  | cons e u =>
    rw [List.cons_append, exponent_cons_eq] at h
    rw [List.cons_append, List.cons_append, exponent_cons_eq, exponent_cons_eq]
    by_cases hzero : signedRun (u ++ xs) = 0
    · rw [if_neg fun h => h.2 (signedRun_eq_zero hs hzero), if_neg fun h => h.2 hzero]
    · by_cases he : e = 'e' ∨ e = 'E'
      · rw [if_pos ⟨he, hzero⟩, List.length_cons] at h
        have hne : u ≠ [] := by
          rintro rfl
          simp only [List.length_nil] at h
          omega
        obtain ⟨hsign, hrun⟩ := signedRun_strewn hs hne (by omega)
        rw [hsign, hrun]
      · rw [if_neg fun h => he h.1, if_neg fun h => he h.1]

theorem decimal?_strewn (hs : Strewn fresh xs ys) (h : decimal? (u ++ xs) = some u.length) :
    decimal? (u ++ ys) = some u.length := by
  rw [decimal?_eq] at h ⊢
  dsimp only at h ⊢
  split_ifs at h with hnone
  rw [Option.some.injEq] at h
  have hwhole := run_strewn (p := isDecimal) (u := u) hs (by decide) (by omega)
  rw [List.drop_append_of_le_length (by omega)] at h hnone
  have hfraction := fractionLength_strewn (u := u.drop (run isDecimal (u ++ xs))) hs (by
    rw [List.length_drop]
    omega)
  rw [hwhole, List.drop_append_of_le_length (by omega), hfraction, if_neg hnone]
  rw [List.drop_append_of_le_length (by omega)] at h ⊢
  rw [exponent_strewn hs, h]
  rw [List.length_drop]
  omega

theorem number?_strewn (hs : Strewn fresh xs ys) (h : number? (u ++ xs) = some u.length) :
    number? (u ++ ys) = some u.length := by
  have hne : u ≠ [] := by
    rintro rfl
    obtain ⟨k, -, hk, -⟩ := endsAt_number? h
    cases hk
  have hstop : (hexValue? ';').isSome = false := rfl
  rw [number?_eq] at h ⊢
  by_cases hhex : (u ++ xs).head? = some '0' ∧
      ((u ++ xs).tail.head? = some 'x' ∨ (u ++ xs).tail.head? = some 'X') ∧
      run (fun c => (hexValue? c).isSome) ((u ++ xs).drop 2) ≠ 0
  · rw [if_pos hhex, Option.some.injEq] at h
    obtain ⟨c, d, u, rfl⟩ : ∃ c d u', u = c :: d :: u' := by
      obtain _ | ⟨c, _ | ⟨d, u⟩⟩ := u
      · exact absurd rfl hne
      · simp only [List.length_cons, List.length_nil] at h
        omega
      · exact ⟨c, d, u, rfl⟩
    simp only [List.cons_append, List.drop_succ_cons, List.drop_zero, List.length_cons] at h hhex ⊢
    have hrun := run_strewn hs hstop (show run (fun c => (hexValue? c).isSome) (u ++ xs) ≤ u.length by omega)
    rw [hrun]
    exact (if_pos hhex).trans (congrArg some h)
  · rw [if_neg hhex] at h
    refine (if_neg fun hys => hhex ?_).trans (decimal?_strewn hs h)
    obtain ⟨hzero, hx, hdigits⟩ := hys
    obtain _ | ⟨c, _ | ⟨d, u⟩⟩ := u
    · exact absurd rfl hne
    · cases hs with
      | nil => simp at hx
      | write => simp at hx
      | keep d rest =>
        refine ⟨hzero, hx, fun h0 => hdigits ?_⟩
        exact (run_strewn (u := []) rest hstop (Nat.le_of_eq h0)).trans h0
    · refine ⟨hzero, hx, fun h0 => hdigits ?_⟩
      have h0 : run (fun c => (hexValue? c).isSome) (u ++ xs) = 0 := h0
      exact (run_strewn hs hstop (by omega)).trans h0

theorem head_of_run_eq_zero {p : Char → Bool} {cs : List Char} {c : Char} (h : run p cs = 0)
    (hc : c ∈ cs.head?) : p c = false := by
  obtain ⟨rest, rfl⟩ := List.head?_eq_some_iff.1 hc
  by_contra hp
  rw [run, List.takeWhile_cons_of_pos (by simpa using hp)] at h
  cases h

theorem number?_none_strewn (hs : Strewn fresh xs ys) (hne : u ≠ [])
    (h : number? (u ++ xs) = none) : number? (u ++ ys) = none := by
  have hdecimal : decimal? (u ++ xs) = none := by
    rw [number?_eq] at h
    split_ifs at h with hhex
    exact h
  rw [decimal?_eq] at hdecimal
  dsimp only at hdecimal
  split_ifs at hdecimal with hnone
  obtain ⟨hwhole, hpart⟩ := hnone
  rw [hwhole, List.drop_zero] at hpart
  obtain ⟨c, u, rfl⟩ := List.exists_cons_of_ne_nil hne
  rw [List.cons_append]
  refine number?_eq_none (head_of_run_eq_zero hwhole rfl) ?_
  rintro rfl d hd
  have hzero : run isDecimal (u ++ xs) = 0 := by
    rw [List.cons_append, fractionLength, List.head?_cons, if_pos rfl, List.tail_cons] at hpart
    omega
  exact head_of_run_eq_zero ((run_strewn hs (by decide) (by omega)).trans hzero) hd

/-! ## Regular expressions and strings -/

theorem regexRest?_strewn {bracket : Bool} (hs : Strewn fresh xs ys)
    (h : regexRest? bracket xs = none) : regexRest? bracket ys = none := by
  induction hlen : ys.length using Nat.strongRecOn generalizing xs ys fresh bracket with
  | _ n ih =>
    subst hlen
    cases hs with
    | nil => exact h
    | @write xs ys rest =>
      have hrest := ih ys.length (by simp) rest h rfl
      rw [regexRest?_cons (by decide), if_neg (by decide)]
      cases bracket with
      | true => exact (if_pos rfl).trans (Option.map_eq_none_iff.2 hrest)
      | false =>
        rw [if_neg (by decide), if_neg (by decide)]
        exact Option.map_eq_none_iff.2 hrest
    | @keep _ c xs ys rest =>
      by_cases hc : c = '\\'
      · subst hc
        cases rest with
        | nil => exact h
        | @keep _ d xs ys rest =>
          rw [regexRest?] at h ⊢
          split_ifs at h ⊢ with hd
          · rfl
          · rw [Option.map_eq_none_iff] at h ⊢
            exact ih ys.length (by simp only [List.length_cons]; omega) rest h rfl
      · rw [regexRest?_cons hc] at h ⊢
        split_ifs at h ⊢
        · rfl
        all_goals
          rw [Option.map_eq_none_iff] at h ⊢
          exact ih ys.length (by simp) rest h rfl

theorem string?_append_left (more : List Char) (h : string? (u ++ xs) = some u.length) :
    string? (u ++ more) = some u.length := by
  obtain ⟨quote, body, tail, hq, htext, hlen, hmore⟩ := exists_of_string? h
  obtain ⟨rfl, rfl⟩ : u = quote :: (body ++ [quote]) ∧ xs = tail :=
    List.append_inj (htext.trans (by simp)) (by simp [hlen])
  have := hmore more
  simpa [hlen] using this

theorem regex?_strewn (hs : Strewn fresh xs ys) (h : regex? (u ++ xs) = some u.length) :
    regex? (u ++ ys) = some u.length := by
  obtain ⟨c, body, tail, htext, -, hlen, hmore⟩ := exists_of_regex? h
  obtain ⟨flags, rfl, rfl⟩ : ∃ flags, u = '/' :: c :: (body ++ '/' :: flags) ∧ tail = flags ++ xs := by
    obtain ⟨flags, hflags⟩ : '/' :: c :: (body ++ ['/']) <+: u :=
      List.prefix_of_prefix_length_le ⟨tail, by simp [htext]⟩ (List.prefix_append u xs)
        (by simp [hlen])
    refine ⟨flags, by simp [← hflags], ?_⟩
    simpa [← hflags] using htext.symm
  have hrun : run Char.isAlpha (flags ++ xs) ≤ flags.length := by
    simp only [List.length_cons, List.length_append] at hlen
    omega
  have := hmore (flags ++ ys)
  rw [run_strewn hs (by decide) hrun, ← hlen] at this
  simpa using this

/-! ## Tokens -/

theorem read_strewn {t : Terminal} {f : List Char → Option Nat} (hr : IsReader t f)
    (hs : Strewn fresh xs ys) (h : f (u ++ xs) = some u.length) : f (u ++ ys) = some u.length := by
  cases hr with
  | @keyword k hk =>
    rw [keyword?_eq (isNamePart_of_keyword hk)] at h ⊢
    split_ifs at h with hmem
    have hword : wordOf (u ++ ys) = wordOf (u ++ xs) :=
      takeWhile_strewn hs (by decide) (Nat.le_of_eq (Option.some.inj h))
    rw [hword, if_pos hmem, h]
  | regex => exact regex?_strewn hs h
  | string => exact string?_append_left ys h
  | number => exact number?_strewn hs h
  | name =>
    obtain _ | ⟨c, u⟩ := u
    · obtain ⟨k, -, hk, -⟩ := endsAt_name? h
      cases hk
    · rw [List.cons_append, name?] at h ⊢
      split_ifs at h ⊢ with hc
      rw [Option.some.injEq, List.length_cons] at h
      rw [run_strewn hs (by decide) (by omega), h, List.length_cons]
  | @punctuator q hq =>
    rw [word?_eq_some_iff] at h ⊢
    have htext : q.2.toList = u := by
      obtain ⟨rest, hrest⟩ := h.1
      exact (List.append_inj hrest h.2.symm).1
    rw [htext]
    exact ⟨List.prefix_append u ys, rfl⟩

theorem first?_eq_some_iff {allowed : Terminal → Bool} {cs : List Char} {t : Terminal} {n : Nat} :
    first? allowed cs = some (t, n) ↔ ∃ before f after, readers = before ++ (t, f) :: after ∧
      f cs = some n ∧ allowed t = true ∧
      ∀ r ∈ before, allowed r.1 = true → r.2 cs = none := by
  have hattempt : ∀ r : Terminal × (List Char → Option Nat),
      attempt? allowed cs r = none ↔ (allowed r.1 = true → r.2 cs = none) := by
    intro r
    rw [attempt?]
    split
    · rename_i m hm
      simp [hm]
    · rename_i hm
      simp [hm]
  rw [first?, List.findSome?_eq_some_iff]
  simp only [hattempt]
  constructor
  · rintro ⟨before, ⟨u, f⟩, after, hsplit, ha, hbefore⟩
    unfold attempt? at ha
    split at ha
    · rename_i m hm
      split_ifs at ha with hu
      cases ha
      exact ⟨before, f, after, hsplit, hm, hu, hbefore⟩
    · cases ha
  · rintro ⟨before, f, after, hsplit, hf, ht, hbefore⟩
    exact ⟨before, (t, f), after, hsplit, attempt?_of_some (r := (t, f)) hf ht, hbefore⟩

theorem isDecimal_of_run {allowed : Terminal → Bool} {c : Char} {cs : List Char} {t : Terminal}
    {n : Nat} (h : first? allowed (c :: cs) = some (t, n)) (hrun : n < run isNamePart (c :: cs)) :
    isDecimal c = true := by
  have hname : isNamePart c = true := by
    by_contra hno
    rw [run_cons_eq_zero (by simpa using hno)] at hrun
    omega
  by_contra hdecimal
  have hmarks : c ≠ '.' ∧ c ≠ '/' ∧ c ≠ '"' ∧ c ≠ '\'' := by
    refine ⟨?_, ?_, ?_, ?_⟩ <;> rintro rfl <;> exact absurd hname (by decide)
  obtain ⟨-, f, hr, hf⟩ := exists_reader h
  cases hr with
  | @keyword k hk =>
    rw [keyword?_eq (isNamePart_of_keyword hk)] at hf
    split_ifs at hf
    cases hf
    exact Nat.lt_irrefl _ hrun
  | regex =>
    rw [regex?_eq_none hmarks.2.1] at hf
    cases hf
  | string =>
    rw [string?_eq_none hmarks.2.2.1 hmarks.2.2.2] at hf
    cases hf
  | number =>
    rw [number?_eq_none (by simpa using hdecimal) fun h => absurd h hmarks.1] at hf
    cases hf
  | name =>
    rw [name?] at hf
    split_ifs at hf
    cases hf
    rw [run, run, List.takeWhile_cons_of_pos hname, List.length_cons] at hrun
    omega
  | @punctuator q hq =>
    obtain ⟨hpre, -⟩ := word?_eq_some_iff.1 hf
    have hstart := (startsPunctuator_all _ hq).1
    cases htext : q.2.toList with
    | nil => simp [htext, startsPunctuator] at hstart
    | cons d tail =>
      rw [htext, List.cons_prefix_cons] at hpre
      obtain ⟨rfl, -⟩ := hpre
      simp [htext, startsPunctuator, hname] at hstart

theorem regex?_none_strewn (hs : Strewn fresh xs ys) (hne : u ≠ [])
    (hlast : ∀ c ∈ u.getLast?, c ≠ '\\')
    (hopen : u = ['/'] → ∀ c ∈ xs.head?, c ≠ '*' ∧ c ≠ '/') (h : regex? (u ++ xs) = none) :
    regex? (u ++ ys) = none := by
  have of_rest : ∀ {cs : List Char}, regexRest? false cs = none → regex? ('/' :: cs) = none := by
    intro cs h
    obtain _ | ⟨c, cs⟩ := cs
    · rfl
    · rw [regex?]
      split_ifs
      · rfl
      · rw [h]
        rfl
  have rest_of : ∀ {c : Char} {cs : List Char}, c ≠ '*' ∧ c ≠ '/' →
      regex? ('/' :: c :: cs) = none → regexRest? false (c :: cs) = none := by
    intro c cs hc h
    rw [regex?, if_neg (by simp [hc])] at h
    exact Option.map_eq_none_iff.1 h
  obtain ⟨c, u, rfl⟩ := List.exists_cons_of_ne_nil hne
  obtain rfl | hc := eq_or_ne c '/'
  · obtain _ | ⟨d, u⟩ := u
    · refine of_rest (regexRest?_strewn hs ?_)
      obtain _ | ⟨d, xs⟩ := xs
      · rfl
      · exact rest_of (hopen rfl d rfl) h
    · by_cases hd : d ≠ '*' ∧ d ≠ '/'
      · have hlonger : Strewn true (d :: u ++ xs) (d :: u ++ ys) :=
          hs.to_true.append (List.cons_ne_nil d u) (by simpa using hlast)
        exact of_rest (regexRest?_strewn hlonger (rest_of hd h))
      · rw [List.cons_append, List.cons_append, regex?, if_pos (by simpa [or_iff_not_imp_left] using hd)]
  · rw [List.cons_append, regex?_eq_none hc]

theorem isNameStart_eq_false {c : Char} (h : isDecimal c = true) : isNameStart c = false := by
  have hc : c ≠ '$' := by
    rintro rfl
    exact absurd h (by decide)
  simp [isNameStart, h, hc]

/-- A reader that finds nothing before a token finds nothing in the text with semicolons. -/
theorem none_strewn {allowed : Terminal → Bool} {t : Terminal}
    {r : Terminal} {f : List Char → Option Nat} (hr : IsReader r f) (hs : Strewn fresh xs ys)
    (hopen : u = ['/'] → ∀ c ∈ xs.head?, c ≠ '*' ∧ c ≠ '/')
    (h : first? allowed (u ++ xs) = some (t, u.length)) (hnone : f (u ++ xs) = none) :
    f (u ++ ys) = none := by
  obtain ⟨hne, hlast⟩ : u ≠ [] ∧ ∀ c ∈ u.getLast?, c ≠ '\\' := by
    obtain ⟨v, e, tail, hsplit, hlen, hends⟩ := split_of_first? h
    obtain rfl : u = v ++ [e] := (List.append_inj (hsplit.trans (List.append_cons v e tail)) hlen).1
    exact ⟨by simp, by simpa using hends.2⟩
  cases hr with
  | @keyword k hk =>
    rw [keyword?_eq (isNamePart_of_keyword hk)] at hnone ⊢
    refine if_neg fun hmem => ?_
    by_cases hrun : run isNamePart (u ++ xs) ≤ u.length
    · rw [wordOf, takeWhile_strewn hs (by decide) hrun, ← wordOf] at hmem
      rw [if_pos hmem] at hnone
      cases hnone
    · -- no keyword begins with a digit
      obtain ⟨c, u, rfl⟩ := List.exists_cons_of_ne_nil hne
      have hdigit := isDecimal_of_run h (Nat.lt_of_not_le hrun)
      obtain ⟨w, hw, hword⟩ := List.mem_map.1 hmem
      have hstart := isName_of_keyword k hk w hw
      rw [hword, Bool.and_eq_true] at hstart
      rw [List.cons_append, wordOf] at hstart
      by_cases hc : isNamePart c = true
      · rw [List.takeWhile_cons_of_pos hc] at hstart
        simp [isNameStart_eq_false hdigit] at hstart
      · rw [List.takeWhile_cons_of_neg hc] at hstart
        simp at hstart
  | regex => exact regex?_none_strewn hs hne hlast hopen hnone
  | string =>
    have hclosed := closed_of_first? h
    obtain ⟨c, u, rfl⟩ := List.exists_cons_of_ne_nil hne
    have hquote : ¬ (c = '"' ∨ c = '\'') := by
      intro hc
      have := hclosed (by simpa using hc)
      rw [hnone] at this
      cases this
    rw [not_or] at hquote
    exact string?_eq_none hquote.1 hquote.2
  | number => exact number?_none_strewn hs hne hnone
  | name =>
    obtain ⟨c, u, rfl⟩ := List.exists_cons_of_ne_nil hne
    rw [List.cons_append, name?] at hnone ⊢
    split_ifs at hnone ⊢
    rfl
  | @punctuator q hq =>
    have test : ∀ p ∈ Terminal.punctuators, ';' ∈ p.2.toList → p.2.toList = [';'] := by
      decide
    rw [← Option.not_isSome_iff_eq_none, Option.isSome_iff_exists] at hnone ⊢
    rintro ⟨n, hn⟩
    rw [word?_eq_some_iff] at hn
    refine hnone ⟨n, word?_eq_some_iff.2 ⟨?_, hn.2⟩⟩
    obtain ⟨c, u, rfl⟩ := List.exists_cons_of_ne_nil hne
    by_cases hsemi : ';' ∈ q.2.toList
    · rw [test q hq hsemi, List.cons_append, List.cons_prefix_cons] at hn ⊢
      exact ⟨hn.1.1, List.nil_prefix⟩
    · have hlonger : Strewn true (c :: u ++ xs) (c :: u ++ ys) := hs.to_true.append hne hlast
      exact hlonger.prefix_of hn.1 hsemi

/-- Semicolons that are written after a token leave it as it is. -/
theorem first?_strewn {allowed : Terminal → Bool} {t : Terminal} (hs : Strewn fresh xs ys)
    (hopen : u = ['/'] → ∀ c ∈ xs.head?, c ≠ '*' ∧ c ≠ '/')
    (h : first? allowed (u ++ xs) = some (t, u.length)) :
    first? allowed (u ++ ys) = some (t, u.length) := by
  obtain ⟨before, f, after, hsplit, hf, ht, hbefore⟩ := first?_eq_some_iff.1 h
  refine first?_eq_some_iff.2 ⟨before, f, after, hsplit, ?_, ht, fun r hr hallowed => ?_⟩
  · exact read_strewn (isReader_of_mem (hsplit ▸ List.mem_append_right _ List.mem_cons_self)) hs hf
  · exact none_strewn (isReader_of_mem (hsplit ▸ List.mem_append_left _ hr)) hs hopen h
      (hbefore r hr hallowed)

end Lexeme

end Debundle
