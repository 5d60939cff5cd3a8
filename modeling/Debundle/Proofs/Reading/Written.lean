import Debundle.Proofs.Reading.Runs
import Debundle.Proofs.Reading.Places

/-!
# Supplied semicolons written into the text

When every semicolon that is supplied while a text is read is written into the text, right before
the token for which it was supplied or behind the last token, the text is read to the same tree, and
nothing has to be supplied any more (`parse_withSemicolons`). A reader of the one text and a reader
of the other go through it side by side (`Keeps`).
-/
namespace Debundle

theorem Text.Strewn.refl (fresh : Bool) (xs : List Char) : Strewn fresh xs xs := by
  induction xs generalizing fresh with
  | nil => exact .nil fresh
  | cons c xs ih => exact .keep c (ih _)

namespace Reader

open Automaton Derivation Text

variable {r r₁ r' : Reader} {gap rest : List Char} {a b : Token} {n fuel : Nat} {d : Derivation}

/-- Nothing is written after a backslash: neither tokens nor gaps end with one. -/
theorem Writes.strewn {ys : List Char} (h : Writes d r ys) : Strewn true r.cursor.rest ys := by
  have after_gap : ∀ {gap rest ys : List Char}, Gap.Fills gap rest → Gap.extent? rest = none →
      rest ≠ [] → Strewn true rest ys → Strewn true (gap ++ rest) (gap ++ ys) := by
    intro gap rest ys hf hn hne hrest
    by_cases hgap : gap = []
    · rwa [hgap]
    · refine hrest.append hgap fun c hc => ?_
      obtain rfl | hblank := Gap.getLast_of_fills hf hne hn c hc
      · decide
      · rintro rfl
        cases hblank
  have after_token : ∀ {s t : List Frame} {rest ys : List Char} {a : Token} {n : Nat} {fresh : Bool},
      Takes s t rest a n → Strewn true (rest.drop n) ys → Strewn fresh rest (rest.take n ++ ys) := by
    intro s t rest ys a n fresh htake hys
    obtain ⟨u, c, tail, hrest, rfl, hends⟩ := Lexeme.split_of_first? htake.found
    obtain rfl : rest = (u ++ [c]) ++ tail := by simpa using hrest
    rw [List.take_left, List.drop_left] at *
    exact hys.append (by simp) (by simpa using hends.2)
  induction h with
  | done => exact .refl true _
  | closed => exact .write (.refl true _)
  | plain apart fills solid more advances takes clear calm next ih =>
    rw [(advances.rest_start apart (length_of_first? takes.found).2).1] at ih
    rw [apart]
    exact after_gap fills solid more (after_token takes ih)
  | supplied apart fills solid more advances mark spelling fed takes clear next ih =>
    rw [(advances.rest_start apart (length_of_first? takes.found).2).1] at ih
    rw [apart]
    exact after_gap fills solid more (.write (after_token takes ih))

/-! ## Reading the written text -/

theorem exists_step {s v : List Frame} {u ys : List Char}
    (halike : List.Forall₂ Frame.Alike s r'.stack) (hfed : Feeds a s (.shifted v))
    (htext : a.text = String.ofList u) (hrest : r'.cursor.rest = gap ++ (u ++ ys))
    (hf : Gap.Fills gap (u ++ ys)) (hn : Gap.extent? (u ++ ys) = none)
    (hfirst : Lexeme.first? (Automaton.accepts (topState s)) (u ++ ys) = some (a.terminal, u.length))
    (hcalm : ∀ b : Token, a.Alike b →
      b.afterLineEnd = Gap.lineEndBehind none (gap.reverse ++ r'.cursor.before) → ¬ r'.Breaks b) :
    ∃ b r₁, r'.step = .next r₁ ∧ a.Alike b ∧ r₁.previous = some b ∧
      List.Forall₂ Frame.Alike v r₁.stack ∧ r₁.cursor.rest = ys ∧
      r₁.cursor.before = u.reverse ++ (gap.reverse ++ r'.cursor.before) ∧
      r₁.insertions = r'.insertions := by
  obtain ⟨hrest₀, hbefore₀, -⟩ := Cursor.advance_append hrest
  have hne : u ++ ys ≠ [] := by
    intro h
    have hpos := (length_of_first? hfirst).1
    rw [List.append_eq_nil_iff] at h
    simp [h.1] at hpos
  have hab : a.Alike ((r'.cursor.advance gap.length).token a.terminal u.length) :=
    ⟨rfl, by rw [htext, Cursor.token, hrest₀, List.take_left]⟩
  obtain ⟨v', hfed', hv⟩ := hfed.shifted_alike halike hab
  rw [← topState_alike halike] at hfirst
  have hstep : r'.step = .next { r'.after (r'.cursor.advance gap.length) a.terminal u.length with
      stack := v', previous := some ((r'.cursor.advance gap.length).token a.terminal u.length) } := by
    refine (step_eq_next_iff hrest hf hn hne).2 (.inl ⟨_, _, _, _, hfirst,
      prepare_of_not_breaks (hcalm _ hab ?_), give_eq_next_iff.2 (.inl ⟨v', hfed', rfl⟩)⟩)
    rw [Cursor.token, hbefore₀]
  obtain ⟨hrest₁, hbefore₁, -⟩ := Cursor.advance_append hrest₀
  exact ⟨_, _, hstep, hab, rfl, hv, hrest₁, by rw [after, hbefore₁, hbefore₀], rfl⟩

/-- A reader of a text, and a reader of the text with its semicolons written, at the same place. -/
structure Keeps (r r' : Reader) : Prop where
  stack : List.Forall₂ Frame.Alike r.stack r'.stack
  previous : Option.Rel Token.Alike r.previous r'.previous
  before : Gap.Interchangeable r.cursor.before r'.cursor.before
  /-- Only the operator ends with a star. -/
  star : r'.cursor.before.head? = some '*' → ∃ p, r.previous = some p ∧ p.terminal = .star
  silent : r'.insertions = []

theorem Keeps.accepts (h : Keeps r r') : r'.accepts = r.accepts := by
  funext t
  rw [Reader.accepts, Reader.accepts, state, state, topState_alike h.stack]

theorem Keeps.breaks (h : Keeps r r') (hab : a.Alike b) (hline : a.afterLineEnd = b.afterLineEnd)
    (hb : r'.Breaks b) : r.Breaks a := by
  obtain ⟨p', hp', hafter, hcase⟩ := hb
  obtain ⟨p, hp, hpp⟩ : ∃ p, r.previous = some p ∧ p.Alike p' := by
    have hprev := h.previous
    rw [hp'] at hprev
    generalize r.previous = x at hprev
    cases hprev with
    | some hpp => exact ⟨_, rfl, hpp⟩
  rw [h.accepts, ← hpp.1, ← hab.1, ← hab.2] at hcase
  exact ⟨p, hp, hline.trans hafter, hcase⟩

theorem not_breaks_of_semicolon {p : Token} (hp : r.previous = some p)
    (ht : p.terminal = .semicolon) : ¬ r.Breaks b := by
  rintro ⟨p', hp', -, hcase⟩
  obtain rfl : p = p' := Option.some.inj (hp.symm.trans hp')
  rw [ht] at hcase
  obtain ⟨hbad, -⟩ | ⟨-, -, hbad, -⟩ := hcase <;> cases hbad

theorem not_breaks_semicolon (ht : b.terminal = .semicolon) (htext : b.text = ";") :
    ¬ r.Breaks b := by
  rintro ⟨p, -, -, ⟨-, hne⟩ | ⟨-, hbad, -⟩⟩
  · exact hne ht
  · rw [htext] at hbad
    revert hbad
    decide

theorem keeps_of_token {r'₁ : Reader} {place : Cursor} {s : List Frame} {more : List Char}
    (hadv : Advances r₁ place a n) (htake : Takes s r₁.stack rest a n)
    (hprev : r'₁.previous = some b) (hab : a.Alike b)
    (hstack : List.Forall₂ Frame.Alike r₁.stack r'₁.stack)
    (hbefore : Gap.Interchangeable r₁.cursor.before r'₁.cursor.before)
    (hmore : r'₁.cursor.before = (rest.take n).reverse ++ more) (hsilent : r'₁.insertions = []) :
    Keeps r₁ r'₁ where
  stack := hstack
  previous := by
    rw [hadv.previous, hprev]
    exact .some hab
  before := hbefore
  star hstar := by
    obtain ⟨u, c, tail, hrest, rfl, hends⟩ := Lexeme.split_of_first? htake.found
    obtain rfl : rest = (u ++ [c]) ++ tail := by simpa using hrest
    rw [hmore, List.take_left] at hstar
    exact ⟨a, hadv.previous, hends.1 (by simpa using hstar)⟩
  silent := hsilent

theorem not_star_of_feeds {s : List Frame} {p : Token} (hp : r.Poised) (hprev : r.previous = some p)
    (hb : b.terminal = .semicolon) (hfed : Feeds b r.stack (.shifted s)) : p.terminal ≠ .star := by
  intro hstar
  obtain ⟨hnone, -⟩ | ⟨p', q, below, hprev', hstack, hq⟩ := hp
  · cases hnone.symm.trans hprev
  obtain rfl : p' = p := Option.some.inj (hprev'.symm.trans hprev)
  obtain ⟨move, hmove⟩ := hfed.exists_action
  have hnone : action? q .semicolon = none := action?_of_barred hq (by simp [hstar, barred])
  rw [hstack, hb] at hmove
  cases hnone.symm.trans hmove

theorem Takes.found_append {s t : List Frame} (h : Takes s t rest a n) :
    Lexeme.first? (Automaton.accepts (topState s)) (rest.take n ++ rest.drop n) =
      some (a.terminal, (rest.take n).length) := by
  rw [List.take_append_drop, List.length_take_of_le (length_of_first? h.found).2]
  exact h.found

theorem interchangeable_token {s : List Frame} (hp : r.Poised) (hk : Keeps r r')
    (hb : b.terminal = .semicolon) (hfed : Feeds b r.stack (.shifted s)) (hf : Gap.Fills gap rest)
    (hn : Gap.extent? rest = none) (hne : rest ≠ []) (htake : Takes s r₁.stack rest a n) :
    Gap.Interchangeable ((rest.take n).reverse ++ (gap.reverse ++ r.cursor.before))
      ((rest.take n).reverse ++ ';' :: (gap.reverse ++ r'.cursor.before)) := by
  obtain ⟨x, text, hx, hstar, hslash⟩ :=
    Lexeme.head_of_followers htake.found_append (mem_followers_of_feeds hb hfed htake.fed.accepts)
  have hpassed : Gap.isPassed x = false := by
    refine Bool.eq_false_iff.2 fun hpassed => ?_
    have hblank := Gap.isGapBlank_head hn x (by
      rw [← List.take_append_drop n rest, hx]
      rfl)
    rw [Gap.isGapBlank_of_isPassed hpassed] at hblank
    cases hblank
  have hsemi := @Gap.interchangeable_semicolon x text (gap.reverse ++ r'.cursor.before) hstar hpassed
    fun hx => ⟨fun hhead => ?_, (hslash hx).2⟩
  · rw [hx]
    intro inside after
    exact (((hk.before.append gap.reverse).append _) inside after).trans (hsemi inside after)
  · by_cases hgap : gap = []
    · rw [hgap] at hhead
      obtain ⟨p, hprev, hterminal⟩ := hk.star hhead
      exact not_star_of_feeds hp hprev hb hfed hterminal
    · have hlast : gap.getLast? = some '*' := by
        rw [← List.head?_reverse]
        cases hrev : gap.reverse with
        | nil => exact absurd (List.reverse_eq_nil_iff.1 hrev) hgap
        | cons c cs => rwa [hrev] at hhead
      obtain hbad | hbad := Gap.getLast_of_fills hf hne hn '*' hlast <;> cases hbad

theorem Takes.poised {s : List Frame} {place : Cursor} (h : Takes s r₁.stack rest a n)
    (hadv : Advances r₁ place a n) : r₁.Poised := by
  obtain ⟨q, below, hstack, hq⟩ := h.fed.top_of_shifted
  exact .inr ⟨a, q, below, hadv.previous, hstack, hq⟩

theorem alike_finishToken (r r' : Reader) : r.finishToken.Alike r'.finishToken := by
  have htext : ∀ r : Reader, r.finishToken.text = "" := by
    intro r
    unfold finishToken
    split <;> rfl
  exact ⟨by rw [terminal_finishToken, terminal_finishToken], by rw [htext, htext]⟩

theorem run_of_accepted {s : List Frame} {m : Nat} (hf : Gap.Fills r'.cursor.rest [])
    (h : Feeds r.finishToken s (.accepted d)) (hs : List.Forall₂ Frame.Alike s r'.stack) :
    ∃ d', run (m + 1) r' = (.ok d', r') ∧ d.Alike d' := by
  obtain ⟨o, hfeeds, ho⟩ := h.alike nofun hs (alike_finishToken r r')
  cases ho with
  | accepted hd => exact ⟨_, by rw [run, step_of_accepted hf hfeeds], hd⟩

theorem extent?_semicolon (cs : List Char) : Gap.extent? (';' :: cs) = none :=
  Gap.extent?_eq_none (by decide) fun h => absurd h (by decide)

theorem exists_step_semicolon {s : List Frame} {ys : List Char}
    (halike : List.Forall₂ Frame.Alike r.stack r'.stack) (hb : b.terminal = .semicolon)
    (htext : b.text = ";") (hfed : Feeds b r.stack (.shifted s))
    (hrest : r'.cursor.rest = gap ++ ';' :: ys) (hf : Gap.Fills gap (';' :: ys)) :
    ∃ c r₁, r'.step = .next r₁ ∧ c.terminal = .semicolon ∧ r₁.previous = some c ∧
      List.Forall₂ Frame.Alike s r₁.stack ∧ r₁.cursor.rest = ys ∧
      r₁.cursor.before = ';' :: (gap.reverse ++ r'.cursor.before) ∧
      r₁.insertions = r'.insertions := by
  obtain ⟨c, r₁, hstep, hbc, hrest⟩ := exists_step halike hfed (u := [';']) htext hrest hf
    (extent?_semicolon ys) (hb ▸ Lexeme.first?_semicolon ys (hb ▸ hfed.accepts))
    fun c hc _ => not_breaks_semicolon (hc.1 ▸ hb) (hc.2 ▸ htext)
  exact ⟨c, r₁, hstep, hbc.1 ▸ hb, hrest⟩

theorem Writes.read {ys : List Char} (h : Writes d r ys) (hp : r.Poised) (hk : Keeps r r')
    (hrest : r'.cursor.rest = ys) {m : Nat} (hm : ys.length < m) :
    ∃ d' r'', run m r' = (.ok d', r'') ∧ d.Alike d' ∧ r''.insertions = [] := by
  induction h generalizing r' m with
  | done ended accepted =>
    obtain ⟨m, rfl⟩ : ∃ k, m = k + 1 := ⟨m - 1, by omega⟩
    obtain ⟨d', hrun, hd⟩ := run_of_accepted (hrest ▸ ended) accepted hk.stack
    exact ⟨d', r', hrun, hd, hk.silent⟩
  | closed ended fed accepted =>
    obtain ⟨m, rfl⟩ : ∃ k, m = k + 2 := ⟨m - 2, by simp at hm; omega⟩
    obtain ⟨c, r'₁, hstep, -, -, hstack, hrest₁, -, hsilent⟩ :=
      exists_step_semicolon hk.stack rfl rfl fed (hrest.trans (List.nil_append _).symm) (.nil _)
    obtain ⟨d', hrun, hd⟩ := run_of_accepted (hrest₁ ▸ ended) accepted hstack
    exact ⟨d', r'₁, (run_next hstep).trans hrun, hd, hsilent.trans hk.silent⟩
  | @plain r r₁ gap rest ys a n apart fills solid more advances takes clear calm next ih =>
    obtain ⟨hpos, hlen⟩ := length_of_first? takes.found
    obtain ⟨m, rfl⟩ : ∃ k, m = k + 1 := ⟨m - 1, by omega⟩
    obtain ⟨hrest₁, -, hbefore₁⟩ := advances.rest_start apart hlen
    have hstrewn := hrest₁ ▸ next.strewn
    have hsolid : Gap.extent? (rest.take n ++ ys) = none :=
      Gap.extent?_strewn hstrewn clear takes.found_append (by rwa [List.take_append_drop])
    obtain ⟨b, r'₁, hstep, hab, hprev, hstack, hrest', hbefore', hsilent⟩ :=
      exists_step hk.stack takes.fed (by rw [advances.text, Cursor.rest_advance apart]) hrest
        (fills.of_solid more solid hsolid) hsolid
        (Lexeme.first?_strewn hstrewn clear takes.found_append)
        fun b hab hline hbreaks => calm (hk.breaks hab (by
          rw [hline, advances.line, Cursor.before_advance apart]
          exact hk.before none gap.reverse) hbreaks)
    have hk₁ : Keeps r₁ r'₁ := keeps_of_token advances takes hprev hab hstack
      (by rw [hbefore₁, hbefore']; exact (hk.before.append _).append _) hbefore'
      (hsilent.trans hk.silent)
    rw [run_next hstep]
    refine ih (takes.poised advances) hk₁ hrest' ?_
    simp at hm
    omega
  | @supplied r r₁ gap rest ys a b s n apart fills solid more advances mark spelling fed takes clear
      next ih =>
    obtain ⟨hpos, hlen⟩ := length_of_first? takes.found
    obtain ⟨m, rfl⟩ : ∃ k, m = k + 2 := ⟨m - 2, by simp at hm; omega⟩
    obtain ⟨hrest₁, -, hbefore₁⟩ := advances.rest_start apart hlen
    have hstrewn := hrest₁ ▸ next.strewn
    have hsolid : Gap.extent? (rest.take n ++ ys) = none :=
      Gap.extent?_strewn hstrewn clear takes.found_append (by rwa [List.take_append_drop])
    obtain ⟨c, r'₀, hstep₀, hc, hprev₀, hstack₀, hrest₀, hbefore₀, hsilent₀⟩ :=
      exists_step_semicolon hk.stack mark spelling fed hrest
        (fills.of_solid more solid (extent?_semicolon _))
    obtain ⟨b', r'₁, hstep, hab, hprev, hstack, hrest', hbefore', hsilent⟩ :=
      exists_step hstack₀ takes.fed (by rw [advances.text, Cursor.rest_advance apart])
        (hrest₀.trans (List.nil_append _).symm) (.nil _) hsolid
        (Lexeme.first?_strewn hstrewn clear takes.found_append)
        fun b' _ _ => not_breaks_of_semicolon hprev₀ hc
    have hk₁ : Keeps r₁ r'₁ := keeps_of_token advances takes hprev hab hstack (by
        rw [hbefore₁, hbefore', hbefore₀]
        exact interchangeable_token hp hk mark fed fills solid more takes) hbefore'
      (hsilent.trans (hsilent₀.trans hk.silent))
    rw [run_next hstep₀, run_next hstep]
    refine ih (takes.poised advances) hk₁ hrest' ?_
    simp at hm
    omega

theorem keeps_ofText (cs ds : List Char) : Keeps (ofText cs) (ofText ds) where
  stack := .nil
  previous := .none
  before _ _ := rfl
  star := nofun
  silent := rfl

theorem not_refused_of_nil {t : List Frame} (ha : a.terminal = .finish) :
    ¬ Feeds a [] (.refused t) := by
  intro h
  have hmove : action? 0 .finish = some (.reduce 1) := by
    rw [action?_eq_moveAt]
    decide +kernel
  cases h with
  | refuse _ none =>
    rw [topState, ha, hmove] at none
    cases none
  | reduce move reduced rest =>
    rw [topState, ha, hmove] at move
    cases move
    obtain ⟨-, hacc⟩ | ⟨d, hnil, -⟩ := Stacked.program .nil (.inr ⟨rfl, rfl⟩) reduced ha
    · cases hacc.eq rest
    · cases hnil

/-- Nothing is written before the first token. -/
theorem length_le_of_mem_suppliedAt {cs : List Char} (h : (run fuel (ofText cs)).1 = .ok d)
    (hrest : cs = gap ++ rest) (hf : Gap.Fills gap rest) (hn : Gap.extent? rest = none) :
    ∀ p ∈ suppliedAt fuel (ofText cs), gap.length ≤ p := by
  intro p hp
  obtain rfl | hne := eq_or_ne rest []
  · have hend : Gap.Fills (ofText cs).cursor.rest [] := by
      rw [List.append_nil] at hrest
      exact hrest ▸ hf
    obtain hacc | ⟨t, -, hrefuse, -⟩ := finished_cases (scan_of_fills_nil hend) h
    · rw [suppliedAt_of_done (step_of_accepted hend hacc)] at hp
      cases hp
    · exact absurd hrefuse (not_refused_of_nil (terminal_finishToken _))
  · obtain ⟨m, r₁, rfl, hstep, hrun⟩ | ⟨r₁, hstep⟩ := run_cases h
    · obtain ⟨a, n, hadv, hpass⟩ :=
        step_cases .nil (poised_ofText cs) hrest hf hn hne hstep
      have hlen := (length_of_first? hpass.exists_fed.choose_spec.found).2
      have hplaces := (writes_of_run hrun (hpass.stacked .nil) (hpass.poised hadv)).2.1
      rw [(hadv.rest_start hrest hlen).2.1] at hplaces
      have hahead : placeAhead (ofText cs).cursor = 0 + gap.length :=
        placeAhead_of_fills hrest hf hn hne
      have hcases : p = 0 + gap.length ∨ p ∈ suppliedAt m r₁ := by
        rw [suppliedAt, hstep] at hp
        dsimp only at hp
        split_ifs at hp
        · exact .inr hp
        · rw [hahead] at hp
          exact List.mem_cons.1 hp
      obtain rfl | hp := hcases
      · omega
      · have hp := hplaces p hp
        have : (ofText cs).cursor.start = 0 := rfl
        omega
    · exact absurd hstep (step_ne_done hrest hf hn hne)

end Reader

open Reader Text

theorem maskHashbang_writeAt {places : List Nat} {cs : List Char}
    (h : ['#', '!'] <+: cs → ∀ p ∈ places, 2 ≤ p) :
    maskHashbang (writeAt places 0 cs) = writeAt places 0 (maskHashbang cs) := by
  by_cases hcs : ['#', '!'] <+: cs
  · obtain ⟨rest, rfl⟩ := hcs
    have hp := h ⟨rest, rfl⟩
    have hzero : 0 ∉ places := fun h0 => absurd (hp 0 h0) (by decide)
    have hone : 1 ∉ places := fun h1 => absurd (hp 1 h1) (by decide)
    simp [writeAt, maskHashbang, hzero, hone]
  · have hid : ∀ ds : List Char, ¬ ['#', '!'] <+: ds → maskHashbang ds = ds := by
      intro ds hds
      unfold maskHashbang
      split
      · exact absurd ⟨_, rfl⟩ hds
      · rfl
    rw [hid cs hcs, hid]
    rintro hbad
    apply hcs
    obtain _ | ⟨c, _ | ⟨e, cs⟩⟩ := cs
    · by_cases h0 : 0 ∈ places <;> simp [writeAt, h0] at hbad
    · by_cases h0 : 0 ∈ places <;> by_cases h1 : 1 ∈ places <;> simp [writeAt, h0, h1] at hbad
    · by_cases h0 : 0 ∈ places <;> by_cases h1 : 1 ∈ places <;>
        simp [writeAt, h0, h1] at hbad ⊢
      exact hbad

/-- The places in a text at which semicolons are supplied when it is read. -/
def semicolonsOf (text : String) : List Nat :=
  suppliedAt (text.toList.length + 3) (ofText (maskHashbang text.toList))

/-- A text with all semicolons written that are supplied when it is read. -/
def withSemicolons (text : String) : String :=
  String.ofList (writeAt (semicolonsOf text) 0 text.toList)

theorem length_maskHashbang (cs : List Char) : (maskHashbang cs).length = cs.length := by
  unfold maskHashbang
  split <;> rfl

/-- A text with its semicolons written is read to the same tree as the text, and no semicolon is
supplied any more. As many are written as were supplied. -/
theorem parse_withSemicolons {file text : String} {t : Node} (h : (parse file text).result = .ok t) :
    (semicolonsOf text).length = (parse file text).insertions.length ∧
      (parse file (withSemicolons text)).insertions = [] ∧
      ∃ t', (parse file (withSemicolons text)).result = .ok t' ∧ t'.unplaced = t.unplaced := by
  obtain ⟨d, hread, htree⟩ := exists_derivation_of_parse h
  have hrun : (run (text.toList.length + 3) (ofText (maskHashbang text.toList))).1 = .ok d := by
    rwa [Reader.read, length_maskHashbang] at hread
  have hmask : maskHashbang (writeAt (semicolonsOf text) 0 text.toList) =
      writeAt (semicolonsOf text) 0 (maskHashbang text.toList) := by
    refine maskHashbang_writeAt fun hbang p hp => ?_
    obtain ⟨rest, hrest⟩ := hbang
    obtain ⟨gap, after, hsplit, hf, hn⟩ := Gap.exists_fills (maskHashbang text.toList)
    have hgap := length_le_of_mem_suppliedAt hrun hsplit hf hn p hp
    refine le_trans ?_ hgap
    rw [← hrest] at hsplit
    cases hf with
    | nil =>
      rw [List.nil_append] at hsplit
      rw [← hsplit] at hn
      cases (Gap.extent?_line rest).symm.trans hn
    | @cons piece gap _ extent tail =>
      rw [← List.append_assoc, ← hsplit] at extent
      have := (Gap.extent?_line rest).symm.trans extent
      simp only [Option.some.injEq] at this
      simp
      omega
  obtain ⟨hwrites, -, hcount⟩ := writes_of_run hrun .nil (poised_ofText _)
  obtain ⟨d', r', hrun', halike, hsilent⟩ := hwrites.read (poised_ofText _) (keeps_ofText _
    (writeAt (semicolonsOf text) 0 (maskHashbang text.toList))) rfl
    (Nat.lt_add_of_pos_right (by decide : 0 < 3))
  obtain ⟨t', htree', hsame⟩ := Build.tree_alike (derives_of_read hread) halike htree
  have hread' : Reader.read (maskHashbang (withSemicolons text).toList) = (.ok d', r') := by
    rw [withSemicolons, String.toList_ofList, hmask]
    exact hrun'
  refine ⟨?_, ?_, t', ?_, hsame⟩
  · rw [parse]
    dsimp only
    rw [List.length_reverse, Reader.read, length_maskHashbang, hcount]
    exact (Nat.zero_add _).symm
  · rw [parse, hread']
    dsimp only
    rw [hsilent]
    rfl
  · rw [parse, hread']
    dsimp only
    rw [htree']

/-- Semicolons are left out before `++`, before a keyword, after `return`, before a brace and at the
end. -/
def unterminated : String :=
  "a\n++b\nif(c)\x7breturn\nd\x7de"

theorem withSemicolons_unterminated :
    (parse unnamedFile unterminated).result.toOption.isSome = true ∧
      withSemicolons unterminated = "a\n;++b\n;if(c)\x7breturn\n;d;\x7de;" := by
  decide +kernel

theorem parse_withSemicolons_unterminated :
    (parse unnamedFile unterminated).insertions.length = 5 ∧
      (parse unnamedFile "a\n;++b\n;if(c)\x7breturn\n;d;\x7de;").insertions = [] ∧
      ∃ t t', (parse unnamedFile unterminated).result = .ok t ∧
        (parse unnamedFile "a\n;++b\n;if(c)\x7breturn\n;d;\x7de;").result = .ok t' ∧
        t'.unplaced = t.unplaced := by
  obtain ⟨hok, hwritten⟩ := withSemicolons_unterminated
  obtain ⟨t, ht⟩ := Option.isSome_iff_exists.1 hok
  have hparse := eq_ok_of_toOption ht
  obtain ⟨-, hsilent, t', ht', hsame⟩ := parse_withSemicolons hparse
  rw [hwritten] at hsilent ht'
  exact ⟨by decide +kernel, hsilent, t, t', hparse, ht', hsame⟩

end Debundle
