import Debundle.Proofs.Reading.Steps
import Debundle.Proofs.Reading.Supplied
import Debundle.Proofs.Token.Followers

/-!
# Supplied semicolons

A step that takes a token supplies at most one semicolon, before that token. It would have taken
the same token after that semicolon, had it stood in the text (`step_cases`): the semicolon does
the same to the stack, and the token is found as one of the same class.
-/
namespace Debundle.Reader

open Automaton Derivation

/-! ## Line ends that count -/

/-- A line end before a token counts: a semicolon is supplied there, or the reading stops. -/
def Breaks (r : Reader) (a : Token) : Prop :=
  ∃ p, r.previous = some p ∧ a.afterLineEnd = true ∧
    (isRestricted p.terminal = true ∧ a.terminal ≠ .semicolon ∨
      isRestricted p.terminal = false ∧ (a.text = "++" ∨ a.text = "--") ∧
        endsOperand p.terminal = true ∧ r.accepts .semicolon = true ∧ r.accepts .kwReturn = false)

/-- The reader after it supplied a semicolon before a token. -/
def supply (r : Reader) (a : Token) (stack : List Frame) : Reader :=
  { r with stack := stack, insertions := ⟨a.terminal, a.line⟩ :: r.insertions }

section

variable {r r₁ : Reader} {a a₁ : Token}

theorem prepare_of_not_breaks (h : ¬ r.Breaks a) : r.prepare a = .ready a r := by
  unfold prepare
  split
  · rfl
  · rename_i p hp
    split_ifs with hline hres hsemi hthrow hmark
    · rfl
    · rfl
    · exact absurd ⟨p, hp, by simpa using hline, .inl ⟨hres, hsemi⟩⟩ h
    · exact absurd ⟨p, hp, by simpa using hline, .inl ⟨hres, hsemi⟩⟩ h
    · refine absurd ⟨p, hp, by simpa using hline, .inr ⟨by simpa using hres, ?_⟩⟩ h
      simpa [and_assoc] using hmark
    · rfl

/-- A semicolon is supplied where a line end counts: after `return`, `break` and `continue`, where
a name may turn out to be a keyword, and before `++` and `--`. -/
theorem ready_cases (h : r.prepare a = .ready a₁ r₁) :
    (¬ r.Breaks a ∧ a₁ = a ∧ r₁ = r) ∨
      ∃ p s, r.previous = some p ∧ a.afterLineEnd = true ∧
        Feeds (semicolonAt a) r.stack (.shifted s) ∧ r₁ = r.supply a s ∧
        (p.terminal ∈ [Terminal.kwReturn, .kwBreak, .kwContinue] ∧ a₁ = r₁.asKeyword a ∨
          (a.text = "++" ∨ a.text = "--") ∧ a₁ = a) := by
  by_cases hbreaks : r.Breaks a
  · obtain ⟨p, hp, hline, hcase⟩ := hbreaks
    refine .inr ⟨p, ?_⟩
    unfold prepare at h
    rw [hp] at h
    dsimp only at h
    rw [if_neg (by simp [hline])] at h
    obtain ⟨hres, hsemi⟩ | ⟨hres, htext, hends, haccept, hreturn⟩ := hcase
    · rw [if_pos hres, if_neg hsemi] at h
      split_ifs at h with hthrow
      split at h <;> cases h
      rename_i hins
      obtain ⟨s, hs, rfl⟩ := insert_eq_next_iff.1 hins
      refine ⟨s, hp, hline, hs, rfl, .inl ⟨?_, rfl⟩⟩
      simpa [isRestricted, hthrow] using hres
    · rw [if_neg (by simp [hres]), if_pos (by simp [htext, hends, haccept, hreturn])] at h
      split at h <;> cases h
      rename_i hins
      obtain ⟨s, hs, rfl⟩ := insert_eq_next_iff.1 hins
      exact ⟨s, hp, hline, hs, rfl, .inr ⟨htext, rfl⟩⟩
  · rw [prepare_of_not_breaks hbreaks] at h
    cases h
    exact .inl ⟨hbreaks, rfl, rfl⟩

/-! ## Tokens after a supplied semicolon -/

/-- The last token stands on top of the stack, which is empty before the first one. -/
def Poised (r : Reader) : Prop :=
  (r.previous = none ∧ r.stack = []) ∨
    ∃ p q below, r.previous = some p ∧ r.stack = ⟨q, .leaf p⟩ :: below ∧
      action? (topState below) p.terminal = some (.shift q)

/-- A token at the start of a text is found on a stack and shifted. -/
structure Takes (s t : List Frame) (rest : List Char) (a : Token) (n : Nat) : Prop where
  found : Lexeme.first? (Automaton.accepts (topState s)) rest = some (a.terminal, n)
  fed : Feeds a s (.shifted t)

variable {b : Token} {s t u : List Frame} {rest : List Char} {n : Nat}

theorem mem_followers_of_feeds {x : Terminal} (hb : b.terminal = .semicolon)
    (h : Feeds b s (.shifted t)) (hx : Automaton.accepts (topState t) x = true) : x ∈ followers := by
  obtain ⟨q, below, rfl, hq⟩ := h.top_of_shifted
  exact mem_followers (hb ▸ hq) hx

theorem takes_of_refused (hp : r.Poised)
    (hfirst : Lexeme.first? r.accepts rest = some (a.terminal, n))
    (hrefuse : Feeds a r.stack (.refused u)) (hb : b.terminal = .semicolon)
    (hsemi : Feeds b r.stack (.shifted s)) (hfeed : Feeds a s (.shifted t)) :
    Takes s t rest a n := by
  have hfinish := ne_finish_of_first? hfirst
  obtain ⟨i, hi⟩ := hrefuse.exists_reduce (Lexeme.exists_reader hfirst).1
  have hplace : action? (topState r.stack) .semicolon ≠ none := by
    obtain ⟨move, hmove⟩ := hsemi.exists_action
    rw [← hb, hmove]
    nofun
  refine ⟨Lexeme.first?_of_followers hfirst hfeed.accepts
    (fun x => mem_followers_of_feeds hb hsemi) fun x hx hx' => ?_, hfeed⟩
  have hfollow := mem_followers_of_feeds hb hsemi hx'
  obtain ⟨-, hnil⟩ | ⟨p, q, below, -, hstack, hq⟩ := hp
  · rw [hnil] at hi
    obtain ⟨q, hq⟩ := shift_of_first hi hfinish
    cases hq
  · have htop : topState r.stack = q := by rw [hstack]; rfl
    rw [htop] at hi hplace
    obtain hacc | ⟨hup, hsign⟩ := accepts_of_rivals hq hplace hi hx hfollow
    · rwa [Reader.accepts, state, htop]
    · -- a sign after an operand is not refused
      have hsigns := takesSigns_of_shift hq hup hplace
      exact absurd hrefuse (not_refused_of_takesSigns (htop.symm ▸ hsigns) hsign)

theorem takes_of_stuck (hfirst : Lexeme.first? (fun _ => true) rest = some (a.terminal, n))
    (hb : b.terminal = .semicolon) (hsemi : Feeds b r.stack (.shifted s))
    (hfeed : Feeds a s (.shifted t)) : Takes s t rest a n :=
  ⟨Lexeme.first?_of_followers hfirst hfeed.accepts (fun _ => mem_followers_of_feeds hb hsemi)
    fun _ _ _ => rfl, hfeed⟩

theorem terminal_asKeyword (ha : a.terminal = .name) : (r.asKeyword a).terminal =
    (Lexeme.keywordOf? r.accepts a.text.toList).getD .name := by
  have hfind : (Terminal.keywords.find? fun k => r.accepts k.1 && decide (a.text ∈ k.2)) =
      Terminal.keywords.find? fun k =>
        decide (a.text.toList ∈ k.2.map String.toList) && r.accepts k.1 := by
    refine List.find?_congr fun k _ => ?_
    rw [Bool.and_comm]
    simp [String.toList_inj]
  unfold asKeyword
  rw [if_pos ha, hfind, Lexeme.keywordOf?]
  split
  · rename_i k hk
    rw [hk]
    rfl
  · rename_i hk
    rw [hk]
    exact ha

theorem takes_of_restricted {p : Token} {below : List Frame} {q : Nat}
    (hq : action? (topState below) p.terminal = some (.shift q))
    (hp : p.terminal ∈ [Terminal.kwReturn, .kwBreak, .kwContinue])
    (hstack : r.stack = ⟨q, .leaf p⟩ :: below) (htext : a.text = String.ofList (rest.take n))
    (hfirst : Lexeme.first? r.accepts rest = some (a.terminal, n)) (hb : b.terminal = .semicolon)
    (hsemi : Feeds b r.stack (.shifted r₁.stack)) (hfeed : Feeds (r₁.asKeyword a) r₁.stack (.shifted t)) :
    Takes r₁.stack t rest (r₁.asKeyword a) n := by
  refine ⟨?_, hfeed⟩
  have hfollow : ∀ x, r₁.accepts x = true → x ∈ followers := fun x => mem_followers_of_feeds hb hsemi
  by_cases hname : a.terminal = .name
  · rw [hname] at hfirst
    have hword : a.text.toList = Lexeme.wordOf rest := by
      rw [htext, String.toList_ofList, Lexeme.length_of_name hfirst]
      exact (List.prefix_iff_eq_take.1 (List.takeWhile_prefix _)).symm
    have hown := hfeed.accepts
    rw [terminal_asKeyword hname, hword] at hown ⊢
    exact Lexeme.first?_of_name hfirst hfollow hown
  · have hsame : r₁.asKeyword a = a := if_neg hname
    rw [hsame] at hfeed ⊢
    refine Lexeme.first?_of_followers hfirst hfeed.accepts hfollow fun x hx _ => ?_
    have htop : topState r.stack = q := by rw [hstack]; rfl
    have hsign : isSign a.terminal = true := by
      cases hterm : a.terminal with
      | name => exact absurd hterm hname
      | plus | minus => rfl
      | _ => rw [hterm] at hx; cases hx
    have hplace : action? q a.terminal ≠ none := by
      have := (Lexeme.exists_reader hfirst).1
      rw [Reader.accepts, state, htop] at this
      exact action?_ne_none_of_accepts this (ne_finish_of_first? hfirst)
    rw [Reader.accepts, state, htop]
    exact accepts_of_restricted hq hp hsign hplace hx

theorem shifted_of_give (hs : Stacked r.stack) (ha : a.terminal ≠ .finish)
    (hopen : topState r.stack ≠ acceptState)
    (hclose : closesStatement (topState r.stack) = true ∨
      ∃ x, action? (topState r.stack) a.terminal = some (.shift x)) (h : r.give a = .next r₁) :
    ∃ t, Feeds a r.stack (.shifted t) ∧ r₁ = { r with stack := t, previous := some a } := by
  refine (give_eq_next_iff.1 h).resolve_right ?_
  rintro ⟨u, hrefuse, hrec⟩
  obtain ⟨-, s, t, hsemi, hfeed, -⟩ := (recover_eq_next_iff ha).1 hrec
  obtain hclose | ⟨x, hx⟩ := hclose
  · obtain ⟨v, hv⟩ := hrefuse.refused_again hs hclose hopen rfl hsemi hfeed
    cases hv
  · cases hrefuse.eq (.shift hx)

/-! ## Steps -/

/-- A step takes a token at a place in the text. -/
structure Advances (r₁ : Reader) (place : Cursor) (a : Token) (n : Nat) : Prop where
  cursor : r₁.cursor = place.advance n
  previous : r₁.previous = some a
  text : a.text = String.ofList (place.rest.take n)
  line : a.afterLineEnd = Gap.lineEndBehind none place.before

/-- How a token is passed: as it stands, or after a semicolon that is supplied. -/
inductive Passes (r r₁ : Reader) (rest : List Char) (a : Token) (n : Nat) : Prop
  | plain (takes : Takes r.stack r₁.stack rest a n) (calm : ¬ r.Breaks a)
      (same : r₁.insertions = r.insertions)
  | supplied {b : Token} {s : List Frame} {i : Insertion} (mark : b.terminal = .semicolon)
      (spelling : b.text = ";") (fed : Feeds b r.stack (.shifted s))
      (takes : Takes s r₁.stack rest a n) (due : a.terminal = .rbrace ∨ a.afterLineEnd = true)
      (more : r₁.insertions = i :: r.insertions)

theorem previous_of_give (ha : a.terminal ≠ .finish) (h : r.give a = .next r₁) :
    r₁.previous = some a := by
  obtain ⟨t, -, rfl⟩ | ⟨u, -, hrec⟩ := give_eq_next_iff.1 h
  · rfl
  · obtain ⟨-, s, t, -, -, rfl⟩ := (recover_eq_next_iff ha).1 hrec
    rfl

variable {gap : List Char}

theorem Passes.of_after {place : Cursor} {t : Terminal} {m : Nat}
    (h : Passes (r.after place t m) r₁ rest a n) : Passes r r₁ rest a n := by
  cases h with
  | plain takes calm same => exact .plain takes calm same
  | supplied mark spelling fed takes due more => exact .supplied mark spelling fed takes due more

theorem passes_of_give (hs : Stacked r.stack) (hp : r.Poised)
    (hfirst : Lexeme.first? r.accepts rest = some (a.terminal, n)) (hcalm : ¬ r.Breaks a)
    (h : r.give a = .next r₁) : Passes r r₁ rest a n := by
  have ha := ne_finish_of_first? hfirst
  obtain ⟨t, hfeed, rfl⟩ | ⟨u, hrefuse, hrec⟩ := give_eq_next_iff.1 h
  · exact .plain ⟨hfirst, hfeed⟩ hcalm rfl
  · obtain ⟨hmay, s, t, hsemi, hfeed, rfl⟩ := (recover_eq_next_iff ha).1 hrec
    obtain hsemi' | hagain := hrefuse.supply hs rfl hsemi
    · exact .supplied rfl rfl hsemi' (takes_of_refused hp hfirst hrefuse rfl hsemi' hfeed)
        (hmay.2.2.resolve_left ha) rfl
    · obtain ⟨v, hv⟩ := hagain _ hfeed
      cases hv

theorem passes_of_supply {p : Token} {s : List Frame} (hs : Stacked r.stack) (hp : r.Poised)
    (htext : a.text = String.ofList (rest.take n))
    (hfirst : Lexeme.first? r.accepts rest = some (a.terminal, n)) (hprev : r.previous = some p)
    (hline : a.afterLineEnd = true) (hsemi : Feeds (semicolonAt a) r.stack (.shifted s))
    (hcase : p.terminal ∈ [Terminal.kwReturn, .kwBreak, .kwContinue] ∧
        a₁ = (r.supply a s).asKeyword a ∨ (a.text = "++" ∨ a.text = "--") ∧ a₁ = a)
    (h : (r.supply a s).give a₁ = .next r₁) : Passes r r₁ rest a₁ n := by
  have hfinish := ne_finish_of_first? hfirst
  have hstacked : Stacked s := hsemi.stacked hs
  obtain ⟨x, below, htop, hx⟩ := hsemi.top_of_shifted
  have hstate : topState s = x := by rw [htop]; rfl
  have hopen : topState s ≠ acceptState := hstate ▸ ne_acceptState_of_shift hx
  obtain ⟨hrestricted, rfl⟩ | ⟨hupdate, rfl⟩ := hcase
  · obtain ⟨hnone, -⟩ | ⟨p', q, under, hprev', hstack, hq⟩ := hp
    · cases hnone.symm.trans hprev
    obtain rfl : p' = p := Option.some.inj (hprev'.symm.trans hprev)
    have hcast := recast_asKeyword (r.supply a s) a
    obtain ⟨y, hy, hclose⟩ := closesStatement_of_restricted hq hrestricted
    have hmove : action? (topState r.stack) .semicolon = some (.shift y) := by rwa [hstack]
    have heq : Feed.shifted s = _ := hsemi.eq (.shift hmove)
    cases heq
    obtain ⟨t, hfeed, rfl⟩ := shifted_of_give (r := r.supply a _) hstacked
      (hcast.finish hfinish) hopen (.inl hclose) h
    have htakes : Takes (r.supply a _).stack t rest ((r.supply a _).asKeyword a) n :=
      takes_of_restricted hq hrestricted hstack htext hfirst rfl hsemi hfeed
    exact .supplied rfl rfl hsemi htakes (.inr (hcast.line.trans hline)) rfl
  · have hup : isUpdate a₁.terminal = true := by
      refine Lexeme.isUpdate_of_take hfirst (hupdate.imp (fun h => ?_) fun h => ?_)
      · simpa [String.toList_ofList] using congrArg String.toList (htext.symm.trans h)
      · simpa [String.toList_ofList] using congrArg String.toList (htext.symm.trans h)
    obtain ⟨t, hfeed, rfl⟩ := shifted_of_give (r := r.supply a₁ s) hstacked hfinish hopen
      (by
        change closesStatement (topState s) = true ∨ _
        rw [hstate]
        exact (closesStatement_or hx).imp id fun hshift => hstate.symm ▸ hshift _ hup) h
    refine .supplied rfl rfl hsemi ⟨Lexeme.first?_of_followers hfirst hfeed.accepts
      (fun _ => mem_followers_of_feeds rfl hsemi) fun x hx' => ?_, hfeed⟩ (.inr hline) rfl
    simp only [isUpdate, Bool.or_eq_true, decide_eq_true_eq] at hup
    obtain hup | hup := hup <;> rw [hup] at hx' <;> cases hx'

theorem step_cases (hs : Stacked r.stack) (hp : r.Poised) (hrest : r.cursor.rest = gap ++ rest)
    (hf : Gap.Fills gap rest) (hn : Gap.extent? rest = none) (hne : rest ≠ [])
    (h : r.step = .next r₁) :
    ∃ a n, Advances r₁ (r.cursor.advance gap.length) a n ∧ Passes r r₁ rest a n := by
  have hplace : (r.cursor.advance gap.length).rest = rest := Cursor.rest_advance hrest
  obtain ⟨t, n, a, r₀, hfirst, hready, hgive⟩ | ⟨t, n, hnone, hfirst, hrec⟩ :=
    (step_eq_next_iff hrest hf hn hne).1 h
  · have hfinish := ne_finish_of_first? hfirst
    obtain ⟨hcursor, hcast⟩ := prepare_cases hready
    have hpass : Passes (r.after (r.cursor.advance gap.length) t n) r₁ rest a n := by
      obtain ⟨hcalm, rfl, rfl⟩ | ⟨p, s, hprev, hline, hsemi, rfl, hcase⟩ := ready_cases hready
      · exact passes_of_give (r := r.after _ t n) hs hp hfirst hcalm hgive
      · have htext : ((r.cursor.advance gap.length).token t n).text =
            String.ofList (rest.take n) := by rw [Cursor.token, hplace]
        exact passes_of_supply (r := r.after _ t n) hs hp htext hfirst hprev hline hsemi hcase hgive
    refine ⟨a, n, ⟨?_, previous_of_give (hcast.finish hfinish) hgive, hcast.text, hcast.line⟩,
      hpass.of_after⟩
    rw [cursor_of_give hgive (hcast.finish hfinish), hcursor]
    rfl
  · have hfinish := ne_finish_of_first? hfirst
    obtain ⟨hmay, s, t, hsemi, hfeed, rfl⟩ := (recover_eq_next_iff hfinish).1 hrec
    refine ⟨(r.cursor.advance gap.length).token _ n, n, ⟨rfl, rfl, rfl, rfl⟩, ?_⟩
    exact .supplied rfl rfl hsemi (takes_of_stuck hfirst rfl hsemi hfeed)
      (hmay.2.2.resolve_left hfinish) rfl

theorem Passes.stacked (h : Passes r r₁ rest a n) (hs : Stacked r.stack) : Stacked r₁.stack := by
  cases h with
  | plain takes => exact takes.fed.stacked hs
  | supplied mark spelling fed takes => exact takes.fed.stacked (fed.stacked hs)

theorem Passes.exists_fed (h : Passes r r₁ rest a n) :
    ∃ s, Takes s r₁.stack rest a n := by
  cases h with
  | plain takes => exact ⟨_, takes⟩
  | supplied mark spelling fed takes => exact ⟨_, takes⟩

theorem Passes.poised {place : Cursor} (h : Passes r r₁ rest a n)
    (hadv : Advances r₁ place a n) : r₁.Poised := by
  obtain ⟨s, takes⟩ := h.exists_fed
  obtain ⟨q, below, hstack, hq⟩ := takes.fed.top_of_shifted
  exact .inr ⟨a, q, below, hadv.previous, hstack, hq⟩

end

end Debundle.Reader
