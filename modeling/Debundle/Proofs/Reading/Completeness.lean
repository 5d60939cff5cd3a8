import Debundle.Proofs.Reading.Soundness
import Debundle.Proofs.Token.Scan

/-!
# The reader finds derivations

`Reads s d x y` says that the reader, with the text `x` ahead of it, reads a derivation like `d`
of the symbol `s` and then has the text `y` ahead. A token is read where it stands in the text
(`reads_leaf`), a rule where its body is read (`reads_node`), and a program that is read to the
end of a text is what `Reader.read` returns (`read_of_reads`).
-/
namespace Debundle

/-- Derivations that differ only in the places of their tokens. -/
inductive Derivation.Alike : Derivation → Derivation → Prop
  | leaf {a b : Token} (tokens : a.Alike b) : Alike (.leaf a) (.leaf b)
  | node {i : Nat} {ds es : List Derivation} (parts : List.Forall₂ Alike ds es) :
      Alike (.node i ds) (.node i es)

namespace Automaton

/-- A token has a place in a state, and no other class takes its text there. -/
def Admits (state : Nat) (a : Token) : Prop :=
  a.Unrivalled (accepts state)

theorem accepts_of_action? {state : Nat} {t : Terminal} {move : Action}
    (h : action? state t = some move) : accepts state t = true := by
  rw [accepts, h]
  rfl

/-- Whether a rule is complete before a terminal: it has no continuation with that terminal, and
a slash after the body of a function could be taken for a regular expression. -/
def mayPrecede (rule : Nat) (t : Terminal) : Bool :=
  extension? rule != some t && !(endsFunction rule && isSlash t)

theorem Admits.of_shift {p q : Nat} {a : Token} (h : action? p a.terminal = some (.shift q))
    (hw : a.spellsKeyword = true → takesAnyWord p = true) : Admits p a where
  own := accepts_of_action? h
  slash hs := by
    by_contra hr
    obtain ⟨rule, -, hrule⟩ :=
      endsFunction_of_accepts (Bool.of_not_eq_false hr) (accepts_of_action? h) hs
    rw [h] at hrule
    cases hrule
  word hk k hmem := by
    have := hw hk
    rw [takesAnyWord, Bool.and_eq_true, List.all_eq_true] at this
    simpa using this.2 k hmem

theorem Admits.of_reduce {p q k i : Nat} {n : Nonterminal} {b : Token} (h : Admits q b)
    (hq : goto? p n = some q) (hk : action? k b.terminal = some (.reduce i))
    (hi : mayPrecede i b.terminal = true) : Admits k b where
  own := accepts_of_action? hk
  slash hs := by
    by_contra hr
    obtain ⟨rule, hend, hrule⟩ :=
      endsFunction_of_accepts (Bool.of_not_eq_false hr) (accepts_of_action? hk) hs
    rw [hk] at hrule
    cases hrule
    simp [mayPrecede, hend, hs] at hi
  word hw := by
    -- a nonterminal never leads to a state that takes such a name
    have hno := takesAnyWord_of_goto hq
    have hname : b.terminal = .name := by
      rw [Token.spellsKeyword, Bool.and_eq_true] at hw
      simpa using hw.1
    have hown := h.own
    have hall := h.word hw
    rw [hname] at hown
    rw [takesAnyWord, hown, Bool.true_and, ← Bool.not_eq_true, List.all_eq_true] at hno
    exact absurd (fun k hk => by simp [hall k hk]) hno

end Automaton

namespace Derivation

open Automaton

/-- A stack becomes another one by the reductions that come before a terminal. -/
inductive Reduces (t : Terminal) : List Frame → List Frame → Prop
  | refl (s : List Frame) : Reduces t s s
  | step {s s' s'' : List Frame} {i : Nat} (move : action? (topState s) t = some (.reduce i))
      (reduced : reduce? i s = some s') (rest : Reduces t s' s'') : Reduces t s s''

theorem Reduces.trans {t : Terminal} {s s' s'' : List Frame} (h : Reduces t s s')
    (h' : Reduces t s' s'') : Reduces t s s'' := by
  induction h with
  | refl s => exact h'
  | step move reduced rest ih => exact .step move reduced (ih h')

theorem Reduces.feeds {a : Token} {s s' : List Frame} {o : Feed} (h : Reduces a.terminal s s')
    (h' : Feeds a s' o) : Feeds a s o := by
  induction h with
  | refl s => exact h'
  | step move reduced rest ih => exact .reduce move reduced (ih h')

theorem Reduces.feed_shift {a : Token} {s s' : List Frame} {q : Nat}
    (h : Reduces a.terminal s s') (hq : action? (topState s') a.terminal = some (.shift q)) :
    feed a s = .shifted (⟨q, .leaf a⟩ :: s') :=
  feed_eq_of_feeds (h.feeds (.shift hq))

end Derivation

/-- What lies ahead of the reader: the text, and the token with which it begins. -/
structure Ahead where
  text : List Char
  next : Token

namespace Reader

open Derivation Automaton

/-- Some steps of the reader, each of which takes a token. -/
inductive Reaches : Reader → Reader → Prop
  | refl (r : Reader) : Reaches r r
  | step {r r' r'' : Reader} (step : r.step = .next r')
      (shorter : r'.cursor.rest.length < r.cursor.rest.length) (rest : Reaches r' r'') :
      Reaches r r''

theorem Reaches.trans {r r' r'' : Reader} (h : Reaches r r') (h' : Reaches r' r'') :
    Reaches r r'' := by
  induction h with
  | refl r => exact h'
  | step step shorter rest ih => exact .step step shorter (ih h')

theorem run_of_reaches {r r' : Reader} (h : Reaches r r') (n : Nat) :
    ∃ m, run (r.cursor.rest.length + n) r = run (r'.cursor.rest.length + m) r' ∧ n ≤ m := by
  induction h generalizing n with
  | refl r => exact ⟨n, rfl, Nat.le_refl n⟩
  | @step r r' r'' step shorter rest ih =>
    obtain ⟨m, hm, hn⟩ := ih (r.cursor.rest.length + n - 1 - r'.cursor.rest.length)
    refine ⟨m, ?_, by omega⟩
    rw [← hm, show r.cursor.rest.length + n = r.cursor.rest.length + n - 1 + 1 by omega, run, step]
    dsimp only
    congr 1
    omega

/-- Whether a line end between two tokens would count. -/
def heedsLine (a b : Token) : Bool :=
  isRestricted a.terminal || ((b.text = "++" || b.text = "--") && endsOperand a.terminal)

theorem prepare_of_calm {r : Reader} {b : Token}
    (h : ∀ a, r.previous = some a → heedsLine a b = true → b.afterLineEnd = false) :
    r.prepare b = .ready b r := by
  unfold prepare
  split
  · rfl
  · rename_i a ha
    by_cases hl : b.afterLineEnd = true
    · have hno : heedsLine a b = false := by
        by_contra hh
        rw [h a ha (Bool.of_not_eq_false hh)] at hl
        cases hl
      simp only [heedsLine, Bool.or_eq_false_iff] at hno
      rw [if_neg (by simp [hl]), if_neg (by simp [hno.1]), if_neg (by simp_all)]
    · rw [if_pos (by simpa using hl)]

/-- The blanks before the next token. -/
def gapOf (cs : List Char) : List Char :=
  cs.takeWhile Gap.isGapBlank

/-- The reader has a text ahead of it, and once it looks at the next token its stack becomes
`stack`. -/
structure Awaits (r : Reader) (stack : List Frame) (x : Ahead) : Prop where
  rest : r.cursor.rest = x.text
  reduces : Reduces x.next.terminal r.stack stack
  admits : Admits (topState r.stack) x.next
  calm : ∀ a, r.previous = some a → heedsLine a x.next = true →
    Gap.lineEndBehind none ((gapOf x.text).reverse ++ r.cursor.before) = false
  fresh : ∀ p ∈ r.patched, p.2 < r.cursor.start

end Reader

open Reader Automaton Derivation

/-- No line end counts between a token and what lies ahead after it. -/
def Token.Joins (a : Token) (x : Ahead) : Prop :=
  heedsLine a x.next = true → ∀ before,
    Gap.lineEndBehind none ((gapOf x.text).reverse ++ (a.text.toList.reverse ++ before)) = false

/-- Ahead lies a token, and after it what `y` says. -/
structure Ahead.Steps (x y : Ahead) : Prop where
  text : ∃ gap, x.text = gap ++ (x.next.text.toList ++ y.text) ∧
    ∀ c ∈ gap, Gap.isGapBlank c = true
  leads : x.next.Leads y.text
  joins : x.next.Joins y

/-- From every state in which the reader may read a symbol, it reads a derivation of it. -/
structure Reads (s : GrammarSymbol) (d : Derivation) (x y : Ahead) : Prop where
  starts : ∀ p q, next? p s = some q → Admits q y.next → Admits p x.next
  reads : ∀ r stack q, Awaits r stack x → next? (topState stack) s = some q →
    Admits q y.next → ∃ r' d', Reaches r r' ∧ d.Alike d' ∧ Awaits r' (⟨q, d'⟩ :: stack) y

/-- The same for the body of a rule. -/
structure ReadsAll (ss : List GrammarSymbol) (ds : List Derivation) (x y : Ahead) : Prop where
  length : ds.length = ss.length
  starts : ∀ p q, walk? p ss = some q → Admits q y.next → Admits p x.next
  reads : ∀ r stack q, Awaits r stack x → walk? (topState stack) ss = some q →
    Admits q y.next → ∃ r' frames, Reaches r r' ∧
      List.Forall₂ Alike ds (frames.reverse.map Frame.tree) ∧
      topState (frames ++ stack) = q ∧ Awaits r' (frames ++ stack) y

theorem readsAll_nil (x : Ahead) : ReadsAll [] [] x x where
  length := rfl
  starts p q h ha := by cases h; exact ha
  reads r stack q hr h ha := by
    cases h
    exact ⟨r, [], .refl r, .nil, rfl, hr⟩

theorem readsAll_cons {s : GrammarSymbol} {ss : List GrammarSymbol} {d : Derivation}
    {ds : List Derivation} {x y z : Ahead} (h : Reads s d x y) (hs : ReadsAll ss ds y z) :
    ReadsAll (s :: ss) (d :: ds) x z where
  length := by rw [List.length_cons, List.length_cons, hs.length]
  starts p q hw ha := by
    obtain ⟨k, hk, hq⟩ := Option.bind_eq_some_iff.1 hw
    exact h.starts p k hk (hs.starts k q hq ha)
  reads r stack q hr hw ha := by
    obtain ⟨k, hk, hq⟩ := Option.bind_eq_some_iff.1 hw
    obtain ⟨r₁, d', hreach, halike, hr₁⟩ := h.reads r stack k hr hk (hs.starts k q hq ha)
    obtain ⟨r₂, frames, hreach', halikes, htop, hr₂⟩ := hs.reads r₁ _ q hr₁ hq ha
    refine ⟨r₂, frames ++ [⟨k, d'⟩], hreach.trans hreach', ?_, ?_, ?_⟩
    · rw [List.reverse_append, List.map_append]
      exact .cons halike halikes
    · rw [List.append_assoc]; exact htop
    · rw [List.append_assoc]; exact hr₂

theorem exists_end_of_rule {p q i : Nat} {r : Rule} {b : Token} (hr : Rule.all[i]? = some r)
    (hq : goto? p r.head = some q) (ha : Admits q b) (hi : mayPrecede i b.terminal = true) :
    ∃ k, walk? p r.body = some k ∧ action? k b.terminal = some (.reduce i) ∧ Admits k b := by
  have hext : extension? i ≠ some b.terminal := by
    have hi := hi
    rw [mayPrecede, Bool.and_eq_true, bne_iff_ne] at hi
    exact hi.1
  obtain ⟨k, hk, hact⟩ := reduce_of_goto hq hr
  have hred := hact _ ha.own hext
  exact ⟨k, hk, hred, ha.of_reduce hq hred hi⟩

theorem Reader.Awaits.reduce {rd : Reader} {frames stack : List Frame} {y : Ahead} {q i : Nat}
    {r : Rule} (h : Awaits rd (frames ++ stack) y) (hr : Rule.all[i]? = some r)
    (hlen : frames.length = r.body.length) (hq : goto? (topState stack) r.head = some q)
    (hred : action? (topState (frames ++ stack)) y.next.terminal = some (.reduce i)) :
    Awaits rd (⟨q, .node i (frames.reverse.map Frame.tree)⟩ :: stack) y where
  rest := h.rest
  reduces := h.reduces.trans (.step hred
    (reduce?_eq_some_iff.2 ⟨r, frames, stack, q, hr, rfl, hlen, hq, rfl⟩) (.refl _))
  admits := h.admits
  calm := h.calm
  fresh := h.fresh

theorem reads_node {i : Nat} {r : Rule} {parts : List Derivation} {x y : Ahead}
    (hr : Rule.all[i]? = some r) (h : ReadsAll r.body parts x y)
    (hi : mayPrecede i y.next.terminal = true) :
    Reads (.nonterminal r.head) (.node i parts) x y where
  starts p q hq ha := by
    obtain ⟨k, hk, -, hadm⟩ := exists_end_of_rule hr hq ha hi
    exact h.starts p k hk hadm
  reads rd stack q hrd hq ha := by
    obtain ⟨k, hk, hred, hadm⟩ := exists_end_of_rule hr hq ha hi
    obtain ⟨r', frames, hreach, halike, htop, haw⟩ := h.reads rd stack k hrd hk hadm
    have hlen : frames.length = r.body.length := by
      rw [← h.length, halike.length_eq, List.length_map, List.length_reverse]
    exact ⟨r', _, hreach, .node halike, haw.reduce hr hlen hq (htop ▸ hred)⟩

theorem Reader.Awaits.step {x y : Ahead} (h : x.Steps y) {r : Reader} {stack : List Frame} {q : Nat}
    (hr : Awaits r stack x) (hq : next? (topState stack) (.terminal x.next.terminal) = some q) :
    ∃ b c, r.step = .next ⟨⟨q, .leaf b⟩ :: stack, c, some b, some b, r.patched, r.insertions⟩ ∧
      x.next.Alike b ∧ c.rest = y.text ∧ c.rest.length < r.cursor.rest.length ∧
      (∃ before, c.before = x.next.text.toList.reverse ++ before) ∧ r.cursor.start ≤ c.start := by
  obtain ⟨gap, htext, hgap⟩ := h.text
  have hg : gapOf x.text = gap := by
    rw [gapOf, htext, List.takeWhile_append_of_pos hgap,
      Gap.head_of_extent?_eq_none h.leads.solid, List.append_nil]
  obtain ⟨b, c', hscan, hb, hline, hrest, hbefore, hstart⟩ :=
    Cursor.scan_of_leads (hr.rest.trans htext) hgap h.leads hr.admits
  have hready : prepare { r with cursor := c', last := some b } b =
      .ready b { r with cursor := c', last := some b } := by
    refine prepare_of_calm fun a hprev hh => ?_
    rw [hline, ← hg]
    refine hr.calm a hprev ?_
    rwa [heedsLine, hb.2]
  have hfeed : feed b r.stack = .shifted (⟨q, .leaf b⟩ :: stack) :=
    Reduces.feed_shift (hb.1 ▸ hr.reduces) (hb.1 ▸ next?_terminal.1 hq)
  refine ⟨b, c', ?_, hb, hrest, ?_, ⟨_, hbefore⟩, hstart⟩
  · have hscan : r.cursor.scan r.accepts = .token b c' := hscan
    rw [Reader.step, hscan]
    dsimp only
    rw [hready]
    dsimp only
    rw [give, hfeed]
  · have := List.length_pos_iff.2 h.leads.nonempty
    simp only [hrest, hr.rest, htext, List.length_append]
    omega

theorem reads_token {x y : Ahead} (h : x.Steps y) {r : Reader} {stack : List Frame} {q : Nat}
    (hr : Awaits r stack x) (hq : next? (topState stack) (.terminal x.next.terminal) = some q)
    (ha : Admits q y.next) :
    ∃ r' d', Reaches r r' ∧ Alike (.leaf x.next) d' ∧ Awaits r' (⟨q, d'⟩ :: stack) y := by
  obtain ⟨b, c, hstep, hb, hrest, hlen, ⟨before, hbefore⟩, hstart⟩ := hr.step h hq
  refine ⟨_, .leaf b, .step hstep hlen (.refl _), .leaf hb, hrest, .refl _, ha, ?_, ?_⟩
  · rintro a ⟨⟩ hh
    rw [hbefore]
    refine h.joins ?_ _
    rwa [heedsLine, hb.1]
  · exact fun p hp => Nat.lt_of_lt_of_le (hr.fresh p hp) hstart

theorem reads_leaf {x y : Ahead} (h : x.Steps y) (hw : x.next.spellsKeyword = false) :
    Reads (.terminal x.next.terminal) (.leaf x.next) x y where
  starts p q hq _ := .of_shift (next?_terminal.1 hq) (by simp [hw])
  reads _ _ _ hr hq ha := reads_token h hr hq ha

/-- The rules that read a name where it cannot be a keyword. -/
def Automaton.namesProperty (rule : Nat) : Bool :=
  rule = 175 || rule = 199

theorem Automaton.of_namesProperty {i : Nat} {r : Rule} (hr : Rule.all[i]? = some r)
    (hi : namesProperty i = true) : r.body = [.terminal .name] ∧
      (r.head = .propertyName ∨ r.head = .propertyKey) ∧ ∀ t, mayPrecede i t = true := by
  obtain ⟨h175, h199⟩ : Rule.all[175]? = some ⟨.propertyName, [.terminal .name], .word⟩ ∧
      Rule.all[199]? = some ⟨.propertyKey, [.terminal .name], .pass⟩ := by decide +kernel
  rw [namesProperty, Bool.or_eq_true, decide_eq_true_eq, decide_eq_true_eq] at hi
  obtain rfl | rfl := hi
  · obtain rfl := Option.some.inj (h175.symm.trans hr)
    exact ⟨rfl, .inl rfl, fun _ => rfl⟩
  · obtain rfl := Option.some.inj (h199.symm.trans hr)
    exact ⟨rfl, .inr rfl, fun _ => rfl⟩

theorem reads_propertyWord {i : Nat} {r : Rule} {x y : Ahead} (hr : Rule.all[i]? = some r)
    (hi : namesProperty i = true) (hname : x.next.terminal = .name) (h : x.Steps y) :
    Reads (.nonterminal r.head) (.node i [.leaf x.next]) x y := by
  obtain ⟨hbody, hhead, hmay⟩ := of_namesProperty hr hi
  have hshift : ∀ {p k : Nat}, walk? p r.body = some k →
      next? p (.terminal x.next.terminal) = some k := by
    intro p k hk
    rw [hbody, walk?, Option.bind_eq_some_iff] at hk
    obtain ⟨k', hk', ⟨⟩⟩ := hk
    rwa [hname]
  constructor
  · intro p q hq ha
    obtain ⟨k, hk, -, -⟩ := exists_end_of_rule hr hq ha (hmay _)
    have hact := next?_terminal.1 (hshift hk)
    exact .of_shift hact fun _ =>
      takesAnyWord_of_property hq hhead (accepts_of_action? (hname ▸ hact))
  · intro rd stack q hrd hq ha
    obtain ⟨k, hk, hred, hadm⟩ := exists_end_of_rule hr hq ha (hmay _)
    obtain ⟨r', d', hreach, halike, haw⟩ := reads_token h hrd (hshift hk) hadm
    exact ⟨r', _, hreach, .node (.cons halike .nil),
      @Awaits.reduce r' [⟨k, d'⟩] stack y q i r haw hr (by simp [hbody]) hq hred⟩

/-! ## Derivations and their tokens -/

namespace Derivation

/-- The class of the first of some tokens, or else of the one after them. -/
def firstClass (tokens : List Token) (after : Terminal) : Terminal :=
  ((tokens.head?).map Token.terminal).getD after

mutual

/-- Whether every part of a derivation may stand before what comes after it, and only properties
are spelled like keywords. -/
def clear : Derivation → Terminal → Bool
  | .leaf a, _ => !a.spellsKeyword
  | .node i parts, after => (namesProperty i || clearAll parts after) && mayPrecede i after

def clearAll : List Derivation → Terminal → Bool
  | [], _ => true
  | d :: ds, after => clear d (firstClass (leavesAll ds) after) && clearAll ds after

end

end Derivation

/-- Some tokens lead from one text ahead to another. -/
def Spells : List Token → Ahead → Ahead → Prop
  | [], x, y => x = y
  | a :: tokens, x, y => x.next = a ∧ ∃ z, x.Steps z ∧ Spells tokens z y

theorem spells_append {as bs : List Token} {x y : Ahead} :
    Spells (as ++ bs) x y ↔ ∃ z, Spells as x z ∧ Spells bs z y := by
  induction as generalizing x with
  | nil => simp [Spells]
  | cons a as ih =>
    simp only [List.cons_append, Spells, ih]
    constructor
    · rintro ⟨ha, z, hz, w, hw, hy⟩
      exact ⟨w, ⟨ha, z, hz, hw⟩, hy⟩
    · rintro ⟨w, ⟨ha, z, hz, hw⟩, hy⟩
      exact ⟨ha, z, hz, w, hw, hy⟩

theorem Spells.firstClass {tokens : List Token} {x y : Ahead} (h : Spells tokens x y) :
    firstClass tokens y.next.terminal = x.next.terminal := by
  cases tokens with
  | nil => rw [h]; rfl
  | cons a tokens => rw [h.1]; rfl

theorem reads_of_derives {s : GrammarSymbol} {d : Derivation} (h : Derives s d) :
    ∀ x y : Ahead, d.clear y.next.terminal = true → Spells d.leaves x y → Reads s d x y := by
  refine Derives.induct ?_ ?_ h
  · rintro a x y hclear ⟨rfl, z, hz, rfl⟩
    exact reads_leaf hz (by simpa [clear] using hclear)
  · intro i r parts hr hall ih x y hclear hspells
    rw [clear, Bool.and_eq_true, Bool.or_eq_true] at hclear
    rw [leaves] at hspells
    by_cases hi : namesProperty i = true
    · have hbody := (of_namesProperty hr hi).1
      rw [hbody] at hall
      obtain ⟨d, ds, hd, hds, rfl⟩ := List.forall₂_cons_left_iff.1 hall
      obtain rfl := List.forall₂_nil_left_iff.1 hds
      generalize hs : GrammarSymbol.terminal .name = s at hd
      cases hd with
      | node => cases hs
      | leaf a =>
        simp only [leavesAll, leaves, List.append_nil, Spells] at hspells
        obtain ⟨rfl, z, hz, rfl⟩ := hspells
        exact reads_propertyWord hr hi (GrammarSymbol.terminal.inj hs).symm hz
    · refine reads_node hr ?_ hclear.2
      have hcl := hclear.1.resolve_left hi
      clear hr hall hclear hi
      generalize r.body = body at ih
      induction ih generalizing x with
      | nil =>
        obtain rfl : x = y := hspells
        exact readsAll_nil x
      | @cons s d ss ds hd _ ih =>
        rw [clearAll, Bool.and_eq_true] at hcl
        rw [leavesAll] at hspells
        obtain ⟨z, hz, hy⟩ := spells_append.1 hspells
        rw [hy.firstClass] at hcl
        exact readsAll_cons (hd x z hcl.1 hz) (ih z hy hcl.2)

/-! ## Whole texts -/

theorem read_of_reads {d : Derivation} {x y : Ahead} (h : Reads (.nonterminal .program) d x y)
    (hfinish : y.next.terminal = .finish) (hgap : ∀ c ∈ y.text, Gap.isGapBlank c = true) :
    ∃ d', (Reader.read x.text).1 = .ok d' ∧ d.Alike d' := by
  have hgoto : next? 0 (.nonterminal .program) = some acceptState := by
    rw [next?_eq]
    decide +kernel
  have hlast : Admits acceptState y.next := by
    refine ⟨?_, fun hs => ?_, fun hw => ?_⟩
    · rw [hfinish]; simp [Automaton.accepts]
    · rw [hfinish] at hs; cases hs
    · simp [Token.spellsKeyword, hfinish] at hw
  have hstart : Awaits (ofText x.text) [] x :=
    ⟨rfl, .refl _, h.starts 0 _ hgoto hlast, by rintro _ ⟨⟩, by rintro _ ⟨⟩⟩
  obtain ⟨r, d', hreach, halike, hr⟩ := h.reads _ [] _ hstart hgoto hlast
  obtain ⟨m, hrun, hm⟩ := run_of_reaches hreach 3
  refine ⟨d', ?_, halike⟩
  have hlastToken : r.finishToken.terminal = y.next.terminal := by
    rw [hfinish, finishToken]
    split <;> rfl
  have hfeed : feed r.finishToken r.stack = .accepted d' := by
    refine feed_eq_of_feeds (Reduces.feeds (hlastToken ▸ hr.reduces) ?_)
    exact .accept rfl (hlastToken.trans hfinish)
  have hstep : r.step = .done d' r := by
    rw [step, Cursor.scan_of_blanks (by rwa [hr.rest])]
    dsimp only
    rw [give, hfeed]
  have hfuel : (ofText x.text).cursor.rest.length = x.text.length := rfl
  rw [Reader.read, ← hfuel, hrun, show r.cursor.rest.length + m = r.cursor.rest.length + m - 1 + 1 by
    omega, run, hstep]

end Debundle
