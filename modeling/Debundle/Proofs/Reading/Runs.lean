import Debundle.Proofs.Reading.Insertions

/-!
# Runs of a reader

A reading that succeeds passes token after token and is then at the end of the text, where a
program is complete, perhaps after one more semicolon (`writes_of_run`). All tokens of the
derivation that it returns were passed on the way (`Writes.leaves`).
-/
namespace Debundle

namespace Text

/-- A text with a semicolon before every place of a list. The text begins at place `i`. -/
def writeAt (places : List Nat) (i : Nat) : List Char → List Char
  | [] => if i ∈ places then [';'] else []
  | c :: cs =>
    if i ∈ places then ';' :: c :: writeAt places (i + 1) cs else c :: writeAt places (i + 1) cs

variable {places : List Nat} {i : Nat} {xs ys : List Char}

theorem writeAt_append (h : ∀ p ∈ places, p < i ∨ i + xs.length ≤ p) :
    writeAt places i (xs ++ ys) = xs ++ writeAt places (i + xs.length) ys := by
  induction xs generalizing i with
  | nil => rfl
  | cons x xs ih =>
    have hi : i ∉ places := fun hi => by
      have := h i hi
      rw [List.length_cons] at this
      omega
    rw [List.cons_append, writeAt, if_neg hi, ih, List.length_cons, List.cons_append]
    · congr 3
      omega
    · intro p hp
      have := h p hp
      have hne : p ≠ i := fun he => hi (he ▸ hp)
      simp only [List.length_cons] at this
      omega

theorem writeAt_cons (h : ∀ p ∈ places, i < p) (xs : List Char) :
    writeAt (i :: places) i xs = ';' :: writeAt places i xs := by
  have hi : i ∉ places := fun hi => absurd (h i hi) (Nat.lt_irrefl i)
  have hrest : ∀ (xs : List Char) (j : Nat), i < j → writeAt (i :: places) j xs = writeAt places j xs := by
    intro xs
    induction xs with
    | nil => intro j hj; simp [writeAt, (Nat.ne_of_lt hj).symm]
    | cons x xs ih => intro j hj; simp [writeAt, (Nat.ne_of_lt hj).symm, ih (j + 1) (by omega)]
  cases xs with
  | nil => simp [writeAt, hi]
  | cons x xs => simp [writeAt, hi, hrest xs (i + 1) (by omega)]

@[simp] theorem writeAt_nil (i : Nat) (xs : List Char) : writeAt [] i xs = xs := by
  induction xs generalizing i with
  | nil => rfl
  | cons x xs ih => simp [writeAt, ih]

end Text

namespace Reader

open Automaton Derivation Text

/-- The place of the next token, or that behind the last one. -/
def placeAhead (c : Cursor) : Nat :=
  let here := c.skipGaps c.rest.length
  if here.rest.isEmpty then c.start else here.start

/-- The places at which semicolons are supplied. -/
def suppliedAt : Nat → Reader → List Nat
  | 0, _ => []
  | fuel + 1, r =>
    match r.step with
    | .next r₁ =>
      if r₁.insertions.length = r.insertions.length then suppliedAt fuel r₁
      else placeAhead r.cursor :: suppliedAt fuel r₁
    | _ => []

variable {r r₁ r' : Reader} {gap rest : List Char} {a b : Token} {n fuel : Nat} {d : Derivation}

theorem placeAhead_of_fills (h : r.cursor.rest = gap ++ rest) (hf : Gap.Fills gap rest)
    (hn : Gap.extent? rest = none) (hne : rest ≠ []) :
    placeAhead r.cursor = r.cursor.start + gap.length := by
  have hadv := Cursor.advance_append h
  rw [placeAhead, Cursor.skipGaps_of_fills h hf hn (by simp [h])]
  simp [hadv.1, hadv.2.2, hne]

theorem placeAhead_of_fills_nil (hf : Gap.Fills r.cursor.rest []) :
    placeAhead r.cursor = r.cursor.start := by
  have hadv := Cursor.advance_append (List.append_nil r.cursor.rest).symm
  rw [placeAhead, Cursor.skipGaps_of_fills (List.append_nil r.cursor.rest).symm hf rfl le_rfl]
  simp [hadv.1]

/-! ## How the written text goes on -/

theorem suppliedAt_of_done {r₁ : Reader} (h : r.step = .done d r₁) : suppliedAt fuel r = [] := by
  cases fuel with
  | zero => rfl
  | succ fuel => rw [suppliedAt, h]

theorem step_of_fills_nil (hf : Gap.Fills r.cursor.rest []) : r.step = r.give r.finishToken := by
  rw [step, scan_of_fills_nil hf]

theorem step_of_accepted (hf : Gap.Fills r.cursor.rest [])
    (h : Feeds r.finishToken r.stack (.accepted d)) : r.step = .done d r := by
  rw [step_of_fills_nil hf, give, feed_eq_of_feeds h]

theorem step_of_refused (hf : Gap.Fills r.cursor.rest []) {t : List Frame}
    (h : Feeds r.finishToken r.stack (.refused t)) (hstep : r.step = .next r₁) :
    Feeds (semicolonAt r.finishToken) t (.shifted r₁.stack) ∧ r₁.cursor = r.cursor ∧
      r₁.last = r.last ∧ r₁.insertions.length = r.insertions.length + 1 := by
  rw [step_of_fills_nil hf, give, feed_eq_of_feeds h] at hstep
  dsimp only at hstep
  obtain ⟨hfed, hcursor, hlast, -⟩ := recover_finish (terminal_finishToken r) hstep
  refine ⟨hfed, hcursor, hlast, ?_⟩
  rw [recover_eq (mayRecover_of_recover hstep)] at hstep
  split at hstep
  · rename_i r₂ hins
    obtain ⟨s, -, rfl⟩ := insert_eq_next_iff.1 hins
    rw [if_pos (terminal_finishToken r)] at hstep
    cases hstep
    rfl
  · rename_i hno
    exact absurd hstep (hno _)

/-- A slash that is a token of its own begins no comment. -/
def Clear (rest : List Char) (n : Nat) : Prop :=
  rest.take n = ['/'] → ∀ c ∈ (rest.drop n).head?, c ≠ '*' ∧ c ≠ '/'

/-- A reader comes to a derivation, and `ys` is what it has ahead with the semicolons written that it
supplies on the way. -/
inductive Writes (d : Derivation) : Reader → List Char → Prop
  | done {r : Reader} (ended : Gap.Fills r.cursor.rest [])
      (accepted : Feeds r.finishToken r.stack (.accepted d)) : Writes d r r.cursor.rest
  | closed {r : Reader} {u : List Frame} (ended : Gap.Fills r.cursor.rest [])
      (fed : Feeds (semicolonAt r.finishToken) r.stack (.shifted u))
      (accepted : Feeds r.finishToken u (.accepted d)) : Writes d r (';' :: r.cursor.rest)
  | plain {r r₁ : Reader} {gap rest ys : List Char} {a : Token} {n : Nat}
      (apart : r.cursor.rest = gap ++ rest) (fills : Gap.Fills gap rest)
      (solid : Gap.extent? rest = none) (more : rest ≠ [])
      (advances : Advances r₁ (r.cursor.advance gap.length) a n)
      (takes : Takes r.stack r₁.stack rest a n) (clear : Clear rest n) (calm : ¬ r.Breaks a)
      (next : Writes d r₁ ys) : Writes d r (gap ++ (rest.take n ++ ys))
  | supplied {r r₁ : Reader} {gap rest ys : List Char} {a b : Token} {s : List Frame} {n : Nat}
      (apart : r.cursor.rest = gap ++ rest) (fills : Gap.Fills gap rest)
      (solid : Gap.extent? rest = none) (more : rest ≠ [])
      (advances : Advances r₁ (r.cursor.advance gap.length) a n) (mark : b.terminal = .semicolon)
      (spelling : b.text = ";") (fed : Feeds b r.stack (.shifted s))
      (takes : Takes s r₁.stack rest a n) (clear : Clear rest n) (next : Writes d r₁ ys) :
      Writes d r (gap ++ ';' :: (rest.take n ++ ys))

theorem length_of_first? {allowed : Terminal → Bool} {cs : List Char} {t : Terminal} {n : Nat}
    (h : Lexeme.first? allowed cs = some (t, n)) : 0 < n ∧ n ≤ cs.length := by
  obtain ⟨u, c, tail, rfl, rfl, -⟩ := Lexeme.split_of_first? h
  simp

theorem Advances.rest_start (hadv : Advances r₁ (r.cursor.advance gap.length) a n)
    (hrest : r.cursor.rest = gap ++ rest) (hn : n ≤ rest.length) :
    r₁.cursor.rest = rest.drop n ∧ r₁.cursor.start = r.cursor.start + gap.length + n ∧
      r₁.cursor.before = (rest.take n).reverse ++ (gap.reverse ++ r.cursor.before) := by
  obtain ⟨hrest₀, hbefore₀, hstart₀⟩ := Cursor.advance_append hrest
  have hsplit : (r.cursor.advance gap.length).rest = rest.take n ++ rest.drop n := by
    rw [hrest₀, List.take_append_drop]
  have hlen : (rest.take n).length = n := by simpa using hn
  obtain ⟨hrest₁, hbefore₁, hstart₁⟩ := Cursor.advance_append hsplit
  rw [hlen] at hrest₁ hbefore₁ hstart₁
  rw [hadv.cursor]
  exact ⟨hrest₁, by rw [hstart₁, hstart₀], by rw [hbefore₁, hbefore₀]⟩

theorem clear_of_run {s : List Frame} (h : (run fuel r₁).1 = .ok d)
    (hrest : r₁.cursor.rest = rest.drop n) (htake : Takes s r₁.stack rest a n)
    (hn : Gap.extent? rest = none) : Clear rest n := by
  intro hu c hc
  obtain ⟨tail, htail⟩ : ∃ tail, rest.drop n = c :: tail := by
    cases hdrop : rest.drop n with
    | nil => simp [hdrop] at hc
    | cons e tail =>
      rw [hdrop] at hc
      cases hc
      exact ⟨tail, rfl⟩
  have hsplit : rest = '/' :: c :: tail := by rw [← List.take_append_drop n rest, hu, htail]; rfl
  refine ⟨?_, ?_⟩
  · rintro rfl
    obtain ⟨q, below, hstack, hq⟩ := htake.fed.top_of_shifted
    have hslash : a.terminal = .slash := by
      have hfound := htake.found
      rw [hsplit] at hfound
      exact (Lexeme.eq_slash_of_first? hfound).1
    rw [hslash] at hq
    exact run_ne_ok_of_star hstack hq (hrest.trans htail) h
  · rintro rfl
    rw [hsplit, Gap.extent?_line] at hn
    cases hn

theorem run_next {m : Nat} (h : r.step = .next r₁) : run (m + 1) r = run m r₁ := by
  rw [run, h]

theorem poised_ofText (cs : List Char) : (ofText cs).Poised :=
  .inl ⟨rfl, rfl⟩

theorem writes_of_run (h : (run fuel r).1 = .ok d) (hs : Stacked r.stack) (hp : r.Poised) :
    Writes d r (writeAt (suppliedAt fuel r) r.cursor.start r.cursor.rest) ∧
      (∀ p ∈ suppliedAt fuel r, r.cursor.start ≤ p) ∧
      (run fuel r).2.insertions.length = r.insertions.length + (suppliedAt fuel r).length := by
  induction fuel generalizing r with
  | zero => cases h
  | succ fuel ih =>
    obtain ⟨gap, rest, hrest, hf, hn⟩ := Gap.exists_fills r.cursor.rest
    obtain rfl | hne := eq_or_ne rest []
    · rw [List.append_nil] at hrest
      have hend : Gap.Fills r.cursor.rest [] := hrest ▸ hf
      obtain hacc | ⟨t, u, hrefuse, hsemi, hacc⟩ := finished_cases (scan_of_fills_nil hend) h
      · rw [suppliedAt_of_done (step_of_accepted hend hacc), writeAt_nil]
        exact ⟨.done hend hacc, nofun, by rw [run, step_of_accepted hend hacc]; rfl⟩
      · obtain ⟨m, r₁, hfuel, hstep, hrun⟩ | ⟨r₁, hstep⟩ := run_cases h
        · obtain rfl : fuel = m := by omega
          obtain ⟨hfed, hcursor, hlast, hcount⟩ := step_of_refused hend hrefuse hstep
          obtain ⟨⟩ := hfed.eq hsemi
          have hacc₁ : Feeds r₁.finishToken r₁.stack (.accepted d) := by
            rw [finishToken, hlast]
            exact hacc
          have hdone := step_of_accepted (hcursor.symm ▸ hend) hacc₁
          have hplaces : suppliedAt (fuel + 1) r = [r.cursor.start] := by
            rw [suppliedAt, hstep]
            dsimp only
            rw [if_neg (by omega), placeAhead_of_fills_nil hend, suppliedAt_of_done hdone]
          have hbefore : Feeds (semicolonAt r.finishToken) r.stack (.shifted r₁.stack) := by
            refine (hrefuse.supply hs rfl hsemi).resolve_right fun hagain => ?_
            obtain ⟨v, hv⟩ := hagain _ hacc
            cases hv
          rw [hplaces, writeAt_cons (by simp), writeAt_nil]
          refine ⟨.closed hend hbefore hacc, by simp, ?_⟩
          obtain ⟨k, rfl⟩ : ∃ k, fuel = k + 1 := by
            cases fuel with
            | zero => cases hrun
            | succ k => exact ⟨k, rfl⟩
          rw [run_next hstep, run, hdone]
          exact hcount
        · rw [step_of_fills_nil hend] at hstep
          cases (give_eq_done hstep).eq hrefuse
    · obtain ⟨m, r₁, hfuel, hstep, hrun⟩ | ⟨r₁, hstep⟩ := run_cases h
      · obtain rfl : fuel = m := by omega
        obtain ⟨a, n, hadv, hpass⟩ := step_cases hs hp hrest hf hn hne hstep
        obtain ⟨hnext, hplaces, hcount⟩ := ih hrun (hpass.stacked hs) (hpass.poised hadv)
        have hlen : n ≤ rest.length := (length_of_first? hpass.exists_fed.choose_spec.found).2
        have hpos : 0 < n := (length_of_first? hpass.exists_fed.choose_spec.found).1
        obtain ⟨hrest₁, hstart₁, -⟩ := hadv.rest_start hrest hlen
        have hclear : Clear rest n := clear_of_run hrun hrest₁ hpass.exists_fed.choose_spec hn
        rw [hstart₁] at hplaces hnext
        rw [hrest₁] at hnext
        have hafter : writeAt (suppliedAt fuel r₁) (r.cursor.start + gap.length) rest =
            rest.take n ++
              writeAt (suppliedAt fuel r₁) (r.cursor.start + gap.length + n) (rest.drop n) := by
          have := @writeAt_append (suppliedAt fuel r₁) (r.cursor.start + gap.length) (rest.take n)
            (rest.drop n) fun p hp => .inr (by simpa [hlen] using hplaces p hp)
          simpa [hlen] using this
        cases hpass with
        | plain takes calm same =>
          have heq : suppliedAt (fuel + 1) r = suppliedAt fuel r₁ := by
            rw [suppliedAt, hstep]
            simp [same]
          rw [heq, hrest, writeAt_append fun p hp => .inr ?_, hafter]
          · exact ⟨.plain hrest hf hn hne hadv takes hclear calm hnext, fun p hp => by
              have := hplaces p hp
              omega, by rw [run_next hstep, hcount, same]⟩
          · have := hplaces p hp
            omega
        | supplied mark spelling fed takes due more =>
          have heq : suppliedAt (fuel + 1) r =
              (r.cursor.start + gap.length) :: suppliedAt fuel r₁ := by
            rw [suppliedAt, hstep]
            simp [more, placeAhead_of_fills hrest hf hn hne]
          rw [heq, hrest, writeAt_append fun p hp => ?_, writeAt_cons fun p hp => ?_, hafter]
          · exact ⟨.supplied hrest hf hn hne hadv mark spelling fed takes hclear hnext, fun p hp => by
              obtain rfl | hp := List.mem_cons.1 hp
              · omega
              · have := hplaces p hp
                omega, by rw [run_next hstep, hcount, more, List.length_cons, List.length_cons]; omega⟩
          · have := hplaces p hp
            omega
          · obtain rfl | hp := List.mem_cons.1 hp
            · exact .inr le_rfl
            · have := hplaces p hp
              exact .inr (by omega)
      · exact absurd hstep (step_ne_done hrest hf hn hne)

end Reader

/-! ## The tokens of a run -/

open Derivation

namespace Derivation

/-- All tokens of the derivations on a stack. -/
def tokens (stack : List Frame) : List Token :=
  stack.flatMap (·.tree.leaves)

/-- All tokens that giving a token leaves have a property. -/
def Feed.Within (T : Token → Prop) : Feed → Prop
  | .shifted stack | .refused stack => ∀ a ∈ tokens stack, T a
  | .accepted tree => ∀ a ∈ tree.leaves, T a
  | .broken => True

theorem tokens_of_reduce {i : Nat} {s s' : List Frame} (h : reduce? i s = some s') :
    tokens s' ⊆ tokens s := by
  obtain ⟨r, parts, below, q, -, rfl, -, -, rfl⟩ := reduce?_eq_some_iff.1 h
  intro a ha
  simp only [tokens, List.flatMap_append, List.flatMap_cons, List.mem_append, leaves, mem_leavesAll,
    List.mem_flatMap] at ha ⊢
  refine ha.imp ?_ id
  rintro ⟨tree, htree, ha⟩
  obtain ⟨f, hf, rfl⟩ : ∃ f ∈ parts, f.tree = tree := by simpa using htree
  exact ⟨f, hf, ha⟩

theorem Feeds.within {T : Token → Prop} {token : Token} {s : List Frame} {o : Feed}
    (h : Feeds token s o) (ht : T token) (hs : ∀ a ∈ tokens s, T a) : o.Within T := by
  induction h with
  | @accept frame rest top finish =>
    exact fun a ha => hs a (List.mem_flatMap.2 ⟨frame, List.mem_cons_self, ha⟩)
  | refuse => exact hs
  | shift move =>
    intro a ha
    obtain ha | ha := List.mem_append.1 ha
    · rwa [List.mem_singleton.1 ha]
    · exact hs a ha
  | reduce move reduced rest ih => exact ih fun a ha => hs a (tokens_of_reduce reduced ha)
  | stuck => trivial

end Derivation

namespace Reader

variable {r : Reader} {d : Derivation}

/-- The tokens of the derivation that a reader comes to are those on its stack, those that it takes
from the text, and semicolons. -/
theorem Writes.leaves {T : Token → Prop} {ys : List Char} (h : Writes d r ys)
    (hs : ∀ a ∈ tokens r.stack, T a)
    (htake : ∀ (a : Token) (allowed : Terminal → Bool) (rest : List Char) (n : Nat),
      Lexeme.first? allowed rest = some (a.terminal, n) → a.text = String.ofList (rest.take n) → T a)
    (hsemi : ∀ a : Token, a.terminal = .semicolon → a.text = ";" → T a)
    (hfinish : ∀ a : Token, a.terminal = .finish → T a) : ∀ a ∈ d.leaves, T a := by
  induction h with
  | @done r ended accepted => exact accepted.within (hfinish _ (terminal_finishToken r)) hs
  | @closed r u ended fed accepted =>
    exact accepted.within (hfinish _ (terminal_finishToken r)) (fed.within (hsemi _ rfl rfl) hs)
  | @plain _ _ _ rest _ a n apart _ _ _ advances takes _ _ _ ih =>
    refine ih (takes.fed.within (htake a _ rest n takes.found ?_) hs)
    rw [advances.text, Cursor.rest_advance apart]
  | @supplied _ _ _ rest _ a b _ n apart _ _ _ advances mark spelling fed takes _ _ ih =>
    refine ih (takes.fed.within (htake a _ rest n takes.found ?_) (fed.within (hsemi b mark spelling) hs))
    rw [advances.text, Cursor.rest_advance apart]

end Reader

end Debundle
