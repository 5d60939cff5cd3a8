import Debundle.Proofs.Reading.Apply
import Debundle.Proofs.Writing.Images

/-!
# Strings are read back

A string literal is read back to the value it was written for exactly if there is no backslash in
the value (`read_string_iff`): backslashes are written as they are, so each of them starts an escape
or takes one away.
-/
namespace Debundle

namespace Literal

open Text Numeral Escape

variable {cs after : List Char} {ns ps : List Nat}

/-- A text is read to code points, one character or one escape at a time. -/
inductive Decodes : List Char → List Nat → Prop
  | nil : Decodes [] []
  | plain {c : Char} {cs : List Char} {ns : List Nat} (hc : c ≠ '\\') (rest : Decodes cs ns) :
      Decodes (c :: cs) (c.toNat :: ns)
  | escape {cs after : List Char} {ps ns : List Nat} (read : escape cs = .ok (ps, after))
      (rest : Decodes after ns) : Decodes ('\\' :: cs) (ps ++ ns)

theorem dropWhile_ne_eq_cons {c : Char} (h : c ∈ cs) :
    cs.dropWhile (· ≠ c) = c :: (cs.dropWhile (· ≠ c)).drop 1 := by
  induction cs with
  | nil => simp at h
  | cons d cs ih =>
    by_cases hd : d = c
    · simp [hd]
    · have hmem : c ∈ cs := (List.mem_cons.1 h).resolve_left (Ne.symm hd)
      simpa [List.dropWhile_cons, hd] using ih hmem

/-- What an escape can be: a backslash, or characters without one. Line ends apart, it is read to
one code point. -/
theorem escape_cases (h : escape cs = .ok (ps, after)) :
    ∃ taken, cs = taken ++ after ∧ taken ≠ [] ∧
      ('\\' ∉ taken ∨ taken = ['\\'] ∧ ps = ['\\'.toNat]) ∧
      ((∃ n, ps = [n]) ∨ ps = [] ∧ ∃ c ∈ taken, isLineEnd c = true) := by
  have digits : ∀ {ds : List Char} {n : Nat}, codePoint ds = .ok n → '\\' ∉ ds := by
    intro ds n hd
    unfold codePoint at hd
    split at hd
    · cases hd
    · exact backslash_notMem_of_readHex? ‹_›
  unfold escape at h
  split at h
  · cases h
  · rename_i rest
    obtain ⟨n, hn, h⟩ := bind_eq_ok_iff.1 h
    cases h
    exact ⟨'x' :: rest.take 2, by simp, by simp, .inl (by simpa using digits hn), .inl ⟨n, rfl⟩⟩
  · rename_i rest
    split_ifs at h with hbrace
    obtain ⟨n, hn, h⟩ := bind_eq_ok_iff.1 h
    cases h
    refine ⟨'u' :: '\x7b' :: rest.takeWhile (· ≠ '\x7d') ++ ['\x7d'], ?_, by simp,
      .inl (by simpa using digits hn), .inl ⟨n, rfl⟩⟩
    have hdrop : rest.dropWhile (· ≠ '\x7d') = '\x7d' :: (rest.dropWhile (· ≠ '\x7d')).drop 1 :=
      dropWhile_ne_eq_cons (by simpa using hbrace)
    conv_lhs => rw [← List.takeWhile_append_dropWhile (p := (· ≠ '\x7d')) (l := rest), hdrop]
    simp
  · rename_i rest _
    obtain ⟨n, hn, h⟩ := bind_eq_ok_iff.1 h
    cases h
    exact ⟨'u' :: rest.take 4, by simp, by simp, .inl (by simpa using digits hn), .inl ⟨n, rfl⟩⟩
  · cases h
    exact ⟨['\r', '\n'], by simp, by simp, .inl (by simp), .inr ⟨rfl, '\r', by simp, by decide⟩⟩
  · rename_i c rest _ _ _ _
    by_cases hoctal : isOctal c = true
    · rw [if_pos hoctal] at h
      cases h
      have hpre : ((c :: rest).takeWhile isOctal).take (if c ≤ '3' then 3 else 2) <+: c :: rest :=
        (List.take_prefix _ _).trans (List.takeWhile_prefix _)
      refine ⟨_, (List.prefix_iff_eq_append.1 hpre).symm, ?_, .inl ?_, .inl ⟨_, rfl⟩⟩
      · rw [List.takeWhile_cons_of_pos hoctal]
        split_ifs <;> simp
      · intro hmem
        have hno : isOctal '\\' = false := by decide
        simp [List.mem_takeWhile_imp (List.mem_of_mem_take hmem)] at hno
    · rw [if_neg hoctal] at h
      split_ifs at h with hline
      · cases h
        simp only [Bool.or_eq_true, decide_eq_true_eq] at hline
        refine ⟨[c], rfl, by simp, .inl ?_, .inr ⟨rfl, c, by simp, ?_⟩⟩
        · rcases hline with ((rfl | rfl) | rfl) | rfl <;> decide
        · rcases hline with ((rfl | rfl) | rfl) | rfl <;> decide
      · cases h
        refine ⟨[c], rfl, by simp, ?_, .inl ⟨_, rfl⟩⟩
        by_cases hc : c = '\\'
        · subst hc
          exact .inr ⟨rfl, rfl⟩
        · exact .inl (by simpa using Ne.symm hc)

theorem decodes_of_codePoints {fuel : Nat} (hf : cs.length ≤ fuel)
    (h : codePoints fuel cs = .ok ns) : Decodes cs ns := by
  induction fuel generalizing cs ns with
  | zero =>
    obtain rfl : cs = [] := List.eq_nil_of_length_eq_zero (Nat.le_zero.1 hf)
    cases h
    exact .nil
  | succ fuel ih =>
    cases cs with
    | nil =>
      cases h
      exact .nil
    | cons c cs =>
      have hlen : cs.length ≤ fuel := by simpa using hf
      by_cases hc : c = '\\'
      · subst hc
        obtain ⟨⟨ps, after⟩, he, hrest⟩ := bind_eq_ok_iff.1 h
        obtain ⟨ms, hm, hpure⟩ := bind_eq_ok_iff.1 hrest
        cases hpure
        obtain ⟨taken, rfl, -⟩ := escape_cases he
        refine .escape he (ih ?_ hm)
        rw [List.length_append] at hlen
        omega
      · rw [codePoints] at h
        · obtain ⟨ms, hm, h⟩ := bind_eq_ok_iff.1 h
          cases h
          exact .plain hc (ih hlen hm)
        · exact hc

theorem codePoints_of_decodes {fuel : Nat} (h : Decodes cs ns) (hf : cs.length ≤ fuel) :
    codePoints fuel cs = .ok ns := by
  induction h generalizing fuel with
  | nil => cases fuel <;> rfl
  | @plain c cs ns hc rest ih =>
    cases fuel with
    | zero => simp at hf
    | succ fuel =>
      rw [codePoints]
      · rw [ih (by simpa using hf)]
        rfl
      · exact hc
  | @escape cs after ps ns read rest ih =>
    cases fuel with
    | zero => simp at hf
    | succ fuel =>
      obtain ⟨taken, rfl, -⟩ := escape_cases read
      have hlen : after.length ≤ fuel := by
        simp only [List.length_cons, List.length_append] at hf
        omega
      rw [codePoints, read]
      dsimp only [bind, Except.bind]
      rw [ih hlen]
      rfl

/-! ## The end of a literal -/

/-- The closing quote is the first quote that no backslash takes along. -/
def Scanned (quote : Char) (cs : List Char) : Prop :=
  Lexeme.stringRest? quote (cs ++ [quote]) = some (cs.length + 1)

variable {quote c : Char} {asciiOnly : Bool}

theorem scanned_nil (hq : quote = '"' ∨ quote = '\'') : Scanned quote [] := by
  rcases hq with rfl | rfl <;> rfl

theorem scanned_cons (hc : c ≠ '\\') :
    Scanned quote (c :: cs) ↔ c ≠ quote ∧ c ≠ '\n' ∧ c ≠ '\r' ∧ Scanned quote cs := by
  have heq : Lexeme.stringRest? quote (c :: cs ++ [quote]) =
      if c = quote then some 1
      else if c = '\\' || c = '\n' || c = '\r' then none
      else (Lexeme.stringRest? quote (cs ++ [quote])).map (· + 1) := by
    rw [List.cons_append, Lexeme.stringRest?]
    · exact fun _ h => absurd h hc
    · exact fun _ _ h => absurd h hc
  rw [Scanned, Scanned, heq]
  by_cases hq : c = quote
  · simp [hq]
  · by_cases hl : c = '\n' ∨ c = '\r'
    · rcases hl with rfl | rfl <;> simp [hq]
    · rw [not_or] at hl
      simp [hq, hc, hl]

theorem scanned_escape (hc : c ≠ '\r') : Scanned quote ('\\' :: c :: cs) ↔ Scanned quote cs := by
  have heq : Lexeme.stringRest? quote ('\\' :: c :: cs ++ [quote]) =
      (Lexeme.stringRest? quote (cs ++ [quote])).map (· + 2) := by
    rw [List.cons_append, List.cons_append, Lexeme.stringRest?]
    exact fun _ h => absurd h hc
  rw [Scanned, Scanned, heq]
  simp

theorem Scanned.of_append {taken : List Char} (h : Scanned quote (taken ++ cs))
    (ht : '\\' ∉ taken) : Scanned quote cs := by
  induction taken with
  | nil => exact h
  | cons d taken ih =>
    rw [List.mem_cons, not_or] at ht
    exact ih ((scanned_cons (Ne.symm ht.1)).1 h).2.2.2 ht.2

/-! ## Joined pairs -/

def isHalf (n : Nat) : Bool :=
  isHighHalf n || isLowHalf n

theorem isHalf_toNat (c : Char) : isHalf c.toNat = false := by
  have := toNat_bounds c
  simp only [isHalf, isHighHalf, isLowHalf, Bool.or_eq_false_iff, Bool.and_eq_false_iff,
    decide_eq_false_iff_not]
  omega

/-- Characters weigh no more than the code points they are joined from, if a half weighs one and a
character at most two. -/
theorem sum_joinPairs {f : Nat → Nat} {g : Char → Nat} (half : ∀ n, isHalf n = true → f n = 1)
    (whole : ∀ n, isHalf n = false → g (Char.ofNat n) ≤ f n) (most : ∀ c, g c ≤ 2) {w : List Char}
    (h : joinPairs ns = .ok w) : (w.map g).sum ≤ (ns.map f).sum := by
  fun_induction joinPairs ns generalizing w with
  | case1 =>
    cases h
    simp
  | case2 n hn => cases h
  | case3 n hn =>
    cases h
    simpa using whole n (by simpa [isHalf] using hn)
  | case4 n m rest hn hm ih =>
    obtain ⟨w', hw, h⟩ := bind_eq_ok_iff.1 h
    cases h
    have h1 := half n (by simp [isHalf, hn])
    have h2 := half m (by simp [isHalf, hm])
    have h3 := most (Char.ofNat (0x10000 + (n - 0xd800) * 0x400 + (m - 0xdc00)))
    have h4 := ih hw
    simp only [List.map_cons, List.sum_cons]
    omega
  | case5 n m rest hn hm => cases h
  | case6 n m rest hn hm => cases h
  | case7 n m rest hn hm ih =>
    obtain ⟨w', hw, h⟩ := bind_eq_ok_iff.1 h
    cases h
    have h1 := whole n (by simp [isHalf, hn, hm])
    have h2 := ih hw
    simp only [List.map_cons, List.sum_cons] at h2 ⊢
    omega

theorem joinPairs_points (asciiOnly : Bool) (v : List Char) :
    joinPairs (v.flatMap (points asciiOnly)) = .ok v := by
  induction v with
  | nil => rfl
  | cons c v ih =>
    have hb := toNat_bounds c
    rw [List.flatMap_cons, points]
    split_ifs with h
    · have hn : 0xffff < c.toNat := by
        simp only [Bool.and_eq_true, decide_eq_true_eq] at h
        exact h.2
      have h1 : isHighHalf (0xd800 + (c.toNat - 0x10000) / 0x400) = true := by
        simp only [isHighHalf, Bool.and_eq_true, decide_eq_true_eq]
        omega
      have h2 : isLowHalf (0xdc00 + (c.toNat - 0x10000) % 0x400) = true := by
        simp only [isLowHalf, Bool.and_eq_true, decide_eq_true_eq]
        omega
      have h3 : 0x10000 + (0xd800 + (c.toNat - 0x10000) / 0x400 - 0xd800) * 0x400 +
          (0xdc00 + (c.toNat - 0x10000) % 0x400 - 0xdc00) = c.toNat := by omega
      rw [List.cons_append, List.singleton_append, joinPairs, if_pos h1, if_pos h2, h3, ih,
        Char.ofNat_toNat]
      rfl
    · have hh := isHalf_toNat c
      simp only [isHalf, Bool.or_eq_false_iff] at hh
      rw [List.singleton_append]
      cases hrest : v.flatMap (points asciiOnly) with
      | nil =>
        rw [hrest] at ih
        cases ih
        simp [joinPairs, hh]
      | cons m rest =>
        rw [hrest] at ih
        simp only [joinPairs, hh, Bool.false_eq_true, if_false, ih, Char.ofNat_toNat]
        rfl

/-! ## Values without backslashes -/

/-- Induction over the escapes of a piece, from the last one to the first. What follows an escape
is the rest of the text, or the backslash of the next escape. -/
theorem induct_isEscaped {motive : List Char → List Nat → Prop} {next : Option Char}
    {piece : List Char} (ns : List Nat) (h : IsEscaped quote next piece ps)
    (hnext : cs.head?.any isOctal = true → next.any isDigitSign = true) (base : motive cs ns)
    (step : ∀ {rest text : List Char} {n : Nat} {ms : List Nat}, '\\' ∉ rest →
      escape (rest ++ text) = .ok ([n], text) → motive text ms →
      motive ('\\' :: (rest ++ text)) (n :: ms)) :
    motive (piece ++ cs) (ps ++ ns) := by
  obtain ⟨es, rfl, rfl, hall⟩ := h
  have hno : isOctal '\\' = false := by decide
  have : ∀ es : List (List Char × Nat), (∀ e ∈ es, IsEscape quote next e.1 e.2) →
      motive (es.flatMap (fun e => '\\' :: e.1) ++ cs) (es.map Prod.snd ++ ns) ∧
        ((es.flatMap (fun e => '\\' :: e.1) ++ cs).head?.any isOctal = true →
          next.any isDigitSign = true) := by
    intro es hes
    induction es with
    | nil => exact ⟨base, hnext⟩
    | cons e es ih =>
      rw [List.forall_mem_cons] at hes
      obtain ⟨hm, hhead⟩ := ih hes.2
      refine ⟨?_, fun h => by simp [hno] at h⟩
      simpa using step hes.1.plain (hes.1.read _ hhead) hm
  exact (this es hall).1

theorem decodes_of_isEscaped {next : Option Char} {piece : List Char}
    (h : IsEscaped quote next piece ps)
    (hnext : cs.head?.any isOctal = true → next.any isDigitSign = true)
    (hd : Decodes cs ns) : Decodes (piece ++ cs) (ps ++ ns) :=
  induct_isEscaped _ h hnext hd fun _ read rest => .escape read rest

theorem points_of_not_isSpecial (h : isSpecial asciiOnly quote c = false) :
    points asciiOnly c = [c.toNat] := by
  rw [points, if_neg]
  intro hb
  obtain ⟨rfl, hn⟩ : asciiOnly = true ∧ 0xffff < c.toNat := by simpa using hb
  have : isBeyondAscii c = true := by
    simp only [isBeyondAscii, Bool.or_eq_true, decide_eq_true_eq]
    omega
  simp [isSpecial, this] at h

theorem decodes_written (hq : quote = '"' ∨ quote = '\'') {v : List Char} (hv : '\\' ∉ v) :
    Decodes (written asciiOnly quote v) (v.flatMap (points asciiOnly)) := by
  induction v with
  | nil =>
    rw [written_nil]
    exact .nil
  | cons c v ih =>
    rw [List.mem_cons, not_or] at hv
    rw [written_cons, List.flatMap_cons]
    rcases image_cases asciiOnly hq v.head? c with ⟨himage, hc⟩ | ⟨himage, -⟩
    · rw [himage, points_of_not_isSpecial hc]
      exact .plain (Ne.symm hv.1) (ih hv.2)
    · exact decodes_of_isEscaped himage (isDigitSign_of_isOctal hq) (ih hv.2)

theorem ne_lineEnd_of_printable (h : isBeyondAscii c = false) : c ≠ '\n' ∧ c ≠ '\r' := by
  refine ⟨?_, ?_⟩
  · rintro rfl
    exact absurd h (by decide)
  · rintro rfl
    exact absurd h (by decide)

theorem scanned_of_isEscaped {next : Option Char} {piece : List Char}
    (h : IsEscaped quote next piece ps) (hs : Scanned quote cs) : Scanned quote (piece ++ cs) := by
  obtain ⟨es, rfl, -, hall⟩ := h
  have plain : ∀ {ds cs : List Char}, (∀ d ∈ ds, isBeyondAscii d = false) → '\\' ∉ ds →
      quote ∉ ds → Scanned quote cs → Scanned quote (ds ++ cs) := by
    intro ds cs hp hb hq hs
    induction ds with
    | nil => exact hs
    | cons d ds ih =>
      rw [List.mem_cons, not_or] at hb hq
      rw [List.forall_mem_cons] at hp
      obtain ⟨hn, hr⟩ := ne_lineEnd_of_printable hp.1
      exact (scanned_cons (Ne.symm hb.1)).2 ⟨Ne.symm hq.1, hn, hr, ih hp.2 hb.2 hq.2⟩
  induction es with
  | nil => exact hs
  | cons e es ih =>
    rw [List.forall_mem_cons] at hall
    obtain ⟨d, ds, hd, hds⟩ := hall.1.tail
    have hprint := hall.1.printable
    have hplain := hall.1.plain
    rw [hd, List.forall_mem_cons] at hprint
    rw [hd, List.mem_cons, not_or] at hplain
    have := plain hprint.2 hplain.2 hds (ih hall.2)
    rw [List.flatMap_cons, hd, List.append_assoc, List.cons_append, List.cons_append]
    exact (scanned_escape (ne_lineEnd_of_printable hprint.1).2).2 this

theorem scanned_written (hq : quote = '"' ∨ quote = '\'') {v : List Char} (hv : '\\' ∉ v) :
    Scanned quote (written asciiOnly quote v) := by
  induction v with
  | nil =>
    rw [written_nil]
    exact scanned_nil hq
  | cons c v ih =>
    rw [List.mem_cons, not_or] at hv
    rw [written_cons]
    rcases image_cases asciiOnly hq v.head? c with ⟨himage, hc⟩ | ⟨himage, -⟩
    · have hnot : c ≠ quote ∧ c ≠ '\n' ∧ c ≠ '\r' := by
        refine ⟨?_, ?_, ?_⟩
        · rintro rfl
          simp [isSpecial] at hc
        · rintro rfl
          simp [isSpecial, isControl] at hc
        · rintro rfl
          simp [isSpecial, isControl] at hc
      rw [himage, List.singleton_append]
      exact (scanned_cons (Ne.symm hv.1)).2 ⟨hnot.1, hnot.2.1, hnot.2.2, ih hv.2⟩
    · exact scanned_of_isEscaped himage (ih hv.2)

/-! ## Values with backslashes -/

/-- Backslashes and special characters are a burden, for their images have backslashes. -/
def burden (asciiOnly : Bool) (quote c : Char) : Nat :=
  if c = '\\' || isSpecial asciiOnly quote c then 2 else 0

def pointBurden (asciiOnly : Bool) (quote : Char) (n : Nat) : Nat :=
  if isHalf n then 1 else burden asciiOnly quote (Char.ofNat n)

/-- What an escape can account for. -/
def escapeWeight (cs : List Char) : Nat :=
  match escape cs with
  | .ok ([n], _) => if isHalf n then 1 else 2
  | _ => 2

/-- What the backslashes of a text can account for. -/
def potential : List Char → Nat
  | [] => 0
  | c :: cs => (if c = '\\' then escapeWeight cs else 0) + potential cs

theorem burden_le (asciiOnly : Bool) (quote c : Char) : burden asciiOnly quote c ≤ 2 := by
  unfold burden
  split_ifs <;> omega

theorem pointBurden_le (asciiOnly : Bool) (quote : Char) (n : Nat) :
    pointBurden asciiOnly quote n ≤ if isHalf n then 1 else 2 := by
  unfold pointBurden
  split_ifs
  · rfl
  · exact burden_le ..

theorem escapeWeight_bounds (cs : List Char) : 1 ≤ escapeWeight cs ∧ escapeWeight cs ≤ 2 := by
  unfold escapeWeight
  split
  · split_ifs <;> omega
  · omega

theorem potential_append {taken : List Char} (h : '\\' ∉ taken) :
    potential (taken ++ cs) = potential cs := by
  induction taken with
  | nil => rfl
  | cons d taken ih =>
    rw [List.mem_cons, not_or] at h
    simp [potential, Ne.symm h.1, ih h.2]

/-- A text is read without an escaped backslash. -/
inductive DecodesSingly : List Char → List Nat → Prop
  | nil : DecodesSingly [] []
  | plain {c : Char} {cs : List Char} {ns : List Nat} (hc : c ≠ '\\')
      (rest : DecodesSingly cs ns) : DecodesSingly (c :: cs) (c.toNat :: ns)
  | escape {cs after : List Char} {ps ns : List Nat} (hc : cs.head? ≠ some '\\')
      (read : escape cs = .ok (ps, after)) (rest : DecodesSingly after ns) :
      DecodesSingly ('\\' :: cs) (ps ++ ns)

/-- The burden of what is read is accounted for by backslashes; strictly, if an escaped backslash
is read. -/
theorem burden_of_decodes (hq : quote = '"' ∨ quote = '\'')
    (hcs : ∀ c ∈ cs, c = '\\' ∨ c = quote ∨ isSpecial asciiOnly quote c = false)
    (hscan : Scanned quote cs) (h : Decodes cs ns) :
    (ns.map (pointBurden asciiOnly quote)).sum < potential cs ∨
      (ns.map (pointBurden asciiOnly quote)).sum ≤ potential cs ∧ DecodesSingly cs ns := by
  induction h with
  | nil => exact .inr ⟨by simp, .nil⟩
  | @plain c cs ns hc rest ih =>
    rw [List.forall_mem_cons] at hcs
    obtain ⟨hne, -, -, hscan⟩ := (scanned_cons hc).1 hscan
    have hspecial := (hcs.1.resolve_left hc).resolve_left hne
    have hzero : pointBurden asciiOnly quote c.toNat = 0 := by
      simp [pointBurden, isHalf_toNat, Char.ofNat_toNat, burden, hc, hspecial]
    have hpot : potential (c :: cs) = potential cs := by simp [potential, hc]
    rw [List.map_cons, List.sum_cons, hzero, hpot, Nat.zero_add]
    rcases ih hcs.2 hscan with hlt | ⟨hle, hs⟩
    · exact .inl hlt
    · exact .inr ⟨hle, .plain hc hs⟩
  | @escape cs after ps ns read rest ih =>
    obtain ⟨taken, rfl, hne, htaken, hps⟩ := escape_cases read
    rw [List.forall_mem_cons] at hcs
    have hline : ∀ c ∈ taken, isLineEnd c = false := by
      intro c hc
      by_contra hl
      rw [Bool.not_eq_false, isLineEnd] at hl
      simp only [Bool.or_eq_true, beq_iff_eq] at hl
      rcases hcs.2 c (List.mem_append_left _ hc) with rfl | rfl | hs
      · revert hl; decide
      · revert hl; rcases hq with rfl | rfl <;> decide
      · rcases hl with ((rfl | rfl) | rfl) | rfl <;> simp [isSpecial, isControl] at hs
    obtain ⟨n, rfl⟩ : ∃ n, ps = [n] := by
      refine hps.resolve_right ?_
      rintro ⟨-, c, hc, hl⟩
      simp [hline c hc] at hl
    obtain ⟨d, ds, rfl⟩ := List.exists_cons_of_ne_nil hne
    have hd : d ≠ '\r' := by
      rintro rfl
      exact absurd (hline '\r' (by simp)) (by decide)
    have hscan' : Scanned quote (ds ++ after) := (scanned_escape hd).1 hscan
    have hafter : ∀ c ∈ after, c = '\\' ∨ c = quote ∨ isSpecial asciiOnly quote c = false :=
      fun c hc => hcs.2 c (List.mem_append_right _ hc)
    have hweight : escapeWeight (d :: ds ++ after) = if isHalf n then 1 else 2 := by
      rw [escapeWeight, read]
    have hpoint := pointBurden_le asciiOnly quote n
    have hpot : potential ('\\' :: (d :: ds ++ after)) =
        escapeWeight (d :: ds ++ after) + potential (d :: ds ++ after) := by simp [potential]
    rw [List.singleton_append, List.map_cons, List.sum_cons, hpot, hweight]
    rcases htaken with hplain | ⟨heq, hn⟩
    · have hds : '\\' ∉ ds := fun h => hplain (by simp [h])
      rw [potential_append hplain]
      rcases ih hafter (hscan'.of_append hds) with hlt | ⟨hle, hs⟩
      · exact .inl (by omega)
      · refine .inr ⟨by omega, ?_⟩
        have hhead : (d :: ds ++ after).head? ≠ some '\\' := by
          rintro heq
          cases heq
          exact hplain (by simp)
        exact .escape hhead read hs
    · -- The second backslash accounts for nothing.
      cases heq
      have hbounds := escapeWeight_bounds after
      have hsecond : potential (['\\'] ++ after) = escapeWeight after + potential after := by
        simp [potential]
      refine .inl ?_
      rw [hsecond]
      rcases ih hafter hscan' with hlt | ⟨hle, -⟩ <;> omega

theorem potential_of_isEscaped {next : Option Char} {piece : List Char}
    (h : IsEscaped quote next piece ps)
    (hnext : cs.head?.any isOctal = true → next.any isDigitSign = true) :
    potential (piece ++ cs) = (ps.map fun n => if isHalf n then 1 else 2).sum + potential cs := by
  have := induct_isEscaped [] h hnext
    (motive := fun text ms =>
      potential text = (ms.map fun n => if isHalf n then 1 else 2).sum + potential cs)
    (by simp) fun {rest text n ms} hplain read hm => by
      have hweight : escapeWeight (rest ++ text) = if isHalf n then 1 else 2 := by
        rw [escapeWeight, read]
      rw [potential, if_pos rfl, hweight, potential_append hplain, hm, List.map_cons,
        List.sum_cons, Nat.add_assoc]
  simpa using this

theorem weight_points (asciiOnly : Bool) (c : Char) :
    ((points asciiOnly c).map fun n => if isHalf n then 1 else 2).sum = 2 := by
  have hb := toNat_bounds c
  unfold points
  split_ifs with h
  · have hn : 0xffff < c.toNat := by
      simp only [Bool.and_eq_true, decide_eq_true_eq] at h
      exact h.2
    have h1 : isHalf (0xd800 + (c.toNat - 0x10000) / 0x400) = true := by
      simp only [isHalf, isHighHalf, isLowHalf, Bool.or_eq_true, Bool.and_eq_true,
        decide_eq_true_eq]
      omega
    have h2 : isHalf (0xdc00 + (c.toNat - 0x10000) % 0x400) = true := by
      simp only [isHalf, isHighHalf, isLowHalf, Bool.or_eq_true, Bool.and_eq_true,
        decide_eq_true_eq]
      omega
    simp [h1, h2]
  · simp [isHalf_toNat]

theorem potential_written (hq : quote = '"' ∨ quote = '\'') (v : List Char) :
    potential (written asciiOnly quote v) ≤ (v.map (burden asciiOnly quote)).sum := by
  induction v with
  | nil => simp [potential]
  | cons c v ih =>
    rw [written_cons, List.map_cons, List.sum_cons]
    rcases image_cases asciiOnly hq v.head? c with ⟨himage, hc⟩ | ⟨himage, hc⟩
    · have hbounds := escapeWeight_bounds (written asciiOnly quote v)
      rw [himage, List.singleton_append, potential, burden, hc, Bool.or_false]
      by_cases hb : c = '\\'
      · simp only [hb, if_true, decide_true]
        omega
      · simpa [hb] using ih
    · have hb : burden asciiOnly quote c = 2 := by simp [burden, hc]
      rw [potential_of_isEscaped himage (isDigitSign_of_isOctal hq), hb, weight_points]
      omega

theorem singly_of_isEscaped {next : Option Char} {piece : List Char}
    (h : IsEscaped quote next piece ps)
    (hnext : cs.head?.any isOctal = true → next.any isDigitSign = true)
    (hs : DecodesSingly (piece ++ cs) ns) : ∃ ms, ns = ps ++ ms ∧ DecodesSingly cs ms := by
  have := induct_isEscaped [] h hnext
    (motive := fun text ms => ∀ ns, DecodesSingly text ns →
      ∃ ks, ns = ms ++ ks ∧ DecodesSingly cs ks)
    (fun ns hs => ⟨ns, rfl, hs⟩) fun {rest text n ms} _ read hm ns hs => by
      cases hs with
      | plain hc => exact absurd rfl hc
      | escape _ read' hrest =>
        cases read.symm.trans read'
        obtain ⟨ks, rfl, hks⟩ := hm _ hrest
        exact ⟨ks, rfl, hks⟩
  simpa using this ns hs

/-- Without escaped backslashes, every backslash of a value makes what is read shorter. -/
theorem length_of_singly (hq : quote = '"' ∨ quote = '\'') {v : List Char}
    (h : DecodesSingly (written asciiOnly quote v) ns) :
    (ns.map fun n => if isHalf n then 1 else 2).sum + v.count '\\' ≤ 2 * v.length := by
  induction hlen : v.length using Nat.strongRecOn generalizing v ns with
  | _ k ih =>
    cases v with
    | nil =>
      rw [written_nil] at h
      cases h
      simp
    | cons c v =>
      rw [written_cons] at h
      simp only [List.length_cons] at hlen
      rcases image_cases asciiOnly hq v.head? c with ⟨himage, hc⟩ | ⟨himage, hc⟩
      · rw [himage, List.singleton_append] at h
        cases h with
        | plain hne hrest =>
          have := ih v.length (by omega) hrest rfl
          simp only [List.map_cons, List.sum_cons, isHalf_toNat, Bool.false_eq_true, if_false,
            List.count_cons_of_ne hne]
          omega
        | @escape _ after ps ms hhead read hrest =>
          obtain ⟨taken, heq, hne, htaken, hps⟩ := escape_cases read
          have hplain : '\\' ∉ taken := by
            refine htaken.resolve_right ?_
            rintro ⟨rfl, -⟩
            exact hhead (by rw [heq]; rfl)
          obtain ⟨w, rfl, rfl⟩ := written_eq_append hq heq hplain
          have hone : (ps.map fun n => if isHalf n then 1 else 2).sum ≤ 2 := by
            rcases hps with ⟨n, rfl⟩ | ⟨rfl, -⟩
            · rw [List.map_singleton, List.sum_singleton]
              split_ifs <;> omega
            · simp
          have hpos : 0 < taken.length := List.length_pos_iff.2 hne
          rw [List.length_append] at hlen
          have := ih w.length (by omega) hrest rfl
          rw [List.map_append, List.sum_append, List.count_cons_self, List.count_append,
            List.count_eq_zero_of_not_mem hplain]
          omega
      · obtain ⟨ms, rfl, hrest⟩ := singly_of_isEscaped himage (isDigitSign_of_isOctal hq) h
        have := ih v.length (by omega) hrest rfl
        have hne : c ≠ '\\' := by
          rintro rfl
          simp [isSpecial_backslash hq] at hc
        rw [List.map_append, List.sum_append, weight_points, List.count_cons_of_ne hne]
        omega

/-- No value with a backslash is read back. -/
theorem backslash_notMem_of_read (hq : quote = '"' ∨ quote = '\'') {v : List Char}
    (hscan : Scanned quote (written asciiOnly quote v))
    (hdec : Decodes (written asciiOnly quote v) ns) (hjoin : joinPairs ns = .ok v) :
    '\\' ∉ v := by
  have hburden : (v.map (burden asciiOnly quote)).sum ≤
      (ns.map (pointBurden asciiOnly quote)).sum := by
    refine sum_joinPairs (fun n hn => ?_) (fun n hn => ?_) (burden_le asciiOnly quote) hjoin
    · simp [pointBurden, hn]
    · simp [pointBurden, hn]
  have hlength : 2 * v.length ≤ (ns.map fun n => if isHalf n then 1 else 2).sum := by
    have := sum_joinPairs (f := fun n => if isHalf n then 1 else 2) (g := fun _ => 2)
      (fun n hn => by simp [hn]) (fun n hn => by simp [hn]) (fun _ => le_rfl) hjoin
    simpa [Nat.mul_comm] using this
  have hpot : potential (written asciiOnly quote v) ≤ (v.map (burden asciiOnly quote)).sum :=
    potential_written hq v
  rcases burden_of_decodes hq (fun c hc => mem_written hq hc) hscan hdec with hlt | ⟨-, hs⟩
  · omega
  · have := length_of_singly hq hs
    exact List.count_eq_zero.1 (by omega)

end Literal

open Literal Escape in
/-- A string literal is one token and is read back to the value it was written for exactly if the
value has no backslash in it. -/
theorem read_string_iff (asciiOnly : Bool) (v : List Char) :
    (Lexeme.string? (Escape.string asciiOnly v) = some (Escape.string asciiOnly v).length ∧
      Literal.string (String.ofList (Escape.string asciiOnly v)) = .ok (String.ofList v)) ↔
      '\\' ∉ v := by
  have hq := quoteFor_eq v
  have hstring := Escape.string_eq asciiOnly v
  generalize quoteFor v = quote at hq hstring
  have hlex : Lexeme.string? (Escape.string asciiOnly v) =
      some (Escape.string asciiOnly v).length ↔ Scanned quote (written asciiOnly quote v) := by
    rw [hstring, Scanned]
    rcases hq with rfl | rfl <;> simp [Lexeme.string?]
  have hlit : Literal.string (String.ofList (Escape.string asciiOnly v)) = .ok (String.ofList v) ↔
      ∃ ns, Decodes (written asciiOnly quote v) ns ∧ joinPairs ns = .ok v := by
    have hbody : ((String.ofList (Escape.string asciiOnly v)).toList.drop 1).dropLast =
        written asciiOnly quote v := by
      rw [String.toList_ofList, hstring]
      simp
    rw [Literal.string, hbody]
    refine ⟨fun h => ?_, ?_⟩
    · obtain ⟨ns, hns, h⟩ := bind_eq_ok_iff.1 h
      obtain ⟨w, hw, h⟩ := bind_eq_ok_iff.1 h
      obtain rfl : w = v := by
        simpa using congrArg String.toList (Except.ok.inj h)
      exact ⟨ns, decodes_of_codePoints le_rfl hns, hw⟩
    · rintro ⟨ns, hns, hjoin⟩
      rw [codePoints_of_decodes hns le_rfl]
      dsimp only [bind, Except.bind]
      rw [hjoin]
      rfl
  rw [hlex, hlit]
  refine ⟨?_, fun hv => ?_⟩
  · rintro ⟨hscan, ns, hdec, hjoin⟩
    exact backslash_notMem_of_read hq hscan hdec hjoin
  · exact ⟨scanned_written hq hv, _, decodes_written hq hv, joinPairs_points asciiOnly v⟩

/-- A lone backslash is written before the closing quote, which it takes along. -/
theorem lone_backslash_not_read :
    ¬(Lexeme.string? (Escape.string true ['\\']) = some (Escape.string true ['\\']).length ∧
      Literal.string (String.ofList (Escape.string true ['\\'])) =
        .ok (String.ofList ['\\'])) := by
  have hnone : Lexeme.string? (Escape.string true ['\\']) = none := by decide
  rw [hnone]
  rintro ⟨⟨⟩, -⟩

end Debundle
