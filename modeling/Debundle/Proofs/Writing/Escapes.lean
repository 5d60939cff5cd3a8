import Debundle.Proofs.Writing.Literals

/-!
# The grammar of string literals

`Literal.Body quote cs us` says that the text `cs` between two quotes is made of characters, escapes
and line continuations, and that these stand for the UTF-16 code units `us`. The value of such a
literal is the one text with these units; a half of a surrogate pair without the other one is an
error (`Literal.string_of_body`).

The literal that is written for a value without backslashes is one token, no shorter text is one,
and the value is read from it (`Literal.string_quoted`).
-/
namespace Debundle.Literal

open Text Numeral Escape

/-! ## Code units -/

/-- The UTF-16 code units of a code point. -/
def units (n : Nat) : List Nat :=
  if n < 0x10000 then [n] else [0xd800 + (n - 0x10000) / 0x400, 0xdc00 + (n - 0x10000) % 0x400]

def unitsOf (cs : List Char) : List Nat :=
  cs.flatMap fun c => units c.toNat

/-- Some unit is a high half with no low half after it, or a low half with no high half before it. -/
def IsUnpaired (us : List Nat) : Prop :=
  ∃ before u after, us = before ++ u :: after ∧
    (isHighHalf u = true ∧ after.head?.any isLowHalf = false ∨
      isLowHalf u = true ∧ before.getLast?.any isHighHalf = false)

theorem not_isLowHalf {n : Nat} (h : isHighHalf n = true) : isLowHalf n = false := by
  simp only [isHighHalf, isLowHalf, Bool.and_eq_true, decide_eq_true_eq, Bool.and_eq_false_iff,
    decide_eq_false_iff_not] at h ⊢
  omega

theorem not_isUnpaired_nil : ¬IsUnpaired [] := by
  rintro ⟨before, u, after, h, -⟩
  simp at h

theorem isUnpaired_high {u : Nat} {us : List Nat} (hu : isHighHalf u = true)
    (hus : us.head?.any isLowHalf = false) : IsUnpaired (u :: us) :=
  ⟨[], u, us, rfl, .inl ⟨hu, hus⟩⟩

theorem isUnpaired_low {u : Nat} (us : List Nat) (hu : isLowHalf u = true) :
    IsUnpaired (u :: us) :=
  ⟨[], u, us, rfl, .inr ⟨hu, rfl⟩⟩

/-- What goes before is no matter if it does not end in a high half. -/
theorem IsUnpaired.append (taken : List Nat) {us : List Nat} (h : IsUnpaired us)
    (hlast : taken.getLast?.any isHighHalf = false) : IsUnpaired (taken ++ us) := by
  obtain ⟨before, u, after, rfl, hu⟩ := h
  refine ⟨taken ++ before, u, after, by simp, hu.imp id fun ⟨hlow, hbefore⟩ => ⟨hlow, ?_⟩⟩
  rw [List.getLast?_append]
  cases hb : before.getLast? with
  | none => simpa using hlast
  | some v => simpa [hb] using hbefore

theorem isUnpaired_cons_iff {u : Nat} {us : List Nat} (hu : isHalf u = false) :
    IsUnpaired (u :: us) ↔ IsUnpaired us := by
  simp only [isHalf, Bool.or_eq_false_iff] at hu
  refine ⟨?_, fun h => h.append [u] (by simp [hu.1])⟩
  rintro ⟨before, v, after, heq, hv⟩
  cases before with
  | nil =>
    cases heq
    simp [hu.1, hu.2] at hv
  | cons w before =>
    cases heq
    refine ⟨before, v, after, rfl, hv.imp id fun h => ⟨h.1, ?_⟩⟩
    cases before with
    | nil => rfl
    | cons => simpa using h.2

theorem isUnpaired_pair_iff {u v : Nat} {us : List Nat} (hu : isHighHalf u = true)
    (hv : isLowHalf v = true) : IsUnpaired (u :: v :: us) ↔ IsUnpaired us := by
  have hv' : isHighHalf v = false := by
    rw [← Bool.not_eq_true]
    exact fun h => by simp [not_isLowHalf h] at hv
  refine ⟨?_, fun h => h.append [u, v] (by simp [hv'])⟩
  rintro ⟨before, w, after, heq, hw⟩
  match before, heq with
  | [], heq =>
    cases heq
    simp [hv, not_isLowHalf hu] at hw
  | [_], heq =>
    cases heq
    simp [hv', hu] at hw
  | _ :: _ :: before, heq =>
    cases heq
    refine ⟨before, w, after, rfl, hw.imp id fun ⟨hlow, hbefore⟩ => ⟨hlow, ?_⟩⟩
    cases before with
    | nil => rfl
    | cons => simpa using hbefore

/-! ## Joined pairs -/

theorem units_of_isHalf {n : Nat} (h : isHalf n = true) : units n = [n] := by
  simp only [isHalf, isHighHalf, isLowHalf, Bool.or_eq_true, Bool.and_eq_true,
    decide_eq_true_eq] at h
  exact if_pos (by omega)

/-- Beyond the first plane, code points have two units, which are halves. -/
theorem units_of_ge {n : Nat} (h : 0x10000 ≤ n) (hn : n ≤ 0x10ffff) :
    ∃ u v, units n = [u, v] ∧ isHighHalf u = true ∧ isLowHalf v = true ∧
      n = 0x10000 + (u - 0xd800) * 0x400 + (v - 0xdc00) := by
  refine ⟨_, _, if_neg (by omega), ?_, ?_, ?_⟩
  · simp only [isHighHalf, Bool.and_eq_true, decide_eq_true_eq]
    omega
  · simp only [isLowHalf, Bool.and_eq_true, decide_eq_true_eq]
    omega
  · omega

theorem units_pair {u v : Nat} (hu : isHighHalf u = true) (hv : isLowHalf v = true) :
    units (0x10000 + (u - 0xd800) * 0x400 + (v - 0xdc00)) = [u, v] := by
  simp only [isHighHalf, isLowHalf, Bool.and_eq_true, decide_eq_true_eq] at hu hv
  rw [units, if_neg (by omega), List.cons.injEq, List.cons.injEq]
  exact ⟨by omega, by omega, rfl⟩

theorem pair_bounds {u v : Nat} (hu : isHighHalf u = true) (hv : isLowHalf v = true) :
    isHalf (0x10000 + (u - 0xd800) * 0x400 + (v - 0xdc00)) = false ∧
      0x10000 + (u - 0xd800) * 0x400 + (v - 0xdc00) ≤ 0x10ffff := by
  simp only [isHalf, isHighHalf, isLowHalf, Bool.and_eq_true, decide_eq_true_eq,
    Bool.or_eq_false_iff, Bool.and_eq_false_iff, decide_eq_false_iff_not] at hu hv ⊢
  omega

theorem isUnpaired_units_iff {n : Nat} (h : isHalf n = false) (hn : n ≤ 0x10ffff)
    (us : List Nat) : IsUnpaired (units n ++ us) ↔ IsUnpaired us := by
  by_cases hlt : n < 0x10000
  · rw [units, if_pos hlt]
    exact isUnpaired_cons_iff h
  · obtain ⟨u, v, huv, hu, hv, -⟩ := units_of_ge (Nat.le_of_not_lt hlt) hn
    rw [huv]
    exact isUnpaired_pair_iff hu hv

theorem head_units {n : Nat} (h : isLowHalf n = false) (hn : n ≤ 0x10ffff) (us : List Nat) :
    (units n ++ us).head?.any isLowHalf = false := by
  by_cases hlt : n < 0x10000
  · simpa [units, if_pos hlt] using h
  · obtain ⟨u, v, huv, hu, -⟩ := units_of_ge (Nat.le_of_not_lt hlt) hn
    simpa [huv] using not_isLowHalf hu

theorem toNat_ofNat {n : Nat} (h : isHalf n = false) (hn : n ≤ 0x10ffff) :
    (Char.ofNat n).toNat = n := by
  simp only [isHalf, isHighHalf, isLowHalf, Bool.or_eq_false_iff, Bool.and_eq_false_iff,
    decide_eq_false_iff_not] at h
  have valid : n.isValidChar := by
    unfold Nat.isValidChar
    omega
  rw [Char.ofNat, dif_pos valid]
  rfl

/-- Code points are joined to the text with their units. -/
theorem joinPairs_spec {ns : List Nat} (h : ∀ n ∈ ns, n ≤ 0x10ffff) :
    (IsUnpaired (ns.flatMap units) → joinPairs ns = .error .loneSurrogate) ∧
      (¬IsUnpaired (ns.flatMap units) → ∃ v, joinPairs ns = .ok v ∧
        unitsOf v = ns.flatMap units) := by
  fun_induction joinPairs ns with
  | case1 => exact ⟨fun hu => absurd hu not_isUnpaired_nil, fun _ => ⟨[], rfl, rfl⟩⟩
  | case2 n hn =>
    refine ⟨fun _ => rfl, fun hno => absurd ?_ hno⟩
    rw [List.flatMap_cons, units_of_isHalf hn]
    obtain hn | hn := Bool.or_eq_true_iff.1 hn
    · exact isUnpaired_high hn rfl
    · exact isUnpaired_low _ hn
  | case3 n hn =>
    have hhalf : isHalf n = false := by simpa [isHalf] using hn
    have hle := h n (.head _)
    rw [List.flatMap_cons, isUnpaired_units_iff hhalf hle]
    exact ⟨fun hu => absurd hu not_isUnpaired_nil,
      fun _ => ⟨_, rfl, by simp [unitsOf, toNat_ofNat hhalf hle]⟩⟩
  | case4 n m rest hn hm ih =>
    obtain ⟨ihu, ihp⟩ := ih fun k hk => h k (.tail _ (.tail _ hk))
    have hunits : (n :: m :: rest).flatMap units = n :: m :: rest.flatMap units := by
      rw [List.flatMap_cons, List.flatMap_cons, units_of_isHalf (by simp [isHalf, hn]),
        units_of_isHalf (by simp [isHalf, hm])]
      rfl
    rw [hunits, isUnpaired_pair_iff hn hm]
    refine ⟨fun hu => by rw [ihu hu]; rfl, fun hno => ?_⟩
    obtain ⟨v, hv, hval⟩ := ihp hno
    refine ⟨Char.ofNat (0x10000 + (n - 0xd800) * 0x400 + (m - 0xdc00)) :: v, by rw [hv]; rfl, ?_⟩
    obtain ⟨hhalf, hle⟩ := pair_bounds hn hm
    rw [← hval, unitsOf, List.flatMap_cons, toNat_ofNat hhalf hle, units_pair hn hm]
    rfl
  | case5 n m rest hn hm =>
    refine ⟨fun _ => rfl, fun hno => absurd ?_ hno⟩
    rw [List.flatMap_cons, units_of_isHalf (by simp [isHalf, hn])]
    exact isUnpaired_high hn (head_units (by simpa using hm) (h m (.tail _ (.head _))) _)
  | case6 n m rest hn hm =>
    refine ⟨fun _ => rfl, fun hno => absurd ?_ hno⟩
    rw [List.flatMap_cons, units_of_isHalf (by simp [isHalf, hm])]
    exact isUnpaired_low _ hm
  | case7 n m rest hn hm ih =>
    obtain ⟨ihu, ihp⟩ := ih fun k hk => h k (.tail _ hk)
    have hhalf : isHalf n = false := by simp [isHalf, hn, hm]
    have hle := h n (.head _)
    rw [List.flatMap_cons, isUnpaired_units_iff hhalf hle]
    refine ⟨fun hu => by rw [ihu hu]; rfl, fun hno => ?_⟩
    obtain ⟨v, hv, hval⟩ := ihp hno
    exact ⟨Char.ofNat n :: v, by rw [hv]; rfl, by
      rw [← hval, unitsOf, List.flatMap_cons, toNat_ofNat hhalf hle]; rfl⟩

theorem units_ne_nil (n : Nat) : units n ≠ [] := by
  unfold units
  split <;> simp

theorem units_append_inj {c d : Char} {us vs : List Nat}
    (h : units c.toNat ++ us = units d.toNat ++ vs) : c = d ∧ us = vs := by
  have half : ∀ e : Char, isHighHalf e.toNat = false := fun e =>
    (Bool.or_eq_false_iff.1 (isHalf_toNat e)).1
  have bound : ∀ e : Char, e.toNat ≤ 0x10ffff := fun e => by have := toNat_bounds e; omega
  have single : ∀ {e f : Char} {ws xs : List Nat}, e.toNat < 0x10000 →
      units e.toNat ++ ws = units f.toNat ++ xs → e = f ∧ ws = xs := by
    intro e f ws xs he heq
    by_cases hf : f.toNat < 0x10000
    · rw [units, units, if_pos he, if_pos hf] at heq
      obtain ⟨hef, hrest⟩ := List.cons.inj heq
      exact ⟨Char.toNat_inj.1 hef, hrest⟩
    · obtain ⟨u, v, huv, hu, -, -⟩ := units_of_ge (Nat.le_of_not_lt hf) (bound f)
      rw [units, if_pos he, huv] at heq
      obtain ⟨rfl, -⟩ := List.cons.inj heq
      rw [half e] at hu
      cases hu
  by_cases hc : c.toNat < 0x10000
  · exact single hc h
  · by_cases hd : d.toNat < 0x10000
    · obtain ⟨rfl, rfl⟩ := single hd h.symm
      exact ⟨rfl, rfl⟩
    · obtain ⟨u, v, huv, -, -, hcval⟩ := units_of_ge (Nat.le_of_not_lt hc) (bound c)
      obtain ⟨u', v', huv', -, -, hdval⟩ := units_of_ge (Nat.le_of_not_lt hd) (bound d)
      simp only [huv, huv', List.cons_append, List.nil_append, List.cons.injEq] at h
      obtain ⟨rfl, rfl, h⟩ := h
      exact ⟨Char.toNat_inj.1 (hcval.trans hdval.symm), h⟩

theorem unitsOf_injective {v w : List Char} (h : unitsOf v = unitsOf w) : v = w := by
  induction v generalizing w with
  | nil =>
    cases w with
    | nil => rfl
    | cons d w => exact absurd (List.append_eq_nil_iff.1 h.symm).1 (units_ne_nil _)
  | cons c v ih =>
    cases w with
    | nil => exact absurd (List.append_eq_nil_iff.1 h).1 (units_ne_nil _)
    | cons d w =>
      obtain ⟨rfl, hrest⟩ := units_append_inj h
      rw [ih hrest]

/-! ## Items of literals -/

/-- How many octal digits may follow the first one of an escape. -/
def octalRest (d : Char) : Nat :=
  if d ≤ '3' then 2 else 1

/-- What a literal is made of, and the code units it stands for. The character after an item matters
to octal escapes only. -/
inductive Item (quote : Char) (next : Option Char) : List Char → List Nat → Prop
  | raw {c : Char} (plain : c ∉ [quote, '\\', '\n', '\r']) : Item quote next [c] (units c.toNat)
  | two {ds : List Char} (digits : ∀ d ∈ ds, isHexDigit d = true) (two : ds.length = 2) :
      Item quote next ('\\' :: 'x' :: ds) [hexNumber ds]
  | four {ds : List Char} (digits : ∀ d ∈ ds, isHexDigit d = true) (four : ds.length = 4) :
      Item quote next ('\\' :: 'u' :: ds) [hexNumber ds]
  | braced {ds : List Char} (digits : ∀ d ∈ ds, isHexDigit d = true) (some : ds ≠ [])
      (most : hexNumber ds ≤ 0x10ffff) :
      Item quote next ('\\' :: 'u' :: '{' :: ds ++ ['}']) (units (hexNumber ds))
  | octal {d : Char} {ds : List Char} (digits : ∀ e ∈ d :: ds, isOctal e = true)
      (most : ds.length ≤ octalRest d)
      (ends : ds.length < octalRest d → next.any isOctal = false) :
      Item quote next ('\\' :: d :: ds) [octalValue (d :: ds)]
  | control {c : Char} {n : Nat} (listed : (c, n) ∈ [('n', 0x0a), ('t', 0x09), ('r', 0x0d),
      ('b', 0x08), ('f', 0x0c), ('v', 0x0b)]) : Item quote next ['\\', c] [n]
  | continuation {ending : List Char} (listed : ending ∈ [['\r', '\n'], ['\r'], ['\n'],
      ['\u2028'], ['\u2029']]) : Item quote next ('\\' :: ending) []
  | other {c : Char} (other : c ∉ ['x', 'u', 'n', 't', 'r', 'b', 'f', 'v', '\r', '\n', '\u2028',
      '\u2029']) (digit : isOctal c = false) : Item quote next ['\\', c] (units c.toNat)

/-- The items between two quotes. -/
inductive Body (quote : Char) : List Char → List Nat → Prop
  | nil : Body quote [] []
  | cons {text rest : List Char} {us vs : List Nat}
      (item : Item quote (rest ++ [quote]).head? text us) (tail : Body quote rest vs) :
      Body quote (text ++ rest) (us ++ vs)

theorem codePoint_digits {ds : List Char} (hne : ds ≠ []) (h : ∀ d ∈ ds, isHexDigit d = true)
    (hle : hexNumber ds ≤ 0x10ffff) : codePoint ds = .ok (hexNumber ds) := by
  have h1 : ¬((hexNumber ds : Int) < -2147483648 ∨ 2147483647 < (hexNumber ds : Int)) := by omega
  have h2 : ¬((hexNumber ds : Int) < 0 ∨ 0x10ffff < (hexNumber ds : Int)) := by omega
  simp only [codePoint, readHex?_hexNumber hne h, Bool.or_eq_true, decide_eq_true_eq, if_neg h1,
    if_neg h2, Int.toNat_natCast]

/-- A number is below the power of the base by its digits. -/
theorem foldl_digits_lt {b : Nat} {value : Char → Nat} {ds : List Char}
    (h : ∀ d ∈ ds, value d < b) (total : Nat) :
    ds.foldl (fun t d => t * b + value d) total < (total + 1) * b ^ ds.length := by
  induction ds generalizing total with
  | nil => simp
  | cons d ds ih =>
    rw [List.forall_mem_cons] at h
    refine Nat.lt_of_lt_of_le (ih h.2 _) ?_
    rw [List.length_cons, Nat.pow_succ', ← Nat.mul_assoc]
    exact Nat.mul_le_mul_right _ (by rw [Nat.add_mul total]; dsimp only; omega)

theorem hexNumber_lt (ds : List Char) : hexNumber ds < 16 ^ ds.length := by
  have digit : ∀ c : Char, (hexValue? c).getD 0 < 16 := by
    intro c
    have toNat : ∀ {d : Char}, c ≤ d → c.toNat ≤ d.toNat := fun hd => hd
    unfold hexValue?
    split_ifs with hdigit hlower hupper
    · simp only [Char.isDigit, Bool.and_eq_true, decide_eq_true_eq] at hdigit
      have : c.toNat ≤ '9'.toNat := toNat hdigit.2
      simp at this ⊢
      omega
    · simp only [Bool.and_eq_true, decide_eq_true_eq] at hlower
      have := toNat hlower.2
      simp at this ⊢
      omega
    · simp only [Bool.and_eq_true, decide_eq_true_eq] at hupper
      have := toNat hupper.2
      simp at this ⊢
      omega
    · decide
  simpa [hexNumber] using foldl_digits_lt (fun d (_ : d ∈ ds) => digit d) 0

theorem octalValue_lt {ds : List Char} (h : ∀ d ∈ ds, isOctal d = true) :
    octalValue ds < 8 ^ ds.length := by
  have digit : ∀ d ∈ ds, d.toNat - 0x30 < 8 := fun d hd => by
    have hle := h d hd
    simp only [isOctal, Bool.and_eq_true, decide_eq_true_eq] at hle
    have : d.toNat ≤ '7'.toNat := hle.2
    simp at this
    omega
  simpa [octalValue] using foldl_digits_lt digit 0

theorem escape_other {c : Char} {rest : List Char} (h : c ∉ ['x', 'u'])
    (hline : c = '\r' → rest.head? ≠ some '\n') :
    escape (c :: rest) =
      if isOctal c then
        let most := if c ≤ '3' then 3 else 2
        let digits := ((c :: rest).takeWhile isOctal).take most
        .ok ([octalValue digits], (c :: rest).drop digits.length)
      else if c = '\r' || c = '\n' || c = '\u2028' || c = '\u2029' then .ok ([], rest)
      else .ok ([(simpleEscape c).toNat], rest) := by
  simp only [List.mem_cons, List.not_mem_nil, or_false, not_or] at h
  rw [escape]
  · exact fun hx => absurd hx h.1
  · exact fun _ hu => absurd hu h.2
  · exact fun hu => absurd hu h.2
  · rintro _ hr rfl
    exact hline hr rfl

theorem escape_octal {d : Char} {ds rest : List Char} (digits : ∀ e ∈ d :: ds, isOctal e = true)
    (most : ds.length ≤ octalRest d)
    (ends : ds.length < octalRest d → rest.head?.any isOctal = false) :
    escape (d :: ds ++ rest) = .ok ([octalValue (d :: ds)], rest) := by
  have hd := digits d (.head _)
  have hmost : (if d ≤ '3' then 3 else 2) = octalRest d + 1 := by
    unfold octalRest
    split <;> rfl
  have htaken : (((d :: ds) ++ rest).takeWhile isOctal).take (octalRest d + 1) = d :: ds := by
    rw [List.takeWhile_append_of_pos digits]
    obtain hlt | heq := Nat.lt_or_eq_of_le most
    · have hnil : rest.takeWhile isOctal = [] := by
        cases rest with
        | nil => rfl
        | cons e rest => exact List.takeWhile_cons_of_neg (by simpa using ends hlt)
      rw [hnil, List.append_nil]
      exact List.take_of_length_le (by simpa using most)
    · exact List.take_left' (by simpa using heq)
  have hother : d ∉ ['x', 'u', '\r'] := by
    intro hmem
    have : ∀ c ∈ ['x', 'u', '\r'], isOctal c = false := by decide
    rw [this d hmem] at hd
    cases hd
  simp only [List.mem_cons, List.not_mem_nil, or_false, not_or] at hother
  rw [List.cons_append, escape_other (by simp [hother]) (fun hr => absurd hr hother.2.2), if_pos hd]
  dsimp only
  rw [hmost, ← List.cons_append, htaken, List.drop_left]

theorem Item.decodes {quote : Char} {next : Option Char} {text rest : List Char} {us ns : List Nat}
    (h : Item quote next text us) (hnext : (rest ++ [quote]).head? = next)
    (hline : rest.head? ≠ some '\n') (hrest : Decodes rest ns) :
    ∃ ps, Decodes (text ++ rest) (ps ++ ns) ∧ (∀ p ∈ ps, p ≤ 0x10ffff) ∧ ps.flatMap units = us := by
  have one : ∀ {cs : List Char} {n : Nat}, escape (cs ++ rest) = .ok ([n], rest) →
      n ≤ 0x10ffff → ∃ ps, Decodes ('\\' :: cs ++ rest) (ps ++ ns) ∧ (∀ p ∈ ps, p ≤ 0x10ffff) ∧
        ps.flatMap units = units n :=
    fun hread hle => ⟨[_], .escape hread hrest, by simpa using hle, by simp⟩
  have small : ∀ {n : Nat}, n < 0x10000 → units n = [n] := fun hn => if_pos hn
  cases h with
  | @raw c plain =>
    have hc : c ≠ '\\' := by rintro rfl; simp at plain
    exact ⟨[c.toNat], .plain hc hrest, by have := toNat_bounds c; simp; omega, by simp⟩
  | @two ds digits two =>
    have hlt : hexNumber ds < 0x10000 := by
      have := hexNumber_lt ds
      rw [two] at this
      omega
    have hne : ds ≠ [] := by rintro rfl; cases two
    rw [← small hlt]
    refine one ?_ (by omega)
    rw [List.cons_append, escape, List.take_left' two, List.drop_left' two,
      codePoint_digits hne digits (by omega)]
    rfl
  | @four ds digits four =>
    have hlt : hexNumber ds < 0x10000 := by
      have := hexNumber_lt ds
      rw [four] at this
      omega
    have hne : ds ≠ [] := by rintro rfl; cases four
    rw [← small hlt]
    refine one ?_ (by omega)
    rw [List.cons_append, escape_u, List.take_left' four, List.drop_left' four,
      codePoint_digits hne digits (by omega)]
    · rfl
    · cases ds with
      | nil => exact absurd rfl hne
      | cons d ds =>
        intro hd
        exact isHexDigit_ne (digits d (.head _)) (d := '{') (by simp) (Option.some.inj hd)
  | @braced ds digits some most =>
    have hbrace : ∀ d ∈ ds, (decide (d ≠ '}')) = true := fun d hd =>
      decide_eq_true (isHexDigit_ne (digits d hd) (by simp))
    have hread : escape ('u' :: '{' :: (ds ++ '}' :: rest)) = .ok ([hexNumber ds], rest) := by
      rw [escape, if_pos (by simp), List.takeWhile_append_of_pos hbrace,
        List.dropWhile_append_of_pos hbrace]
      simp [codePoint_digits some digits most, bind, Except.bind, pure, Except.pure]
    have := @one ('u' :: '{' :: ds ++ ['}']) _ (by simpa using hread) most
    simpa using this
  | @octal d ds digits most ends =>
    have hlt : octalValue (d :: ds) < 0x10000 := by
      have hlen : ds.length ≤ 2 := Nat.le_trans most (by unfold octalRest; split <;> decide)
      refine Nat.lt_trans (octalValue_lt digits) (Nat.lt_of_le_of_lt
        (Nat.pow_le_pow_right (by decide) (Nat.succ_le_succ hlen)) (by decide))
    rw [← small hlt]
    refine one (escape_octal digits most fun hshort => ?_) (by omega)
    have := ends hshort
    rw [← hnext] at this
    cases rest with
    | nil => rfl
    | cons => exact this
  | @control c n listed =>
    have hread : escape (c :: rest) = .ok ([n], rest) ∧ n < 0x10000 := by
      simp only [List.mem_cons, Prod.mk.injEq, List.not_mem_nil, or_false] at listed
      rcases listed with ⟨rfl, rfl⟩ | ⟨rfl, rfl⟩ | ⟨rfl, rfl⟩ | ⟨rfl, rfl⟩ | ⟨rfl, rfl⟩ | ⟨rfl, rfl⟩ <;>
        exact ⟨rfl, by decide⟩
    rw [← small hread.2]
    exact @one [c] n hread.1 (by omega)
  | @continuation ending listed =>
    have hread : escape (ending ++ rest) = .ok ([], rest) := by
      simp only [List.mem_cons, List.not_mem_nil, or_false] at listed
      rcases listed with rfl | rfl | rfl | rfl | rfl
      · rfl
      · exact escape_other (by decide) fun _ => hline
      · rfl
      · rfl
      · rfl
    exact ⟨[], .escape hread hrest, by simp, rfl⟩
  | @other c other digit =>
    have hread : escape (c :: rest) = .ok ([c.toNat], rest) := by
      simp only [List.mem_cons, List.not_mem_nil, or_false, not_or] at other
      rw [escape_other (by simp [other]) (fun hr => absurd hr (by simp [other])), if_neg (by simp [digit]), if_neg (by simp [other])]
      simp [simpleEscape, other]
    exact @one [c] _ hread (by have := toNat_bounds c; omega)

theorem Body.head_ne {quote : Char} {cs : List Char} {us : List Nat} (h : Body quote cs us) :
    cs.head? ≠ some '\n' := by
  cases h with
  | nil => simp
  | cons item tail =>
    cases item with
    | raw plain =>
      simp only [List.mem_cons, not_or] at plain
      simpa using plain.2.2.1
    | _ => simp

theorem Body.decodes {quote : Char} {cs : List Char} {us : List Nat} (h : Body quote cs us) :
    ∃ ns, Decodes cs ns ∧ (∀ n ∈ ns, n ≤ 0x10ffff) ∧ ns.flatMap units = us := by
  induction h with
  | nil => exact ⟨[], .nil, nofun, rfl⟩
  | cons item tail ih =>
    obtain ⟨ns, hdec, hle, rfl⟩ := ih
    obtain ⟨ps, hps, hple, rfl⟩ := item.decodes rfl tail.head_ne hdec
    refine ⟨ps ++ ns, hps, fun n hn => ?_, List.flatMap_append⟩
    exact (List.mem_append.1 hn).elim (hple n) (hle n)

/-- A literal has the one text with its units as its value, unless half of a pair is alone. -/
theorem string_of_body {quote : Char} {cs : List Char} {us : List Nat} (h : Body quote cs us) :
    (¬IsUnpaired us → ∃ s : String,
      string (String.ofList (quote :: cs ++ [quote])) = .ok s ∧
        ∀ v : String, unitsOf v.toList = us ↔ v = s) ∧
    (IsUnpaired us → string (String.ofList (quote :: cs ++ [quote])) = .error .loneSurrogate) := by
  obtain ⟨ns, hdec, hle, rfl⟩ := h.decodes
  obtain ⟨halone, hpaired⟩ := joinPairs_spec hle
  have hstring : string (String.ofList (quote :: cs ++ [quote])) =
      (joinPairs ns).map String.ofList := by
    have hbody : ((String.ofList (quote :: cs ++ [quote])).toList.drop 1).dropLast = cs := by
      simp
    rw [string, hbody, codePoints_of_decodes hdec le_rfl]
    dsimp only [bind, Except.bind]
    cases joinPairs ns <;> rfl
  rw [hstring]
  constructor
  · intro hno
    obtain ⟨v, hv, hunits⟩ := hpaired hno
    refine ⟨String.ofList v, by rw [hv]; rfl, fun w => ?_⟩
    rw [← hunits]
    constructor
    · intro hw
      rw [← unitsOf_injective hw, String.ofList_toList]
    · rintro rfl
      rw [String.toList_ofList]
  · intro hu
    rw [halone hu]
    rfl

theorem string_of_body_pair :
    ∃ s : String,
      string (String.ofList "\"\\1018\\x4B\\uD83d\\\n\\u\x7bde00\x7d\"".toList) = .ok s ∧
      ∀ v : String, unitsOf v.toList = [0x41, 0x38, 0x4b, 0xd83d, 0xde00] ↔ v = s := by
  have body : Body '"' "\\1018\\x4B\\uD83d\\\n\\u\x7bde00\x7d".toList
      [0x41, 0x38, 0x4b, 0xd83d, 0xde00] :=
    .cons (@Item.octal _ _ '1' ['0', '1'] (by decide) (by decide) (by decide))
      (.cons (.raw (c := '8') (by decide))
        (.cons (@Item.two _ _ ['4', 'B'] (by decide) rfl)
          (.cons (@Item.four _ _ ['D', '8', '3', 'd'] (by decide) rfl)
            (.cons (@Item.continuation _ _ ['\n'] (by decide))
              (.cons (@Item.braced _ _ ['d', 'e', '0', '0'] (by decide) (by decide) (by decide))
                .nil)))))
  refine (string_of_body body).1 ?_
  rw [isUnpaired_cons_iff (by decide), isUnpaired_cons_iff (by decide),
    isUnpaired_cons_iff (by decide), isUnpaired_pair_iff (by decide) (by decide)]
  exact not_isUnpaired_nil

/-! ## Literals that are written -/

theorem string?_of_prefix {p cs : List Char} {n : Nat} (hp : p <+: cs)
    (h : Lexeme.string? p = some n) : n ≤ p.length ∧ Lexeme.string? cs = some n := by
  obtain ⟨k, c, rfl, hc, -⟩ := Lexeme.endsAt_string? h
  have hle : k + 1 ≤ p.length := (List.getElem?_eq_some_iff.1 hc).1
  have hlen : (p.take (k + 1)).length = k + 1 := List.length_take_of_le hle
  obtain ⟨more, rfl⟩ := hp
  have hsplit : Lexeme.string? (p.take (k + 1) ++ p.drop (k + 1)) =
      some (p.take (k + 1)).length := by
    rw [List.take_append_drop, hlen, h]
  have := Lexeme.string?_append_left (p.drop (k + 1) ++ more) hsplit
  rw [← List.append_assoc, List.take_append_drop, hlen] at this
  exact ⟨hle, this⟩

/-- A value without backslashes is written as a literal that is one token, and no part of it before
its last quote is one. The value is read from it, and only printable ASCII is in it if only that is
wanted. -/
theorem string_quoted (asciiOnly : Bool) {v : List Char} (hv : '\\' ∉ v) :
    Lexeme.string? (Escape.string asciiOnly v) = some (Escape.string asciiOnly v).length ∧
      (∀ p, p <+: Escape.string asciiOnly v → p ≠ Escape.string asciiOnly v →
        Lexeme.string? p = none) ∧
      string (String.ofList (Escape.string asciiOnly v)) = .ok (String.ofList v) ∧
      (asciiOnly = true → ∀ c ∈ Escape.string asciiOnly v, 0x20 ≤ c.toNat ∧ c.toNat ≤ 0x7e) := by
  obtain ⟨hlex, hread⟩ := string_written asciiOnly hv
  refine ⟨hlex, fun p hp hne => ?_, hread, ?_⟩
  · rw [Option.eq_none_iff_forall_ne_some]
    intro n hn
    obtain ⟨hle, hcs⟩ := string?_of_prefix hp hn
    rw [hlex] at hcs
    obtain rfl := Option.some.inj hcs
    exact hne (hp.eq_of_length (Nat.le_antisymm hp.length_le hle))
  · rintro rfl c hc
    have bounds : ∀ d : Char, isBeyondAscii d = false → 0x20 ≤ d.toNat ∧ d.toNat ≤ 0x7e := by
      intro d hd
      simp only [isBeyondAscii, Bool.or_eq_false_iff, decide_eq_false_iff_not] at hd
      omega
    have hq := quoteFor_eq v
    have quote : isBeyondAscii (quoteFor v) = false := by
      rcases hq with hq | hq <;> rw [hq] <;> decide
    refine bounds c ?_
    rw [Escape.string_eq, List.cons_append, List.mem_cons, List.mem_append,
      List.mem_singleton] at hc
    rcases hc with rfl | hc | rfl
    · exact quote
    · rcases mem_written hq hc with rfl | rfl | hplain
      · decide
      · exact quote
      · simp only [isSpecial, Bool.or_eq_false_iff, Bool.true_and] at hplain
        exact hplain.1.2
    · exact quote

/-- A text with a quote, a zero before a digit and characters of one, two and four bytes. -/
def sample : List Char := "'\x001\u00e9😀".toList

theorem string_quoted_sample :
    Lexeme.string? (Escape.string true sample) = some (Escape.string true sample).length ∧
      (∀ p, p <+: Escape.string true sample → p ≠ Escape.string true sample →
        Lexeme.string? p = none) ∧
      string (String.ofList (Escape.string true sample)) = .ok (String.ofList sample) ∧
      (true = true → ∀ c ∈ Escape.string true sample, 0x20 ≤ c.toNat ∧ c.toNat ≤ 0x7e) :=
  string_quoted true (by decide)

end Debundle.Literal
