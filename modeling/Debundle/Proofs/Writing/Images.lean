import Debundle.Proofs.Numeral.Digits
import Debundle.Reading.Literal
import Debundle.Token.Lexeme
import Debundle.Writing.Escape

/-!
# Characters in string literals

Between its quotes, a string literal is a sequence of images of characters: the character itself,
or one or two escapes. Escapes are read to what they were written for, whatever follows them.
-/
namespace Debundle

namespace Escape

open Text Literal Numeral

variable {asciiOnly : Bool} {quote c : Char} {next : Option Char} {v : List Char}

/-- The image of a character before quotes and characters beyond ASCII are escaped. -/
def shown (next : Option Char) (c : Char) : List Char :=
  if c = '\x00' then
    if next.any isDigitSign then ['\\', 'x', '0', '0'] else ['\\', '0']
  else if c = '\n' then ['\\', 'n']
  else if c = '\r' then ['\\', 'r']
  else if c = '\t' then ['\\', 't']
  else if c = '\x08' then ['\\', 'b']
  else if c = '\x0c' then ['\\', 'f']
  else if c = '\x0b' then ['\\', 'v']
  else if c = '\u2028' || c = '\u2029' || c = '\ufeff' then code true c
  else [c]

/-- The image of a character before the character `next`. -/
def image (asciiOnly : Bool) (quote : Char) (next : Option Char) (c : Char) : List Char :=
  (if asciiOnly then ascii false (shown next c) else shown next c).flatMap fun c =>
    if c = quote then ['\\', quote] else [c]

/-- What stands between the quotes of a literal. -/
def written (asciiOnly : Bool) (quote : Char) (v : List Char) : List Char :=
  (if asciiOnly then ascii false (controls v) else controls v).flatMap fun c =>
    if c = quote then ['\\', quote] else [c]

/-- The quotes that a value is put between. -/
def quoteFor (v : List Char) : Char :=
  if v.count '\'' < v.count '"' then '\'' else '"'

theorem string_eq (asciiOnly : Bool) (v : List Char) :
    string asciiOnly v = quoteFor v :: written asciiOnly (quoteFor v) v ++ [quoteFor v] :=
  rfl

theorem quoteFor_eq (v : List Char) : quoteFor v = '"' ∨ quoteFor v = '\'' := by
  unfold quoteFor
  split_ifs <;> simp

@[simp] theorem written_nil : written asciiOnly quote [] = [] := by
  cases asciiOnly <;> rfl

theorem written_cons (asciiOnly : Bool) (quote c : Char) (v : List Char) :
    written asciiOnly quote (c :: v) =
      image asciiOnly quote v.head? c ++ written asciiOnly quote v := by
  have hc : controls (c :: v) = shown v.head? c ++ controls v := rfl
  cases asciiOnly with
  | false => simp only [written, image, hc, List.flatMap_append, Bool.false_eq_true, if_false]
  | true => simp only [written, image, hc, ascii, List.flatMap_append, if_true]

/-! ## Which characters are escaped -/

/-- Characters with escapes of their own. -/
def isControl (c : Char) : Bool :=
  c ∈ ['\x00', '\n', '\r', '\t', '\x08', '\x0c', '\x0b', '\u2028', '\u2029', '\ufeff']

def isBeyondAscii (c : Char) : Bool :=
  c.toNat < 0x20 || 0x7f ≤ c.toNat

/-- Characters that do not stand for themselves between the quotes. -/
def isSpecial (asciiOnly : Bool) (quote c : Char) : Bool :=
  isControl c || (asciiOnly && isBeyondAscii c) || c = quote

theorem shown_of_not_isControl (h : isControl c = false) : shown next c = [c] := by
  simp only [isControl, List.mem_cons, List.not_mem_nil, or_false, decide_eq_false_iff_not,
    not_or] at h
  simp [shown, h]

theorem image_of_not_isSpecial (h : isSpecial asciiOnly quote c = false) :
    image asciiOnly quote next c = [c] := by
  simp only [isSpecial, Bool.or_eq_false_iff, Bool.and_eq_false_imp, decide_eq_false_iff_not] at h
  obtain ⟨⟨hc, ha⟩, hq⟩ := h
  rw [image, shown_of_not_isControl hc]
  cases asciiOnly with
  | false => simp [hq]
  | true =>
    have hb : ¬(c.toNat < 0x20 ∨ 0x7f ≤ c.toNat) := by simpa [isBeyondAscii] using ha rfl
    simp [ascii, hb, hq]

theorem isBeyondAscii_of_isControl (h : isControl c = true) : isBeyondAscii c = true := by
  simp only [isControl, List.mem_cons, List.not_mem_nil, or_false, decide_eq_true_eq] at h
  rcases h with rfl | rfl | rfl | rfl | rfl | rfl | rfl | rfl | rfl | rfl <;> decide

/-- Of the printable characters only the quote is escaped. -/
theorem isSpecial_of_printable (asciiOnly : Bool) (quote : Char) (h : isBeyondAscii c = false) :
    isSpecial asciiOnly quote c = decide (c = quote) := by
  have hc : isControl c = false := by
    by_contra hc
    simp [isBeyondAscii_of_isControl (by simpa using hc)] at h
  simp [isSpecial, hc, h]

theorem isSpecial_backslash (hq : quote = '"' ∨ quote = '\'') :
    isSpecial asciiOnly quote '\\' = false := by
  rcases hq with rfl | rfl <;> cases asciiOnly <;> decide

/-! ## Escapes -/

/-- The rest of an escape after its backslash, and the code point it is read to. The escape of a
zero is read so unless a digit follows. -/
structure IsEscape (quote : Char) (next : Option Char) (rest : List Char) (n : Nat) : Prop where
  read : ∀ after : List Char, (after.head?.any isOctal = true → next.any isDigitSign = true) →
    escape (rest ++ after) = .ok ([n], after)
  plain : '\\' ∉ rest
  printable : ∀ d ∈ rest, isBeyondAscii d = false
  tail : ∃ d ds, rest = d :: ds ∧ quote ∉ ds

theorem codePoint_hex {width n : Nat} (hw : 0 < width) (hn : n < 16 ^ width) (hle : n ≤ 0x10ffff)
    (after : List Char) :
    codePoint ((hex width n ++ after).take width) = .ok n ∧
      (hex width n ++ after).drop width = after := by
  obtain ⟨hread, hdrop⟩ := readHex?_hex hw hn after
  refine ⟨?_, hdrop⟩
  have h1 : ¬((n : Int) < -2147483648 ∨ 2147483647 < (n : Int)) := by omega
  have h2 : ¬((n : Int) < 0 ∨ 0x10ffff < (n : Int)) := by omega
  simp only [codePoint, hread, Bool.or_eq_true, decide_eq_true_eq, if_neg h1, if_neg h2,
    Int.toNat_natCast]

theorem mem_hex {width n : Nat} (hw : 0 < width) (hn : n < 16 ^ width) {c : Char}
    (h : c ∈ hex width n) :
    isBeyondAscii c = false ∧ c ∉ ['\\', '"', '\'', '\x7b', 'x', 'u'] := by
  obtain ⟨ds, hds, -, hlt, -⟩ := hex_spec hw hn
  rw [hds] at h
  obtain ⟨d, hd, rfl⟩ := List.mem_map.1 h
  have : ∀ d < 16, isBeyondAscii d.digitChar = false ∧
      d.digitChar ∉ ['\\', '"', '\'', '\x7b', 'x', 'u'] := by decide
  exact this d (hlt d hd)

theorem notMem_hex {width n : Nat} (hw : 0 < width) (hn : n < 16 ^ width) {c : Char}
    (hc : c ∈ ['\\', '"', '\'', '\x7b', 'x', 'u']) : c ∉ hex width n :=
  fun h => (mem_hex hw hn h).2 hc

theorem escape_u {rest : List Char} (h : rest.head? ≠ some '\x7b') :
    escape ('u' :: rest) = do return ([← codePoint (rest.take 4)], rest.drop 4) := by
  rw [escape]
  rintro r rfl
  exact h rfl

theorem isEscape_hex (hq : quote = '"' ∨ quote = '\'') {mark : Char} {width n : Nat}
    (hm : mark ≠ '\\' ∧ isBeyondAscii mark = false) (hw : 0 < width) (hn : n < 16 ^ width)
    (hread : ∀ after, escape (mark :: hex width n ++ after) = .ok ([n], after)) :
    IsEscape quote next (mark :: hex width n) n := by
  refine ⟨fun after _ => hread after, ?_, ?_, mark, _, rfl, ?_⟩
  · simpa [Ne.symm hm.1] using notMem_hex hw hn (by simp)
  · rw [List.forall_mem_cons]
    exact ⟨hm.2, fun d hd => (mem_hex hw hn hd).1⟩
  · rcases hq with rfl | rfl <;> exact notMem_hex hw hn (by simp)

theorem isEscape_hex2 (hq : quote = '"' ∨ quote = '\'') {n : Nat} (hn : n ≤ 0xff) :
    IsEscape quote next ('x' :: hex 2 n) n := by
  have hlt : n < 16 ^ 2 := by omega
  refine isEscape_hex hq (by decide) (by decide) hlt fun after => ?_
  obtain ⟨hpoint, hdrop⟩ := codePoint_hex (by decide) hlt (by omega) after
  rw [List.cons_append, escape, hpoint, hdrop]
  rfl

theorem isEscape_hex4 (hq : quote = '"' ∨ quote = '\'') {n : Nat} (hn : n ≤ 0xffff) :
    IsEscape quote next ('u' :: hex 4 n) n := by
  have hlt : n < 16 ^ 4 := by omega
  refine isEscape_hex hq (by decide) (by decide) hlt fun after => ?_
  obtain ⟨hpoint, hdrop⟩ := codePoint_hex (by decide) hlt (by omega) after
  have hhead : (hex 4 n ++ after).head? ≠ some '\x7b' := by
    obtain ⟨ds, hds, hlen, -⟩ := hex_spec (by decide) hlt
    cases hh : hex 4 n with
    | nil =>
      rw [hh, eq_comm, List.map_eq_nil_iff] at hds
      simp [hds] at hlen
    | cons d rest =>
      have := notMem_hex (c := '\x7b') (by decide) hlt (by simp)
      simp only [List.cons_append, List.head?_cons, ne_eq, Option.some.injEq]
      rintro rfl
      exact this (by simp [hh])
  rw [List.cons_append, escape_u hhead, hpoint, hdrop]
  rfl

theorem isEscape_single {d : Char} {n : Nat} (hd : d ≠ '\\' ∧ isBeyondAscii d = false)
    (hread : ∀ after, escape (d :: after) = .ok ([n], after)) : IsEscape quote next [d] n :=
  ⟨fun after _ => hread after, by simpa using Ne.symm hd.1, by simpa using hd.2, d, [], rfl,
    by simp⟩

theorem isEscape_zero (h : next.any isDigitSign = false) : IsEscape quote next ['0'] 0 := by
  refine ⟨fun after hafter => ?_, by simp, List.forall_mem_singleton.2 (by decide), '0', [], rfl,
    by simp⟩
  have hoctal : after.head?.any isOctal = false := by
    by_contra ho
    simp [h] at hafter
    simp [hafter] at ho
  have hwhile : after.takeWhile isOctal = [] := by
    cases after with
    | nil => rfl
    | cons d rest =>
      have hd : isOctal d = false := by simpa using hoctal
      simp [hd]
  have h0 : isOctal '0' = true := by decide
  simp [escape, h0, hwhile, octalValue]

/-! ## Images -/

/-- The code points that the image of a character is read to: two halves where a character beyond
the first plane is escaped. -/
def points (asciiOnly : Bool) (c : Char) : List Nat :=
  if asciiOnly && 0xffff < c.toNat then
    [0xd800 + (c.toNat - 0x10000) / 0x400, 0xdc00 + (c.toNat - 0x10000) % 0x400]
  else [c.toNat]

/-- A piece of a literal is made of escapes that are read to some code points. -/
def IsEscaped (quote : Char) (next : Option Char) (piece : List Char) (ns : List Nat) : Prop :=
  ∃ es : List (List Char × Nat), piece = es.flatMap (fun e => '\\' :: e.1) ∧
    es.map Prod.snd = ns ∧ ∀ e ∈ es, IsEscape quote next e.1 e.2

theorem IsEscape.isEscaped {rest : List Char} {n : Nat} (h : IsEscape quote next rest n) :
    IsEscaped quote next ('\\' :: rest) [n] :=
  ⟨[(rest, n)], by simp, rfl, by simpa using h⟩

theorem IsEscaped.append {p q : List Char} {ns ms : List Nat} (h : IsEscaped quote next p ns)
    (hq : IsEscaped quote next q ms) : IsEscaped quote next (p ++ q) (ns ++ ms) := by
  obtain ⟨es, rfl, rfl, he⟩ := h
  obtain ⟨fs, rfl, rfl, hf⟩ := hq
  exact ⟨es ++ fs, by simp, by simp, fun e h => (List.mem_append.1 h).elim (he e) (hf e)⟩

/-- Only the image of a zero depends on what follows. -/
theorem image_next (h : c ≠ '\x00') :
    image asciiOnly quote next c = image asciiOnly quote none c := by
  simp [image, shown, h]

theorem isEscaped_control (hq : quote = '"' ∨ quote = '\'') (hc : isControl c = true) :
    IsEscaped quote next (image asciiOnly quote next c) [c.toNat] := by
  have short : ∀ {d : Char}, image asciiOnly quote next c = ['\\', d] →
      d ≠ '\\' ∧ isBeyondAscii d = false → (∀ after, escape (d :: after) = .ok ([c.toNat], after)) →
      IsEscaped quote next (image asciiOnly quote next c) [c.toNat] := by
    intro d himage hd hread
    rw [himage]
    exact (isEscape_single hd hread).isEscaped
  have long : image asciiOnly quote next c = '\\' :: 'u' :: hex 4 c.toNat → c.toNat ≤ 0xffff →
      IsEscaped quote next (image asciiOnly quote next c) [c.toNat] := by
    intro himage hn
    rw [himage]
    exact (isEscape_hex4 hq hn).isEscaped
  simp only [isControl, List.mem_cons, List.not_mem_nil, or_false, decide_eq_true_eq] at hc
  rcases hc with rfl | rfl | rfl | rfl | rfl | rfl | rfl | rfl | rfl | rfl
  · cases hnext : next.any isDigitSign with
    | true =>
      have himage : image asciiOnly quote next '\x00' = '\\' :: 'x' :: hex 2 0 := by
        rcases hq with rfl | rfl <;> cases asciiOnly <;> simp [image, shown, hnext] <;> rfl
      rw [himage]
      exact (isEscape_hex2 hq (by decide)).isEscaped
    | false =>
      have himage : image asciiOnly quote next '\x00' = ['\\', '0'] := by
        rcases hq with rfl | rfl <;> cases asciiOnly <;> simp [image, shown, hnext] <;> rfl
      rw [himage]
      exact (isEscape_zero hnext).isEscaped
  · exact short (d := 'n') (by rcases hq with rfl | rfl <;> cases asciiOnly <;> rfl) (by decide)
      fun _ => rfl
  · exact short (d := 'r') (by rcases hq with rfl | rfl <;> cases asciiOnly <;> rfl) (by decide)
      fun _ => rfl
  · exact short (d := 't') (by rcases hq with rfl | rfl <;> cases asciiOnly <;> rfl) (by decide)
      fun _ => rfl
  · exact short (d := 'b') (by rcases hq with rfl | rfl <;> cases asciiOnly <;> rfl) (by decide)
      fun _ => rfl
  · exact short (d := 'f') (by rcases hq with rfl | rfl <;> cases asciiOnly <;> rfl) (by decide)
      fun _ => rfl
  · exact short (d := 'v') (by rcases hq with rfl | rfl <;> cases asciiOnly <;> rfl) (by decide)
      fun _ => rfl
  all_goals
    refine long ?_ (by decide)
    rw [image_next (by decide)]
    rcases hq with rfl | rfl <;> cases asciiOnly <;> decide

theorem toNat_bounds (c : Char) :
    c.toNat < 0xd800 ∨ (0xdfff < c.toNat ∧ c.toNat < 0x110000) :=
  c.valid

theorem isEscaped_code (hq : quote = '"' ∨ quote = '\'') (c : Char) :
    IsEscaped quote next (code false c) (points true c) := by
  have hlt := toNat_bounds c
  have hpoints : c.toNat ≤ 0xffff → points true c = [c.toNat] := fun h => by
    rw [points, if_neg (by simpa using h)]
  rw [code]
  split_ifs with h2 h4
  · have h2 : c.toNat ≤ 0xff := by simpa using h2
    rw [hpoints (by omega)]
    exact (isEscape_hex2 hq h2).isEscaped
  · rw [hpoints h4]
    exact (isEscape_hex4 hq h4).isEscaped
  · rw [points, if_pos (by simpa using h4)]
    have hi : 0xd800 + (c.toNat - 0x10000) / 0x400 ≤ 0xffff := by omega
    have lo : 0xdc00 + (c.toNat - 0x10000) % 0x400 ≤ 0xffff := by omega
    exact (isEscape_hex4 hq hi).isEscaped.append (isEscape_hex4 hq lo).isEscaped

theorem quote_notMem_code (hq : quote = '"' ∨ quote = '\'') (c : Char) : quote ∉ code false c := by
  have hlt := toNat_bounds c
  have hx : quote ≠ '\\' ∧ quote ≠ 'x' ∧ quote ≠ 'u' := by rcases hq with rfl | rfl <;> decide
  have hhex : ∀ (width : Nat) {n : Nat}, 0 < width → n < 16 ^ width → quote ∉ hex width n := by
    intro width n hw hn
    rcases hq with rfl | rfl <;> exact notMem_hex hw hn (by simp)
  unfold code
  dsimp only
  split_ifs with h2 h4
  · simp only [Bool.and_eq_true, decide_eq_true_eq] at h2
    simp [hx, hhex 2 (by decide) (by omega : c.toNat < 16 ^ 2)]
  · simp [hx, hhex 4 (by decide) (by omega : c.toNat < 16 ^ 4)]
  · simp only [List.mem_cons, List.mem_append, hx, false_or, not_or]
    refine ⟨hhex 4 (by decide) (by omega), hhex 4 (by decide) (by omega)⟩

theorem isEscaped_image (hq : quote = '"' ∨ quote = '\'')
    (h : isSpecial asciiOnly quote c = true) :
    IsEscaped quote next (image asciiOnly quote next c) (points asciiOnly c) := by
  have hone : c.toNat ≤ 0xffff → points asciiOnly c = [c.toNat] := fun hn => by
    simp [points, Nat.not_lt.2 hn]
  by_cases hc : isControl c = true
  · have hn : c.toNat ≤ 0xffff := by
      simp only [isControl, List.mem_cons, List.not_mem_nil, or_false, decide_eq_true_eq] at hc
      rcases hc with rfl | rfl | rfl | rfl | rfl | rfl | rfl | rfl | rfl | rfl <;> decide
    rw [hone hn]
    exact isEscaped_control hq hc
  · have hshown : shown next c = [c] := shown_of_not_isControl (by simpa using hc)
    by_cases ha : (asciiOnly && isBeyondAscii c) = true
    · obtain ⟨rfl, hb⟩ : asciiOnly = true ∧ isBeyondAscii c = true := by simpa using ha
      have himage : image true quote next c = code false c := by
        have hascii : ascii false [c] = code false c := by
          have hb : c.toNat < 0x20 ∨ 0x7f ≤ c.toNat := by simpa [isBeyondAscii] using hb
          simp [ascii, hb]
        have hid : ∀ cs : List Char, quote ∉ cs →
            cs.flatMap (fun c => if c = quote then ['\\', quote] else [c]) = cs := by
          intro cs hcs
          induction cs with
          | nil => rfl
          | cons d cs ih =>
            rw [List.mem_cons, not_or] at hcs
            simp [Ne.symm hcs.1, ih hcs.2]
        rw [image, if_pos rfl, hshown, hascii, hid _ (quote_notMem_code hq c)]
      rw [himage]
      exact isEscaped_code hq c
    · obtain rfl : c = quote := by
        simp only [isSpecial, hc, ha, Bool.false_or, decide_eq_true_eq] at h
        simpa using h
      have himage : image asciiOnly c next c = ['\\', c] := by
        rcases hq with rfl | rfl <;> cases asciiOnly <;> rfl
      have hread : ∀ after, escape (c :: after) = .ok ([c.toNat], after) := by
        rcases hq with rfl | rfl <;> exact fun _ => rfl
      have hn : c.toNat ≤ 0xffff := by rcases hq with rfl | rfl <;> decide
      rw [himage, hone hn]
      refine (isEscape_single ?_ hread).isEscaped
      rcases hq with rfl | rfl <;> decide

/-! ## Written texts -/

theorem image_cases (asciiOnly : Bool) (hq : quote = '"' ∨ quote = '\'') (next : Option Char)
    (c : Char) :
    image asciiOnly quote next c = [c] ∧ isSpecial asciiOnly quote c = false ∨
      IsEscaped quote next (image asciiOnly quote next c) (points asciiOnly c) ∧
        isSpecial asciiOnly quote c = true := by
  cases h : isSpecial asciiOnly quote c with
  | false => exact .inl ⟨image_of_not_isSpecial h, rfl⟩
  | true => exact .inr ⟨isEscaped_image hq h, rfl⟩

theorem IsEscaped.head {piece : List Char} {n : Nat} {ns : List Nat}
    (h : IsEscaped quote next piece (n :: ns)) : piece.head? = some '\\' := by
  obtain ⟨es, rfl, hn, -⟩ := h
  cases es with
  | nil => cases hn
  | cons e es => rfl

theorem head_image (asciiOnly : Bool) (hq : quote = '"' ∨ quote = '\'') (next : Option Char)
    (c : Char) :
    image asciiOnly quote next c = [c] ∨ (image asciiOnly quote next c).head? = some '\\' := by
  rcases image_cases asciiOnly hq next c with ⟨h, -⟩ | ⟨h, -⟩
  · exact .inl h
  · refine .inr ?_
    unfold points at h
    split_ifs at h
    · exact h.head
    · exact h.head

/-- A text that starts with an octal digit was written for a value that starts with a digit. -/
theorem isDigitSign_of_isOctal (hq : quote = '"' ∨ quote = '\'')
    (h : (written asciiOnly quote v).head?.any isOctal = true) :
    v.head?.any isDigitSign = true := by
  cases v with
  | nil => simp at h
  | cons c v =>
    rw [written_cons] at h
    have hno : isOctal '\\' = false := by decide
    rcases head_image asciiOnly hq v.head? c with himage | himage
    · rw [himage] at h
      have ho : isOctal c = true := by simpa using h
      have hn : 48 ≤ c.toNat ∧ c.toNat ≤ 55 := by
        simpa [isOctal, Char.le_def, UInt32.le_iff_toNat_le] using ho
      have hdigit : ∀ n ≤ 55, 48 ≤ n → isDigitSign (Char.ofNat n) = true := by decide
      have := hdigit c.toNat hn.2 hn.1
      rw [Char.ofNat_toNat] at this
      simpa using this
    · rw [List.head?_append, himage] at h
      simp [hno] at h

theorem mem_written (hq : quote = '"' ∨ quote = '\'') {d : Char}
    (h : d ∈ written asciiOnly quote v) :
    d = '\\' ∨ d = quote ∨ isSpecial asciiOnly quote d = false := by
  induction v with
  | nil => simp at h
  | cons c v ih =>
    rw [written_cons, List.mem_append] at h
    rcases h with h | h
    · rcases image_cases asciiOnly hq v.head? c with ⟨himage, hc⟩ | ⟨himage, -⟩
      · rw [himage, List.mem_singleton] at h
        exact .inr (.inr (h ▸ hc))
      · obtain ⟨es, hes, -, hall⟩ := himage
        rw [hes, List.mem_flatMap] at h
        obtain ⟨e, he, hd⟩ := h
        rcases List.mem_cons.1 hd with rfl | hd
        · exact .inl rfl
        · have hs := isSpecial_of_printable asciiOnly quote ((hall e he).printable d hd)
          by_cases hdq : d = quote
          · exact .inr (.inl hdq)
          · exact .inr (.inr (by simpa [hdq] using hs))
    · exact ih h

/-- Characters other than backslashes at the start of a written text stand for themselves. -/
theorem written_eq_append (hq : quote = '"' ∨ quote = '\'') {taken rest : List Char}
    (h : written asciiOnly quote v = taken ++ rest) (ht : '\\' ∉ taken) :
    ∃ w, v = taken ++ w ∧ rest = written asciiOnly quote w := by
  induction taken generalizing v with
  | nil => exact ⟨v, rfl, h.symm⟩
  | cons d taken ih =>
    rw [List.mem_cons, not_or] at ht
    cases v with
    | nil => simp at h
    | cons c v =>
      rw [written_cons] at h
      rcases head_image asciiOnly hq v.head? c with himage | himage
      · rw [himage, List.singleton_append, List.cons_append, List.cons.injEq] at h
        obtain ⟨rfl, h⟩ := h
        obtain ⟨w, rfl, hw⟩ := ih h ht.2
        exact ⟨w, rfl, hw⟩
      · have hhead := congrArg List.head? h
        rw [List.head?_append, himage] at hhead
        cases hhead
        exact absurd rfl ht.1

end Escape

end Debundle
