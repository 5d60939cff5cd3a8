import Mathlib
import Debundle.Numeral.Read

/-!
# Digits are read back

A natural number that is written in decimal, or in hexadecimal with a fixed width, is read back as
itself. What is read as a hexadecimal number has no backslash in it.
-/
namespace Debundle.Numeral

open Text

theorem exists_digits {b : Nat} (hb : 1 < b) (n : Nat) :
    ∃ ds : List Nat, Nat.toDigits b n = ds.map Nat.digitChar ∧ (∀ d ∈ ds, d < b) ∧
      ds.foldl (fun t d => t * b + d) 0 = n := by
  induction n using Nat.strongRecOn with
  | _ n ih =>
    by_cases hn : n < b
    · exact ⟨[n], by simp [Nat.toDigits_of_lt_base hn, hn]⟩
    · have hpos : 0 < n / b := Nat.div_pos (Nat.le_of_not_lt hn) (by omega)
      have hmod : n % b < b := Nat.mod_lt n (by omega)
      obtain ⟨ds, hds, hlt, hval⟩ := ih (n / b) (Nat.div_lt_self (by omega) hb)
      refine ⟨ds ++ [n % b], ?_, ?_, ?_⟩
      · rw [List.map_append, ← hds, List.map_singleton, ← Nat.toDigits_of_lt_base hmod,
          Nat.toDigits_append_toDigits hb hpos hmod, Nat.div_add_mod]
      · simpa [or_imp, forall_and] using ⟨hlt, hmod⟩
      · rw [List.foldl_append, hval, List.foldl_cons, List.foldl_nil, Nat.div_add_mod']

/-! ## Hexadecimal numbers -/

def isHexDigit (c : Char) : Bool :=
  (hexValue? c).isSome

/-- The number that hexadecimal digits stand for. -/
def hexNumber (cs : List Char) : Nat :=
  cs.foldl (fun t c => t * 16 + (hexValue? c).getD 0) 0

theorem isHexDigit_spec {c : Char} (h : isHexDigit c = true) :
    isMargin c = false ∧ plainDigit c = c ∧
      c ∉ ['+', '-', '_', 'x', 'X', '\\', '"', '\'', '{', '}'] := by
  have hlt : c.toNat < 128 := by
    have toNat : ∀ {d : Char}, c ≤ d → c.toNat ≤ d.toNat := fun hd => hd
    unfold isHexDigit hexValue? at h
    split_ifs at h with hdigit hlower hupper
    · simp only [Char.isDigit, Bool.and_eq_true, decide_eq_true_eq] at hdigit
      exact Nat.lt_of_le_of_lt (toNat (d := '9') hdigit.2) (by decide)
    · simp only [Bool.and_eq_true, decide_eq_true_eq] at hlower
      exact Nat.lt_of_le_of_lt (toNat hlower.2) (by decide)
    · simp only [Bool.and_eq_true, decide_eq_true_eq] at hupper
      exact Nat.lt_of_le_of_lt (toNat hupper.2) (by decide)
    · cases h
  have all : ∀ n < 128, isHexDigit (Char.ofNat n) = true → isMargin (Char.ofNat n) = false ∧
      plainDigit (Char.ofNat n) = Char.ofNat n ∧
      Char.ofNat n ∉ ['+', '-', '_', 'x', 'X', '\\', '"', '\'', '{', '}'] := by decide
  have := all c.toNat hlt
  rw [Char.ofNat_toNat] at this
  exact this h

theorem isHexDigit_ne {c d : Char} (h : isHexDigit c = true)
    (hd : d ∈ ['+', '-', '_', 'x', 'X', '\\', '"', '\'', '{', '}']) : c ≠ d :=
  fun heq => (isHexDigit_spec h).2.2 (heq ▸ hd)

variable {cs : List Char}

theorem readDigits_hex (h : ∀ c ∈ cs, isHexDigit c = true) (total : Nat) :
    readDigits hexValue? 16 total cs =
      some (cs.foldl (fun t c => t * 16 + (hexValue? c).getD 0) total) := by
  induction cs generalizing total with
  | nil => rfl
  | cons c cs ih =>
    rw [List.forall_mem_cons] at h
    obtain ⟨v, hv⟩ := Option.isSome_iff_exists.1 h.1
    have hne := isHexDigit_ne h.1 (d := '_') (by simp)
    rw [readDigits, hv]
    · simpa [hv] using ih h.2 _
    · exact fun heq _ => hne heq
    · exact fun c rest heq _ => hne heq

theorem trimBy_eq_self {p : Char → Bool} (h : ∀ c ∈ cs, p c = false) : trimBy p cs = cs := by
  have drop : ∀ {xs : List Char}, (∀ c ∈ xs, p c = false) → xs.dropWhile p = xs := by
    intro xs hxs
    cases xs with
    | nil => rfl
    | cons x xs => simp [hxs x (by simp)]
  rw [trimBy, drop h, drop (by simpa using h), List.reverse_reverse]

theorem readHex?_hexNumber (hne : cs ≠ []) (h : ∀ c ∈ cs, isHexDigit c = true) :
    readHex? cs = some (hexNumber cs : Int) := by
  have htrim : trimMargins cs = cs := trimBy_eq_self fun c hc => (isHexDigit_spec (h c hc)).1
  have hplain : cs.map plainDigit = cs :=
    (List.map_congr_left fun c hc => (isHexDigit_spec (h c hc)).2.1).trans (List.map_id cs)
  have ne : ∀ {c d : Char}, c ∈ cs → d ∈ ['+', '-', '_', 'x', 'X', '\\', '"', '\'', '{', '}'] →
      c ≠ d := fun hc hd => isHexDigit_ne (h _ hc) hd
  have hsign : splitSign cs = (false, cs) := by
    cases cs with
    | nil => exact absurd rfl hne
    | cons c cs =>
      rw [splitSign]
      · exact fun rest heq => ne (by simp) (by simp) (List.cons.inj heq).1
      · exact fun rest heq => ne (by simp) (by simp) (List.cons.inj heq).1
  have hmark : dropHexMark cs = cs := by
    unfold dropHexMark
    split
    · rename_i x rest
      have hx : x ∈ '0' :: x :: rest := by simp
      simp [ne hx (d := 'x') (by simp), ne hx (d := 'X') (by simp)]
    · rfl
  have hnat : readNatural hexValue? 16 cs = some (hexNumber cs) := by
    unfold readNatural
    split
    · exact absurd rfl hne
    · exact absurd rfl (ne (c := '_') (by simp) (by simp))
    · exact readDigits_hex h 0
  simp [readHex?, htrim, hplain, hsign, hmark, hnat]

theorem hexValue?_digitChar : ∀ d < 16, hexValue? d.digitChar = some d := by decide

theorem readHex?_digits {ds : List Nat} (hne : ds ≠ []) (h : ∀ d ∈ ds, d < 16) :
    readHex? (ds.map Nat.digitChar) = some ((ds.foldl (fun t d => t * 16 + d) 0 : Nat) : Int) := by
  have hnumber : ∀ total : Nat, (ds.map Nat.digitChar).foldl
      (fun t c => t * 16 + (hexValue? c).getD 0) total = ds.foldl (fun t d => t * 16 + d) total := by
    intro total
    rw [List.foldl_map]
    exact List.foldl_ext _ _ _ fun t d hd => by rw [hexValue?_digitChar d (h d hd)]; rfl
  rw [readHex?_hexNumber (by simpa using hne), hexNumber, hnumber]
  refine List.forall_mem_map.2 fun d hd => ?_
  rw [isHexDigit, hexValue?_digitChar d (h d hd)]
  rfl

theorem hex_spec {width n : Nat} (hw : 0 < width) (hn : n < 16 ^ width) :
    ∃ ds : List Nat, hex width n = ds.map Nat.digitChar ∧ ds.length = width ∧
      (∀ d ∈ ds, d < 16) ∧ ds.foldl (fun t d => t * 16 + d) 0 = n := by
  obtain ⟨ds, hds, hlt, hval⟩ := exists_digits (b := 16) (by decide) n
  have hlen : ds.length ≤ width := by
    have := (Nat.length_toDigits_le_iff (b := 16) (n := n) (by decide) hw).2 hn
    rwa [hds, List.length_map] at this
  have hzero : ∀ k : Nat, (List.replicate k 0).foldl (fun t d => t * 16 + d) 0 = 0 := by
    intro k
    induction k with
    | zero => rfl
    | succ k ih => simpa [List.replicate_succ] using ih
  refine ⟨List.replicate (width - ds.length) 0 ++ ds, ?_, ?_, ?_, ?_⟩
  · rw [hex, hds]
    simp [Nat.digitChar]
  · simp only [List.length_append, List.length_replicate]
    omega
  · simp only [List.mem_append, List.mem_replicate]
    rintro d (⟨-, rfl⟩ | hd)
    · decide
    · exact hlt d hd
  · rw [List.foldl_append, hzero, hval]

theorem readHex?_hex {width n : Nat} (hw : 0 < width) (hn : n < 16 ^ width) (rest : List Char) :
    readHex? ((hex width n ++ rest).take width) = some (n : Int) ∧
      (hex width n ++ rest).drop width = rest := by
  obtain ⟨ds, hds, hlen, hlt, hval⟩ := hex_spec hw hn
  have hlen' : (hex width n).length = width := by rw [hds, List.length_map, hlen]
  have hne : ds ≠ [] := by
    rintro rfl
    simp at hlen
    omega
  rw [List.take_left' hlen', List.drop_left' hlen', hds, readHex?_digits hne hlt, hval]
  exact ⟨rfl, rfl⟩

/-! ## Backslashes are no digits -/

theorem mem_trimBy {p : Char → Bool} {c : Char} (hc : p c = false) {cs : List Char} (h : c ∈ cs) :
    c ∈ trimBy p cs := by
  have drop : ∀ {xs : List Char}, c ∈ xs → c ∈ xs.dropWhile p := by
    intro xs hx
    induction xs with
    | nil => exact hx
    | cons x xs ih =>
      rw [List.dropWhile_cons]
      split
      · rename_i hp
        rcases List.mem_cons.1 hx with rfl | hx
        · simp [hc] at hp
        · exact ih hx
      · exact hx
  exact List.mem_reverse.2 (drop (List.mem_reverse.2 (drop h)))

theorem readDigits_none {cs : List Char} (h : '\\' ∈ cs) (total : Nat) :
    readDigits hexValue? 16 total cs = none := by
  have hv : hexValue? '\\' = none := by decide
  fun_induction readDigits hexValue? 16 total cs with
  | case1 => simp at h
  | case2 => rfl
  | case3 total c rest ih =>
    have hc : '\\' ∈ c :: rest := by simpa using h
    rcases List.mem_cons.1 hc with rfl | hc
    · simp [hv]
    · cases hvc : hexValue? c with
      | none => rfl
      | some v => simpa [hvc] using ih v hc
  | case4 total c rest _ _ ih =>
    rcases List.mem_cons.1 h with rfl | hc
    · simp [hv]
    · cases hvc : hexValue? c with
      | none => rfl
      | some v => simpa [hvc] using ih v hc

theorem backslash_notMem_of_readHex? {cs : List Char} {n : Int} (h : readHex? cs = some n) :
    '\\' ∉ cs := by
  intro hmem
  have htrim : '\\' ∈ (trimMargins cs).map plainDigit := by
    have hplain : plainDigit '\\' = '\\' := by decide
    exact List.mem_map.2 ⟨'\\', mem_trimBy (by decide) hmem, hplain⟩
  have hsign : ∀ {xs : List Char}, '\\' ∈ xs → '\\' ∈ (splitSign xs).2 := by
    intro xs hx
    unfold splitSign
    split <;> simp_all
  have hmark : ∀ {xs : List Char}, '\\' ∈ xs → '\\' ∈ dropHexMark xs := by
    intro xs hx
    unfold dropHexMark
    split
    · split_ifs with hmark
      · split
        · simp_all
          grind
        · simp_all
          grind
      · exact hx
    · exact hx
  have hnat : ∀ {xs : List Char}, '\\' ∈ xs → readNatural hexValue? 16 xs = none := by
    intro xs hx
    unfold readNatural
    split
    · rfl
    · rfl
    · exact readDigits_none hx 0
  simp [readHex?, hnat (hmark (hsign htrim))] at h

end Debundle.Numeral
