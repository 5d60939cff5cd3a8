import Debundle.Proofs.Numeral.Digits
import Debundle.Proofs.Reading.Spelling
import Debundle.Proofs.Scope.Renaming
import Debundle.Writing.Layout

/-!
# Programs in ASCII

With `asciiOnly`, names, strings and regular expressions are written with escapes. Labels are not,
nor are keys without quotes: what is printed is ASCII exactly if these are (`print_isBasic_iff`).
-/
namespace Debundle

namespace Text

/-- The line end and the printable characters of ASCII. -/
def isBasic (c : Char) : Bool :=
  c == '\n' || (0x20 ≤ c.toNat && c.toNat ≤ 0x7e)

/-- A text of basic characters. -/
def IsBasic (cs : List Char) : Prop :=
  ∀ c ∈ cs, isBasic c = true

instance (cs : List Char) : Decidable (IsBasic cs) :=
  decidable_of_iff (cs.all isBasic = true) List.all_eq_true

variable {cs ds : List Char}

@[simp] theorem isBasic_nil : IsBasic [] :=
  nofun

@[simp] theorem isBasic_cons {c : Char} : IsBasic (c :: cs) ↔ isBasic c = true ∧ IsBasic cs :=
  List.forall_mem_cons

@[simp] theorem isBasic_append : IsBasic (cs ++ ds) ↔ IsBasic cs ∧ IsBasic ds :=
  List.forall_mem_append

theorem IsBasic.of_subset (h : IsBasic ds) (hs : cs ⊆ ds) : IsBasic cs :=
  fun c hc => h c (hs hc)

theorem isBasic_replicate {c : Char} (h : isBasic c = true) (n : Nat) :
    IsBasic (List.replicate n c) :=
  fun _ hd => List.eq_of_mem_replicate hd ▸ h

theorem isBasic_flatMap {f : Char → List Char} (h : ∀ c, IsBasic (f c)) (cs : List Char) :
    IsBasic (cs.flatMap f) := by
  intro d hd
  obtain ⟨c, -, hd⟩ := List.mem_flatMap.1 hd
  exact h c d hd

theorem isBasic_toDigits {b : Nat} (hb : 1 < b) (hle : b ≤ 16) (n : Nat) :
    IsBasic (Nat.toDigits b n) := by
  have digit : ∀ d < 16, isBasic d.digitChar = true := by decide
  obtain ⟨ds, hds, hlt, -⟩ := Numeral.exists_digits hb n
  intro c hc
  rw [hds] at hc
  obtain ⟨d, hd, rfl⟩ := List.mem_map.1 hc
  exact digit d (Nat.lt_of_lt_of_le (hlt d hd) hle)

theorem isBasic_hex (width n : Nat) : IsBasic (hex width n) :=
  isBasic_append.2 ⟨isBasic_replicate (by decide) _, isBasic_toDigits (by decide) (by decide) n⟩

end Text

open Text

/-! ## Escapes and numbers -/

namespace Escape

theorem isBasic_code (inName : Bool) (c : Char) : IsBasic (code inName c) := by
  have mark : isBasic '\\' = true ∧ isBasic 'x' = true ∧ isBasic 'u' = true := by decide
  unfold code
  dsimp only
  split_ifs <;> simp only [isBasic_cons, isBasic_append, mark, isBasic_hex, and_self]

theorem isBasic_ascii (inName : Bool) (cs : List Char) : IsBasic (ascii inName cs) := by
  refine isBasic_flatMap (fun c => ?_) cs
  split_ifs with h
  · exact isBasic_code inName c
  · simp only [Bool.or_eq_true, decide_eq_true_eq, not_or] at h
    rw [isBasic_cons, isBasic, Bool.or_eq_true, Bool.and_eq_true, decide_eq_true_eq,
      decide_eq_true_eq]
    exact ⟨.inr ⟨by omega, by omega⟩, isBasic_nil⟩

theorem isBasic_string (value : List Char) : IsBasic (string true value) := by
  have quoted : ∀ (quote : Char) (cs : List Char), isBasic quote = true → IsBasic cs →
      IsBasic (enclose quote cs) := by
    intro quote cs hq hcs
    have hmark : isBasic '\\' = true := by decide
    simp only [enclose, isBasic_cons, isBasic_append, hq, isBasic_nil, and_true, true_and]
    intro d hd
    obtain ⟨c, hc, hd⟩ := List.mem_flatMap.1 hd
    split_ifs at hd
    · simp only [List.mem_cons, List.not_mem_nil, or_false] at hd
      rcases hd with rfl | rfl
      · exact hmark
      · exact hq
    · rw [List.mem_singleton.1 hd]
      exact hcs c hc
  unfold string
  dsimp only
  refine quoted _ _ ?_ (isBasic_ascii false _)
  split_ifs <;> decide

end Escape

namespace Numeral

theorem isBasic_signed (negative : Bool) {cs : List Char} (h : IsBasic cs) :
    IsBasic (signed negative cs).toList := by
  have hminus : isBasic '-' = true := by decide
  rw [signed, String.toList_ofList]
  split_ifs <;> simp [hminus, h]

theorem isBasic_naturalText (n : Nat) : IsBasic (naturalText n) :=
  isBasic_toDigits (by decide) (by decide) n

theorem isBasic_decimalText (style : Style) (x : Double.Decimal) :
    IsBasic (decimalText style x) := by
  have hzero : isBasic '0' = true := by decide
  have hpoint : isBasic '.' = true := by decide
  have hexponent : IsBasic ['e'] := by decide
  have hsigns : IsBasic ['-'] ∧ IsBasic ['+'] ∧ IsBasic ['.', '0'] := by decide
  have hdigits := isBasic_naturalText x.digits
  have htake := fun n => hdigits.of_subset (List.take_subset n _)
  have hdrop := fun n => hdigits.of_subset (List.drop_subset n _)
  have hzeros := isBasic_replicate hzero
  unfold decimalText
  dsimp only
  split_ifs <;> simp only [isBasic_append, isBasic_cons, isBasic_nil, hzero, hpoint, hexponent,
    hsigns, hdigits, htake, hdrop, hzeros, isBasic_naturalText, and_self]

theorem isBasic_wholeText {n : Int} {s : String} (h : wholeText? n = some s) :
    IsBasic s.toList := by
  have hminus : isBasic '-' = true := by decide
  unfold wholeText? at h
  dsimp only at h
  split_ifs at h <;> cases h <;> simp [hminus, isBasic_naturalText]

theorem isBasic_code {value : Numeral} {s : String} (h : value.code? = some s) :
    IsBasic s.toList := by
  unfold code? at h
  split at h
  · exact isBasic_wholeText h
  · split_ifs at h
    · cases h
      decide
    · cases h
      decide
    · cases h
      decide
    · split at h
      · split_ifs at h
        · exact isBasic_wholeText h
        · cases h
          exact isBasic_signed _ (isBasic_decimalText _ _)
      · cases h
        exact isBasic_signed _ (isBasic_decimalText _ _)

end Numeral

/-! ## Rendering -/

namespace Piece

/-- A piece whose text, if it has one, is basic. -/
def IsBasic : Piece → Prop
  | text cs => Text.IsBasic cs
  | _ => True

@[simp] theorem isBasic_text {cs : List Char} : (text cs).IsBasic ↔ Text.IsBasic cs := .rfl

@[simp] theorem isBasic_space : space.IsBasic := trivial

@[simp] theorem isBasic_newline : newline.IsBasic := trivial

@[simp] theorem isBasic_indent : indent.IsBasic := trivial

@[simp] theorem isBasic_halfIndent : halfIndent.IsBasic := trivial

@[simp] theorem isBasic_deeper : deeper.IsBasic := trivial

@[simp] theorem isBasic_shallower : shallower.IsBasic := trivial

@[simp] theorem isBasic_defect (cause : Defect) : (defect cause).IsBasic := trivial

/-- Pieces whose texts are basic. -/
def AllBasic (pieces : List Piece) : Prop :=
  ∀ p ∈ pieces, p.IsBasic

theorem Canvas.isBasic_put (canvas : Canvas) (cs : List Char) :
    Text.IsBasic (canvas.put cs).written ↔ Text.IsBasic canvas.written ∧ Text.IsBasic cs := by
  have hreverse : ∀ ds : List Char, Text.IsBasic ds.reverse ↔ Text.IsBasic ds := by
    simp [Text.IsBasic]
  have hblank : Text.IsBasic [' '] := by decide
  unfold Canvas.put
  split
  · simp
  · rename_i first rest last before hwritten
    rw [hwritten]
    dsimp only
    split_ifs
    all_goals
      simp only [isBasic_append, hreverse, hblank, isBasic_nil, and_true]
      exact and_comm
  · rename_i hwritten
    simp [hwritten, hreverse]

theorem Canvas.isBasic_add (style : Style) (canvas : Canvas) (p : Piece) :
    Text.IsBasic (canvas.add style p).written ↔ Text.IsBasic canvas.written ∧ p.IsBasic := by
  have hblank : isBasic ' ' = true := by decide
  have hline : isBasic '\n' = true := by decide
  have hblanks : ∀ n, Text.IsBasic (List.replicate n ' ') := isBasic_replicate hblank
  unfold Canvas.add
  split <;> try split_ifs
  all_goals simp [isBasic_put, Canvas.blanks, IsBasic, hblank, hline, hblanks]

/-- What is rendered is basic exactly if all texts among the pieces are. -/
theorem isBasic_render (style : Style) (pieces : List Piece) :
    Text.IsBasic (render style pieces) ↔ AllBasic pieces := by
  have run : ∀ canvas : Canvas, Text.IsBasic (pieces.foldl (Canvas.add style) canvas).written ↔
      Text.IsBasic canvas.written ∧ AllBasic pieces := by
    induction pieces with
    | nil => simp [AllBasic]
    | cons p pieces ih =>
      intro canvas
      rw [List.foldl_cons, ih, Canvas.isBasic_add, AllBasic, AllBasic, List.forall_mem_cons,
        and_assoc]
  have := run ⟨[], 0⟩
  simpa [render, Text.IsBasic] using this

end Piece

/-! ## The pieces of a node -/

/-- The texts that a form shows as they are. -/
def Form.exposed {α : Type} : Form α → List String
  | .labeled label _ => [label]
  | .jump _ label => label.toList
  | .property _ key _ => if Layout.isBareKey key.toList then [key] else []
  | _ => []

/-- A form of program text with basic words in it. -/
def Form.IsOrdinary {α : Type} : Form α → Prop
  | .declare word _ | .unary word _ | .update word _ | .assign word .. => IsBasic word.toList
  | .binary word .. => IsBasic word.toList ∧ (precedence? word).isSome = true
  | .function .general .. | .loose .. | .absent _ | .defect _ => False
  | _ => True

/-- A standing in a chain of known operators, or not in a chain. -/
@[simp] def Standing.IsKnown : Standing → Prop
  | .chained operator _ => (precedence? operator).isSome = true
  | _ => True

def Place.IsKnown (place : Place) : Prop :=
  place.standing.IsKnown

namespace Place

@[simp] theorem isKnown_mk {standing : Standing} {leads forInit : Bool} :
    IsKnown ⟨standing, leads, forInit⟩ ↔ standing.IsKnown := .rfl

@[simp] theorem isKnown_root : root.IsKnown := trivial

@[simp] theorem isKnown_inside {place : Place} {standing : Standing} :
    (place.inside standing).IsKnown ↔ standing.IsKnown := .rfl

@[simp] theorem isKnown_leading {place : Place} {standing : Standing} :
    (place.leading standing).IsKnown ↔ standing.IsKnown := .rfl

end Place

theorem Form.isOrdinary_map {α β : Type} (form : Form α) (f : α → β) :
    (form.map f).IsOrdinary ↔ form.IsOrdinary := by
  cases form with
  | function kind => cases kind <;> rfl
  | _ => rfl

theorem Form.exposed_map {α β : Type} (form : Form α) (f : α → β) :
    (form.map f).exposed = form.exposed := by
  cases form <;> rfl

/-- Whether a node of known operators needs parentheses is known. -/
theorem Place.exists_parenthesizes {form : Form Node} (ho : form.IsOrdinary) {place : Place}
    (hplace : place.IsKnown) : ∃ b, place.parenthesizes form = .ok b := by
  have chained : ∀ {operator : String}, (precedence? operator).isSome = true →
      ∀ parent right, place.standing = .chained parent right →
        ∃ b, Standing.encloses parent right operator = .ok b := by
    intro operator hknown parent right hstanding
    have hparent : (precedence? parent).isSome = true := by
      have := hplace
      rwa [IsKnown, hstanding] at this
    obtain ⟨outer, hout⟩ := Option.isSome_iff_exists.1 hparent
    obtain ⟨below, hbelow⟩ := Option.isSome_iff_exists.1 hknown
    exact ⟨_, by rw [Standing.encloses, hout, hbelow]⟩
  unfold parenthesizes
  dsimp only
  split
  case h_6 operator left right =>
    split
    · exact ⟨_, rfl⟩
    · exact ⟨_, rfl⟩
    · exact ⟨_, rfl⟩
    · rename_i parent side hstanding
      obtain ⟨b, hb⟩ := chained ho.2 parent side hstanding
      rw [hb]
      cases b <;> exact ⟨_, rfl⟩
    · exact ⟨_, rfl⟩
  all_goals first | exact ⟨_, rfl⟩ | (split <;> exact ⟨_, rfl⟩)

namespace Layout

open Piece

variable {style : Style} {P : Node → Prop}

@[simp] theorem allBasic_nil : AllBasic [] := nofun

@[simp] theorem allBasic_cons {p : Piece} {pieces : List Piece} :
    AllBasic (p :: pieces) ↔ p.IsBasic ∧ AllBasic pieces :=
  List.forall_mem_cons

@[simp] theorem allBasic_append {ps qs : List Piece} :
    AllBasic (ps ++ qs) ↔ AllBasic ps ∧ AllBasic qs :=
  List.forall_mem_append

theorem allBasic_flatMap {α : Type} {xs : List α} {f : α → List Piece} :
    AllBasic (xs.flatMap f) ↔ ∀ x ∈ xs, AllBasic (f x) := by
  simp only [AllBasic, List.mem_flatMap, forall_exists_index, and_imp]
  exact ⟨fun h x hx p hp => h p x hx hp, fun h p x hx hp => h x hx p hp⟩

theorem allBasic_intercalate {sep : List Piece} (hsep : AllBasic sep) {pss : List (List Piece)} :
    AllBasic (sep.intercalate pss) ↔ ∀ ps ∈ pss, AllBasic ps := by
  induction pss with
  | nil => simp
  | cons ps pss ih =>
    cases pss with
    | nil => simp
    | cons qs pss =>
      rw [List.intercalate_cons_cons, allBasic_append, allBasic_append, ih, List.forall_mem_cons]
      simp [hsep]

theorem isBasic_word {s : String} (h : s.toList.all isBasic = true) : (word s).IsBasic :=
  List.all_eq_true.1 h

/-- The pieces of a part are basic exactly if `P` holds of its node, which is so for a part that
may be left out. -/
structure Reflects (P : Node → Prop) (part : Part) : Prop where
  basic : ∀ place : Place, place.IsKnown → (AllBasic (part.2 place) ↔ P part.1)
  vacant : isVacant part = true → P part.1

theorem Reflects.alone {part : Part} (h : Reflects P part) : AllBasic (alone part) ↔ P part.1 :=
  h.basic _ trivial

theorem Reflects.empty {part : Part} (h : Reflects P part) (he : isEmpty part = true) : P part.1 := by
  refine h.vacant ?_
  unfold isEmpty Form.isEmpty at he
  unfold isVacant
  split at he
  · rename_i hform
    rw [hform]
  · cases he

theorem forall_filter_isEmpty {body : List Part} (h : ∀ part ∈ body, Reflects P part) :
    (∀ part ∈ body.filter (!isEmpty ·), P part.1) ↔ ∀ part ∈ body, P part.1 := by
  constructor
  · intro hall part hpart
    by_cases he : isEmpty part = true
    · exact (h part hpart).empty he
    · exact hall part (List.mem_filter.2 ⟨hpart, by simpa using he⟩)
  · exact fun hall part hpart => hall part (List.mem_filter.1 hpart).1

theorem allBasic_lines {body : List Part} (h : ∀ part ∈ body, Reflects P part) :
    AllBasic (lines body) ↔ ∀ part ∈ body, P part.1 := by
  rw [← forall_filter_isEmpty h, lines, allBasic_flatMap]
  refine forall₂_congr fun part hpart => ?_
  simp [(h part (List.mem_filter.1 hpart).1).alone]

theorem allBasic_paragraphs {body : List Part} (h : ∀ part ∈ body, Reflects P part) :
    AllBasic (paragraphs body) ↔ ∀ part ∈ body, P part.1 := by
  rw [← forall_filter_isEmpty h, paragraphs, allBasic_intercalate (by simp), List.forall_mem_map]
  refine forall₂_congr fun part hpart => ?_
  simp [(h part (List.mem_filter.1 hpart).1).alone]

@[simp] theorem allBasic_noBraces : AllBasic noBraces := by
  simpa [noBraces] using isBasic_word (by decide)

@[simp] theorem allBasic_braces {pieces : List Piece} : AllBasic (braces pieces) ↔ AllBasic pieces := by
  have hopen : (word "\x7b").IsBasic := isBasic_word (by decide)
  have hclose : (word "\x7d").IsBasic := isBasic_word (by decide)
  simp [braces, hopen, hclose]

@[simp] theorem allBasic_parens {pieces : List Piece} : AllBasic (parens pieces) ↔ AllBasic pieces := by
  have hopen : (word "(").IsBasic := isBasic_word (by decide)
  have hclose : (word ")").IsBasic := isBasic_word (by decide)
  simp [parens, hopen, hclose]

theorem allBasic_braced {body : List Part} (h : ∀ part ∈ body, Reflects P part) :
    AllBasic (braced body) ↔ ∀ part ∈ body, P part.1 := by
  unfold braced
  split_ifs with hempty
  · simpa [allBasic_noBraces] using fun n w hpart =>
      (h (n, w) hpart).empty (List.all_eq_true.1 hempty _ hpart)
  · rw [allBasic_braces, allBasic_lines h]

theorem allBasic_block {part : Part} (h : Reflects P part) : AllBasic (block part) ↔ P part.1 := by
  unfold block
  split_ifs with hvacant
  · simp [allBasic_noBraces, h.vacant hvacant]
  · exact h.alone
  · simp [h.alone]

@[simp] theorem allBasic_semicolon : AllBasic semicolon := by
  simpa [semicolon] using isBasic_word (by decide)

@[simp] theorem allBasic_comma : AllBasic comma := by
  simpa [comma] using isBasic_word (by decide)

@[simp] theorem allBasic_colon : AllBasic colon := by
  simpa [colon] using isBasic_word (by decide)

theorem allBasic_controlled {part : Part} (h : Reflects P part) :
    AllBasic (controlled style part) ↔ P part.1 := by
  unfold controlled
  split_ifs with _ hvacant
  · exact allBasic_block h
  · simp [allBasic_semicolon, h.vacant hvacant]
  · exact h.alone

theorem allBasic_beforeElse {part : Part} (h : Reflects P part) :
    AllBasic (beforeElse style part) ↔ P part.1 := by
  unfold beforeElse
  split_ifs
  · exact allBasic_block h
  · exact allBasic_controlled h

theorem allBasic_branches {parts : List Part} (h : ∀ part ∈ parts, Reflects P part) :
    AllBasic (branches parts) ↔ ∀ part ∈ parts, P part.1 := by
  have hafter : ∀ n, AllBasic (afterBranch n) := by
    intro n
    unfold afterBranch
    split <;> simp
  fun_induction branches parts with
  | case1 => simp
  | case2 part => simp [(h part (by simp)).alone]
  | case3 part rest hrest ih =>
    rw [List.forall_mem_cons] at h
    rw [List.forall_mem_cons]
    simp [h.1.alone, hafter, ih h.2]

theorem allBasic_branchBody {body : List Part} (h : ∀ part ∈ body, Reflects P part) :
    AllBasic (branchBody body) ↔ ∀ part ∈ body, P part.1 := by
  simp only [branchBody, allBasic_cons, isBasic_newline, true_and, allBasic_flatMap]
  refine forall₂_congr fun part hpart => ?_
  simp [(h part hpart).alone]

theorem allBasic_listed {parts : List Part} (h : ∀ part ∈ parts, Reflects P part)
    {sep : List Piece} (hsep : AllBasic sep) {place : Place} (hplace : place.IsKnown) :
    AllBasic (sep.intercalate (parts.map fun part => part.2 place)) ↔ ∀ part ∈ parts, P part.1 := by
  rw [allBasic_intercalate hsep, List.forall_mem_map]
  exact forall₂_congr fun part hpart => (h part hpart).basic place hplace

theorem allBasic_headerPart {part : Option Part} (h : ∀ p ∈ part, Reflects P p) {place : Place}
    (hplace : place.IsKnown) : AllBasic (headerPart part place) ↔ ∀ p ∈ part, P p.1 := by
  cases part with
  | none => simp [headerPart, allBasic_semicolon]
  | some p =>
    have hmark : (word ";").IsBasic := isBasic_word (by decide)
    simp [headerPart, hmark, (h p rfl).basic place hplace]

theorem allBasic_definitions {parts : List Part} (h : ∀ part ∈ parts, Reflects P part)
    (inHeader forInit : Bool) :
    AllBasic (definitions style inHeader forInit parts) ↔ ∀ part ∈ parts, P part.1 := by
  have hplace : Place.IsKnown ⟨.plain, false, forInit⟩ := trivial
  have hsep : AllBasic [word ",", newline, indent] := by
    simpa using isBasic_word (by decide)
  unfold definitions
  dsimp only
  split_ifs
  · simp [allBasic_listed h hsep hplace]
  · exact allBasic_listed h allBasic_comma hplace

theorem allBasic_elements {parts : List Part} (h : ∀ part ∈ parts, Reflects P part)
    (place : Place) : AllBasic (elements parts place) ↔ ∀ part ∈ parts, P part.1 := by
  have hplace : (place.inside .member).IsKnown := trivial
  unfold elements
  split_ifs with hempty
  · simp [List.isEmpty_iff.1 hempty]
  · simp [allBasic_listed h allBasic_comma hplace, allBasic_comma]
  · simp [allBasic_listed h allBasic_comma hplace]

theorem allBasic_items {parts : List Part} (h : ∀ part ∈ parts, Reflects P part) (place : Place) :
    AllBasic (comma.intercalate (items place parts)) ↔ ∀ part ∈ parts, P part.1 := by
  rw [allBasic_intercalate allBasic_comma]
  cases parts with
  | nil => simp [items]
  | cons first rest =>
    rw [List.forall_mem_cons] at h
    simp only [items, List.forall_mem_cons, List.forall_mem_map]
    refine and_congr (h.1.basic _ trivial) ?_
    exact forall₂_congr fun part hpart => (h.2 part hpart).basic _ trivial

theorem allBasic_properties {parts : List Part} (h : ∀ part ∈ parts, Reflects P part)
    (place : Place) :
    AllBasic (if parts.isEmpty then noBraces
      else braces ([word ",", newline].intercalate
        (parts.map fun part => indent :: part.2 (place.inside .plain)) ++ [newline])) ↔
      ∀ part ∈ parts, P part.1 := by
  have hmark : (word ",").IsBasic := isBasic_word (by decide)
  split_ifs with hempty
  · simp [List.isEmpty_iff.1 hempty]
  · rw [allBasic_braces, allBasic_append, allBasic_intercalate (by simp [hmark]),
      List.forall_mem_map]
    simp only [allBasic_cons, isBasic_indent, isBasic_newline, allBasic_nil, true_and, and_true]
    exact forall₂_congr fun part hpart => (h part hpart).basic _ trivial

theorem isBasic_name (hs : style.asciiOnly = true) (s : String) : (name style s).IsBasic := by
  rw [name, if_pos hs]
  exact Escape.isBasic_ascii true _

theorem isBasic_key (hs : style.asciiOnly = true) (s : String) :
    (key style s).IsBasic ↔
      ∀ x ∈ (if isBareKey s.toList then [s] else []), Text.IsBasic x.toList := by
  rw [key, hs]
  split_ifs
  · simp
  · simpa using Escape.isBasic_string s.toList

theorem allBasic_arguments {args : List Part} (h : ∀ part ∈ args, Reflects P part) (place : Place) :
    AllBasic (arguments args place) ↔ ∀ part ∈ args, P part.1 := by
  rw [arguments, allBasic_parens]
  exact allBasic_listed h allBasic_comma trivial

theorem allBasic_parameters {params : List Part} (h : ∀ part ∈ params, Reflects P part) :
    AllBasic (parameters params) ↔ ∀ part ∈ params, P part.1 := by
  rw [parameters, allBasic_parens]
  exact allBasic_listed h allBasic_comma Place.isKnown_root

theorem allBasic_maybe {part : Option Part} (h : ∀ p ∈ part, Reflects P p) {before : List Piece}
    (hbefore : AllBasic before) :
    AllBasic (part.elim [] fun p => before ++ alone p) ↔ ∀ p ∈ part, P p.1 := by
  cases part with
  | none => simp
  | some p => simp [(h p rfl).alone, hbefore]

section

attribute [local simp] bare Form.exposed Form.children isBasic_word

/-- The pieces of a form are basic exactly if the texts that it shows as they are and the pieces of
its children are. -/
theorem allBasic_bare (hs : style.asciiOnly = true) {form : Form Part} (ho : form.IsOrdinary)
    (h : ∀ part ∈ form.children, Reflects P part) (place : Place) :
    AllBasic (bare style form place) ↔
      (∀ s ∈ form.exposed, Text.IsBasic s.toList) ∧ ∀ part ∈ form.children, P part.1 := by
  cases form with
  | program body => simpa using allBasic_paragraphs h
  | block body => simpa using allBasic_braced h
  | simple body => simp [(h _ (.head _)).basic]
  | labeled label body => simp [(h _ (.head _)).alone, Piece.word]
  | doWhile body condition =>
    simp (disch := decide) [allBasic_block (h _ (.head _)), (h _ (.tail _ (.head _))).alone]
  | whileLoop condition body | withObject condition body =>
    simp (disch := decide) [(h _ (.head _)).alone, allBasic_controlled (h _ (.tail _ (.head _)))]
  | forLoop init condition step body =>
    simp only [Form.children, List.forall_mem_append, List.forall_mem_cons, Option.mem_toList] at h
    obtain ⟨⟨⟨hinit, hcondition⟩, hstep⟩, hbody, -⟩ := h
    have hbare : (step.map alone).getD [] = step.elim [] fun p => [] ++ alone p := by
      cases step <;> rfl
    have hplace : initPlace.IsKnown := trivial
    simp only [bare, allBasic_append, allBasic_parens, hbare, allBasic_maybe hstep allBasic_nil,
      allBasic_headerPart hinit hplace, allBasic_headerPart hcondition Place.isKnown_root,
      allBasic_controlled hbody, Form.children, List.forall_mem_append, List.forall_mem_cons,
      Option.mem_toList]
    simp (disch := decide) [and_assoc]
  | forIn init object body =>
    simp only [Form.children, List.forall_mem_cons] at h
    obtain ⟨hinit, hobject, hbody, -⟩ := h
    simp (disch := decide) [hinit.basic initPlace trivial, hobject.alone, allBasic_controlled hbody,
      and_assoc]
  | ifElse condition body alternative =>
    have hcondition := h _ (.head _)
    have hbody := h _ (.tail _ (.head _))
    cases alternative with
    | none => simp (disch := decide) [hcondition.alone, allBasic_controlled hbody]
    | some other =>
      have hother := h other (.tail _ (.tail _ (.head _)))
      have hlast : AllBasic (if isIf other then alone other else controlled style other) ↔
          P other.1 := by
        split_ifs
        · exact hother.alone
        · exact allBasic_controlled hother
      simp (disch := decide) [hcondition.alone, allBasic_beforeElse hbody, hlast]
  | exit kind value =>
    have hword : (Piece.word (exitWord kind)).IsBasic := by
      cases kind <;> exact isBasic_word (by decide)
    cases value with
    | none => simp [hword]
    | some part => simp [hword, (h _ (.head _)).alone]
  | jump kind label =>
    have hword : Text.IsBasic (jumpWord kind).toList := by cases kind <;> decide
    cases label with
    | none => simp [Piece.word, hword]
    | some label => by_cases hlabel : label = "" <;> simp [Piece.word, hword, hlabel]
  | switch subject parts =>
    simp only [Form.children, List.forall_mem_cons] at h
    have hlast : AllBasic (if parts.isEmpty then noBraces else braces (branches parts)) ↔
        ∀ part ∈ parts, P part.1 := by
      split_ifs with hempty
      · simp [List.isEmpty_iff.1 hempty]
      · rw [allBasic_braces, allBasic_branches h.2]
    simp only [bare, allBasic_append, hlast]
    simp (disch := decide) [h.1.alone]
  | branch test body =>
    simp only [Form.children, List.forall_mem_append] at h
    have hbody := allBasic_branchBody h.2
    cases test with
    | none => simpa (disch := decide) using hbody
    | some test =>
      simp only [bare, allBasic_append, allBasic_cons, (h.1 test (by simp)).alone, hbody]
      simp (disch := decide)
  | tryBlock body caught last =>
    simp only [Form.children, List.forall_mem_append, Option.mem_toList] at h
    obtain ⟨⟨hbody, hcaught⟩, hlast⟩ := h
    have hspace : AllBasic [space] := by simp
    have hbare : bare style (.tryBlock body caught last) place =
        [Piece.word "try", space] ++ braced body ++ (caught.elim [] fun p => [space] ++ alone p) ++
          last.elim [] fun p => [space] ++ alone p := by
      cases caught <;> cases last <;> rfl
    simp only [hbare, allBasic_append, allBasic_braced hbody, allBasic_maybe hcaught hspace,
      allBasic_maybe hlast hspace, Form.children, List.forall_mem_append, Option.mem_toList]
    simp (disch := decide)
  | handler caught body =>
    simp only [Form.children, List.forall_mem_cons] at h
    simp only [bare, allBasic_append, allBasic_braced h.2]
    simp (disch := decide) [h.1.alone]
  | finalizer body => simpa (disch := decide) using allBasic_braced h
  | declare kind parts =>
    have hword : (Piece.word kind).IsBasic := ho
    replace h : ∀ part ∈ parts, Reflects P part := h
    simp only [bare, allBasic_append, allBasic_definitions h]
    split_ifs <;> simp [hword]
  | definition defined value =>
    have hdefined := (h _ (.head _)).basic (place.inside .member) trivial
    cases value with
    | none => simp [hdefined]
    | some part =>
      simp (disch := decide) [hdefined,
        (h _ (.tail _ (.head _))).basic (place.inside .member) trivial]
  | function kind own params body =>
    simp only [Form.children, List.forall_mem_append, Option.mem_toList] at h
    obtain ⟨⟨hown, hparams⟩, hbody⟩ := h
    cases kind with
    | general => exact ho.elim
    | expression | accessor | declaration =>
      cases own with
      | none =>
        simp only [bare, allBasic_append, allBasic_parameters hparams, allBasic_braced hbody]
        simp (disch := decide) [or_imp, forall_and]
      | some own =>
        simp only [bare, allBasic_append, allBasic_parameters hparams, allBasic_braced hbody,
          (hown own rfl).alone]
        simp (disch := decide) [or_imp, forall_and, and_assoc]
  | call callee args | construct callee args =>
    simp only [Form.children, List.forall_mem_cons] at h
    simp only [bare, allBasic_append, allBasic_arguments h.2,
      h.1.basic (place.leading (.callee false)) trivial,
      h.1.basic (place.inside (.callee true)) trivial]
    simp (disch := decide)
  | sequence parts => simpa using allBasic_items h place
  | dot object property =>
    simp only [bare, allBasic_append, (h _ (.head _)).basic (place.leading (.object true)) trivial]
    simp (disch := decide) [isBasic_name hs]
  | index object property =>
    simp only [bare, allBasic_append, allBasic_cons,
      (h _ (.head _)).basic (place.leading (.object false)) trivial,
      (h _ (.tail _ (.head _))).basic (place.inside .key) trivial]
    simp (disch := decide)
  | unary operator operand | update operator operand =>
    have hword : (Piece.word operator).IsBasic := ho
    simp only [bare, allBasic_append, allBasic_cons,
      (h _ (.head _)).basic (place.inside .operand) trivial,
      (h _ (.head _)).basic (place.leading .operand) trivial]
    first | (split_ifs <;> simp [hword]) | simp [hword]
  | binary operator left right =>
    simp only [bare, allBasic_append,
      (h _ (.head _)).basic (place.leading (.chained operator false)) ho.2,
      (h _ (.tail _ (.head _))).basic (place.inside (.chained operator true)) ho.2]
    simp [show (Piece.word operator).IsBasic from ho.1]
  | assign operator left right =>
    simp only [bare, allBasic_append, (h _ (.head _)).basic (place.leading .assigned) trivial,
      (h _ (.tail _ (.head _))).basic (place.inside .assigned) trivial]
    simp [show (Piece.word operator).IsBasic from ho]
  | conditional condition consequent alternative =>
    simp only [Form.children, List.forall_mem_cons] at h
    simp only [bare, allBasic_append, h.1.basic (place.leading .condition) trivial,
      h.2.1.basic (place.inside .choice) trivial, h.2.2.1.basic (place.inside .choice) trivial]
    simp (disch := decide) [and_assoc]
  | array parts =>
    replace h : ∀ part ∈ parts, Reflects P part := h
    simp only [bare, allBasic_append, allBasic_cons, allBasic_elements h]
    simp (disch := decide)
  | object parts => simpa using allBasic_properties h place
  | property kind s value =>
    have hkey := isBasic_key hs s
    cases kind with
    | keyValue | getter | setter =>
      simp only [bare, allBasic_append, allBasic_cons, hkey,
        (h _ (.head _)).basic (place.inside .member) trivial]
      simp (disch := decide)
  | symbol s => simp [isBasic_name hs]
  | string value => simpa [hs] using Escape.isBasic_string value.toList
  | regexp source => simpa [hs] using Escape.isBasic_ascii false source.toList
  | number value =>
    simp only [bare, Form.exposed, Form.children]
    split
    · rename_i s hcode
      simpa [Piece.word] using Numeral.isBasic_code hcode
    · simp
  | boolean value => cases value <;> simp (disch := decide)
  | loose | absent | defect => exact ho.elim
  | _ => simp (disch := decide)

end

theorem allBasic_write {form : Form Part} (ho : form.IsOrdinary) {place : Place}
    (hplace : place.IsKnown) :
    AllBasic (write style form place) ↔ AllBasic (bare style form place) := by
  obtain ⟨b, hb⟩ := Place.exists_parenthesizes ((form.isOrdinary_map Prod.fst).2 ho) hplace
  rw [write, hb]
  cases b with
  | true => exact allBasic_parens
  | false => exact .rfl

end Layout

namespace Node

theorem pieces_mk (style : Style) (line : Option Nat) (form : Form Node) :
    (mk line form).pieces style =
      Layout.write style (form.map fun n => (n, n.pieces style)) := by
  rw [pieces, foldUp_mk]

theorem allBasic_pieces {style : Style} (hs : style.asciiOnly = true) {n : Node}
    (ho : ∀ m ∈ n.preorder, m.form.IsOrdinary) {place : Place} (hplace : place.IsKnown) :
    Piece.AllBasic (n.pieces style place) ↔
      ∀ m ∈ n.preorder, ∀ s ∈ m.form.exposed, IsBasic s.toList := by
  induction n using Node.induct generalizing place with
  | step line form ih =>
    simp only [preorder_mk, List.forall_mem_cons, List.mem_flatten, List.mem_map,
      forall_exists_index, and_imp, forall_apply_eq_imp_iff₂] at ho ⊢
    have hform : (form.map fun n => (n, n.pieces style)).IsOrdinary :=
      (form.isOrdinary_map _).2 ho.1
    have hchildren : ∀ part ∈ (form.map fun n => (n, n.pieces style)).children,
        Layout.Reflects (fun n => ∀ m ∈ n.preorder, ∀ s ∈ m.form.exposed, IsBasic s.toList) part := by
      rw [Form.children_map, List.forall_mem_map]
      intro n hn
      refine ⟨fun place hplace => ih n hn (fun m hm => ho.2 m n hn hm) hplace, fun hvacant => ?_⟩
      obtain ⟨line, form⟩ := n
      have hordinary : form.IsOrdinary := ho.2 _ _ hn (mem_preorder_self _)
      cases form with
      | empty => simp [preorder_mk, Form.children, Form.exposed, Node.form]
      | absent => exact hordinary.elim
      | _ => cases hvacant
    rw [pieces_mk, Layout.allBasic_write hform hplace, Layout.allBasic_bare hs hform hchildren,
      Form.exposed_map, Form.children_map, List.forall_mem_map]
    exact and_congr_right fun _ =>
      ⟨fun h m n hn hm => h n hn m hm, fun h n hn m hm => h m n hn hm⟩

theorem Alike.forall_outline {Q : Form Unit → Prop} {n n' : Node} (h : Alike n n')
    (hq : ∀ m ∈ n.preorder, Q m.form.outline) : ∀ m ∈ n'.preorder, Q m.form.outline := by
  intro m' hm'
  rw [← filterMap_at?_positions] at hm'
  obtain ⟨p, -, hp⟩ := List.mem_filterMap.1 hm'
  obtain ⟨m, hm, halike⟩ := h.symm.at? hp
  rw [← halike.outline]
  exact hq m (mem_preorder_of_at? hm)

/-- A tree as the printer may be given it: as it is read, resolved, or shown under other names. -/
inductive Shows (t : Node) : Node → Prop
  | read : Shows t t
  | resolved {r : Node} (resolve : t.resolve = .ok r) : Shows t r
  | renamed {r : Node} (resolve : t.resolve = .ok r) (chosen : Home → String → Option String) :
      Shows t (r.showAs chosen)

theorem Shows.alike {t u : Node} (ht : ReadAs .program t) (h : t.Shows u) : Alike t u := by
  have hresolved : ∀ {r : Node}, t.resolve = .ok r → Alike t r := by
    intro r hr
    rw [Scope.resolve_eq_resolveIn ht hr]
    exact Scope.alike_resolveIn t _ _
  cases h with
  | read => exact fun _ => rfl
  | resolved resolve => exact hresolved resolve
  | renamed resolve chosen =>
    exact (hresolved resolve).trans (alike_mapSymbols (fun s => by split <;> rfl) _)

end Node

theorem Form.isOrdinary_outline {α : Type} (form : Form α) :
    form.outline.IsOrdinary ↔ form.IsOrdinary := by
  cases form with
  | function kind => cases kind <;> rfl
  | _ => rfl

theorem Form.exposed_outline {α : Type} (form : Form α) : form.outline.exposed = form.exposed := by
  cases form <;> rfl

/-- The operators and declaration words of program text are basic, and its operators are known. -/
theorem isOrdinary_of_madeOf {c : Category} {n : Node} (h : MadeOf Token.Spelt c n) :
    n.form.IsOrdinary := by
  have words : ∀ {classes : List Terminal} {text : String}, Tells Token.Spelt classes text →
      (classes.all fun t => !t.spellings.isEmpty &&
        t.spellings.all fun w => w.toList.all isBasic) = true → IsBasic text.toList := by
    intro classes text htext hclasses
    simp only [List.all_eq_true, Bool.and_eq_true, Bool.not_eq_true', List.isEmpty_eq_false_iff]
      at hclasses
    obtain ⟨t, ht, hw⟩ := List.mem_flatMap.1 (htext.mem_spellings fun t ht => (hclasses t ht).1)
    exact (hclasses t ht).2 text hw
  have known : ∀ w ∈ Nonterminal.binaryOperator.words.flatMap Terminal.spellings,
      (precedence? w).isSome = true := by decide
  obtain ⟨line, form⟩ := n
  have htold := h.own.2
  have hfits := h.fits
  cases form with
  | declare | unary | update | assign => exact words htold (by decide)
  | binary operator left right =>
    exact ⟨words htold (by decide), known _ (htold.mem_spellings (by decide))⟩
  | function kind => cases kind <;> first | trivial | (cases c <;> cases hfits)
  | loose | absent | defect => cases c <;> cases hfits
  | _ => trivial

/-- Printed with `asciiOnly`, a program is ASCII exactly if its labels are, and those of its keys
that need no quotes. -/
theorem print_isBasic_iff {file text : String} {t u : Node} {style : Style} {out : String}
    (ht : (parse file text).result = .ok t) (hu : t.Shows u) (hs : style.asciiOnly = true)
    (hp : u.print style = .ok out) :
    IsBasic out.toList ↔ ∀ m ∈ t.preorder, ∀ s ∈ m.form.exposed, IsBasic s.toList := by
  have halike : Node.Alike t u := hu.alike (shaped_of_parse ht)
  have hmade := madeOf_of_parse ht
  have hordinary : ∀ m ∈ u.preorder, m.form.IsOrdinary := by
    have hread : ∀ m ∈ t.preorder, m.form.outline.IsOrdinary := by
      intro m hm
      obtain ⟨c, hc⟩ := hmade.of_mem_preorder hm
      exact (Form.isOrdinary_outline _).2 (isOrdinary_of_madeOf hc)
    exact fun m hm => (Form.isOrdinary_outline _).1 (halike.forall_outline hread m hm)
  have hexposed : ∀ {n n' : Node}, Node.Alike n n' →
      (∀ m ∈ n.preorder, ∀ s ∈ m.form.exposed, IsBasic s.toList) →
      ∀ m ∈ n'.preorder, ∀ s ∈ m.form.exposed, IsBasic s.toList := by
    intro n n' h hall
    have := h.forall_outline (Q := fun form => ∀ s ∈ form.exposed, IsBasic s.toList)
    simp only [Form.exposed_outline] at this
    exact this hall
  have hout : out = String.ofList (Piece.render style (u.pieces style .root)) := by
    unfold Node.print at hp
    dsimp only at hp
    split at hp
    · cases hp
    · exact (Except.ok.inj hp).symm
  rw [hout, String.toList_ofList, Piece.isBasic_render,
    Node.allBasic_pieces hs hordinary Place.isKnown_root]
  exact ⟨hexposed halike.symm, hexposed halike⟩

/-- A program without blanks, in ASCII. -/
def compactStyle : Style := { beautify := false }

/-- A name for all names. -/
def oneName : Home → String → Option String := fun _ _ => some "ü"

theorem printed_label :
    ((parse unnamedFile "a:é").result.toOption.bind fun t => t.resolve.toOption.bind fun r =>
      ((r.showAs oneName).print compactStyle).toOption.map String.toList) =
      some ['a', ':', '\\', 'u', '0', '0', 'f', 'c', ';'] := by
  decide +kernel

theorem print_isBasic_iff_label :
    ∃ t r out, (parse unnamedFile "a:é").result = .ok t ∧ t.resolve = .ok r ∧
      (r.showAs oneName).print compactStyle = .ok out ∧ IsBasic out.toList ∧
      ∀ m ∈ t.preorder, ∀ s ∈ m.form.exposed, IsBasic s.toList := by
  obtain ⟨t, ht, hout⟩ := Option.bind_eq_some_iff.1 printed_label
  obtain ⟨r, hr, hout⟩ := Option.bind_eq_some_iff.1 hout
  obtain ⟨out, hp, hchars⟩ := Option.map_eq_some_iff.1 hout
  have hbasic : IsBasic out.toList := by
    rw [hchars]
    decide
  have hiff := print_isBasic_iff (eq_ok_of_toOption ht) (.renamed (eq_ok_of_toOption hr) oneName)
    rfl (eq_ok_of_toOption hp)
  exact ⟨t, r, out, eq_ok_of_toOption ht, eq_ok_of_toOption hr, eq_ok_of_toOption hp, hbasic,
    hiff.1 hbasic⟩

theorem printed_labeled :
    ((parse unnamedFile "é:;").result.toOption.bind fun t =>
      (t.print compactStyle).toOption.map String.toList) = some ['é', ':', ';'] := by
  decide +kernel

/-- A label is printed as it is. -/
theorem print_labeled_not_isBasic :
    ∃ t out, (parse unnamedFile "é:;").result = .ok t ∧ t.print compactStyle = .ok out ∧
      ¬ IsBasic out.toList := by
  obtain ⟨t, ht, hout⟩ := Option.bind_eq_some_iff.1 printed_labeled
  obtain ⟨out, hp, hchars⟩ := Option.map_eq_some_iff.1 hout
  refine ⟨t, out, eq_ok_of_toOption ht, eq_ok_of_toOption hp, ?_⟩
  rw [hchars]
  decide

end Debundle
