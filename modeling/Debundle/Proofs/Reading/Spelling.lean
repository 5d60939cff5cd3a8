import Debundle.Proofs.Reading.Runs
import Debundle.Proofs.Reading.Shape

/-!
# The spelling of tokens

Every token that a reader takes from a text is spelled as its class asks (`spelt_of_read`), so the
names, operators and literals of a tree that is read are spelled so (`madeOf_of_parse`).
-/
namespace Debundle

open Lexeme Text

/-- The texts of the tokens of a class: none for a class of names or literals. -/
def Terminal.spellings (t : Terminal) : List String :=
  (keywords.filter (·.1 = t)).flatMap Prod.snd ++ (punctuators.filter (·.1 = t)).map Prod.snd

theorem Terminal.mem_spellings {t : Terminal} {text : String} :
    text ∈ t.spellings ↔ (∃ words, (t, words) ∈ keywords ∧ text ∈ words) ∨ (t, text) ∈ punctuators := by
  simp [spellings]

/-- A text is one token for a reader, at least before some text. -/
def Lexeme.Whole (f : List Char → Option Nat) (cs : List Char) : Prop :=
  ∃ more, f (cs ++ more) = some cs.length

/-- A token is spelled as its class asks. -/
inductive Token.Spelt (a : Token) : Prop
  | word (text : a.text ∈ a.terminal.spellings)
  | name (is : a.terminal = .name) (text : IsName a.text.toList)
  | number (is : a.terminal = .number) (text : Whole number? a.text.toList)
  | string (is : a.terminal = .string) (text : Whole string? a.text.toList)
  | regex (is : a.terminal = .regex) (text : Whole regex? a.text.toList)
  | finish (is : a.terminal = .finish)

namespace Token.Spelt

variable {a : Token}

theorem mem_spellings (h : a.Spelt) (ht : a.terminal.spellings ≠ []) :
    a.text ∈ a.terminal.spellings := by
  cases h with
  | word text => exact text
  | name is | number is | string is | regex is | finish is =>
    rw [is] at ht
    exact absurd (by decide) ht

end Token.Spelt

theorem takeWhile_append_eq_left {p : Char → Bool} {cs more : List Char}
    (h : ((cs ++ more).takeWhile p).length = cs.length) : (cs ++ more).takeWhile p = cs :=
  (List.prefix_of_prefix_length_le (List.takeWhile_prefix p) (List.prefix_append cs more)
    (Nat.le_of_eq h)).eq_of_length h

theorem Lexeme.isName_of_whole {cs : List Char} (h : Whole name? cs) : IsName cs := by
  obtain ⟨more, h⟩ := h
  obtain _ | ⟨c, rest⟩ := cs
  · obtain ⟨k, -, hk, -⟩ := endsAt_name? h
    cases hk
  · rw [List.cons_append, name?] at h
    split_ifs at h with hc
    refine ⟨c, rest, rfl, hc, fun d hd => ?_⟩
    rw [Option.some.injEq, run, List.length_cons, Nat.add_comm, Nat.add_right_cancel_iff] at h
    rw [← takeWhile_append_eq_left h] at hd
    exact List.mem_takeWhile_imp hd

theorem Token.spelt_of_whole {a : Token} {f : List Char → Option Nat}
    (hr : IsReader a.terminal f) (h : Whole f a.text.toList) : a.Spelt := by
  generalize ht : a.terminal = t at hr
  cases hr with
  | @keyword k hk =>
    obtain ⟨more, h⟩ := h
    rw [keyword?_eq (isNamePart_of_keyword hk)] at h
    split_ifs at h with hmem
    rw [Option.some.injEq] at h
    rw [wordOf, takeWhile_append_eq_left h] at hmem
    obtain ⟨w, hw, htext⟩ := List.mem_map.1 hmem
    refine .word (Terminal.mem_spellings.2 (.inl ⟨k.2, ht ▸ hk, ?_⟩))
    rwa [← String.toList_inj.1 htext]
  | regex => exact .regex ht h
  | string => exact .string ht h
  | number => exact .number ht h
  | name => exact .name ht (isName_of_whole h)
  | @punctuator q hq =>
    obtain ⟨more, h⟩ := h
    obtain ⟨hpre, hlen⟩ := word?_eq_some_iff.1 h
    have htext : q.2.toList = a.text.toList :=
      (List.prefix_of_prefix_length_le hpre (List.prefix_append _ more)
        (Nat.le_of_eq hlen.symm)).eq_of_length hlen.symm
    refine .word (Terminal.mem_spellings.2 (.inr ?_))
    rwa [ht, ← String.toList_inj.1 htext]

theorem spelt_of_first? {a : Token} {allowed : Terminal → Bool} {rest : List Char} {n : Nat}
    (h : first? allowed rest = some (a.terminal, n)) (ht : a.text = String.ofList (rest.take n)) :
    a.Spelt := by
  obtain ⟨-, f, hr, hf⟩ := exists_reader h
  obtain ⟨u, c, tail, rfl, rfl, -⟩ := split_of_first? h
  rw [List.append_cons u c tail] at hf ht
  rw [List.take_left] at ht
  refine Token.spelt_of_whole hr ⟨tail, ?_⟩
  rwa [ht, String.toList_ofList]

theorem spelt_of_read {cs : List Char} {d : Derivation} (h : (Reader.read cs).1 = .ok d) :
    ∀ a ∈ d.leaves, a.Spelt := by
  refine (Reader.writes_of_run h .nil (Reader.poised_ofText cs)).1.leaves (by simp [Reader.ofText, Derivation.tokens])
    (fun a allowed rest n => spelt_of_first?) (fun a hsemi htext => .word ?_) fun a => .finish
  rw [hsemi, htext]
  decide

theorem Tells.mem_spellings {classes : List Terminal} {text : String}
    (h : Tells Token.Spelt classes text) (hc : ∀ t ∈ classes, t.spellings ≠ []) :
    text ∈ classes.flatMap Terminal.spellings := by
  obtain ⟨a, ha, ht, rfl⟩ := h
  exact List.mem_flatMap.2 ⟨_, ht, ha.mem_spellings (hc _ ht)⟩

theorem madeOf_of_parse {file text : String} {t : Node} (h : (parse file text).result = .ok t) :
    MadeOf Token.Spelt .program t := by
  obtain ⟨d, hd, ht⟩ := exists_derivation_of_parse h
  exact Build.madeOf_tree (Reader.derives_of_read hd) (spelt_of_read hd) ht

end Debundle
