import Debundle.Proofs.Writing.Joints

/-!
# The text of pieces

`Written` relates pieces to the tokens they are written for: between two tokens there are only
blanks, and a new line begins only where no line end counts. Text that is laid out from such pieces
is spelled by these tokens, with all blanks or with none but the necessary ones
(`spelledBy_render`).
-/
namespace Debundle

open Text Reader

namespace Piece

/-- What a piece puts down at an indentation. -/
def shown (style : Style) (column : Int) : Piece → List Char
  | text cs => cs
  | space => if style.beautify then [' '] else []
  | newline => if style.beautify then ['\n'] else []
  | indent => if style.beautify then List.replicate column.toNat ' ' else []
  | halfIndent =>
    if style.beautify then List.replicate (column - style.indentLevel.fdiv 2).toNat ' ' else []
  | deeper | shallower | defect _ => []

/-- The indentation after a piece. -/
def shifted (style : Style) (column : Int) : Piece → Int
  | deeper => column + style.indentLevel
  | shallower => column - style.indentLevel
  | _ => column

/-- The blank that keeps a text from the character before it. -/
def joint (last : Option Char) (cs : List Char) : List Char :=
  match last, cs with
  | some l, c :: _ => if mustSeparate l c then [' '] else []
  | _, _ => []

/-- The text of pieces, after a character and at an indentation. -/
def laid (style : Style) : Option Char → Int → List Piece → List Char
  | _, _, [] => []
  | last, column, p :: pieces =>
    joint last (p.shown style column) ++ (p.shown style column ++
      laid style ((p.shown style column).getLast?.or last) (p.shifted style column) pieces)

theorem Canvas.written_put (canvas : Canvas) (cs : List Char) :
    (canvas.put cs).written = cs.reverse ++ (joint canvas.written.head? cs).reverse ++
      canvas.written ∧ (canvas.put cs).column = canvas.column := by
  obtain ⟨written, column⟩ := canvas
  cases cs with
  | nil => simp [put, joint]
  | cons c cs =>
    cases written with
    | nil => simp [put, joint]
    | cons l written =>
      simp only [put, joint, List.head?_cons]
      split <;> simp

theorem Canvas.add_eq (style : Style) (canvas : Canvas) (p : Piece) :
    canvas.add style p =
      { canvas.put (p.shown style canvas.column) with column := p.shifted style canvas.column } := by
  have same : ∀ cs : List Char, canvas.put cs = { canvas.put cs with column := canvas.column } :=
    fun cs => by rw [← (written_put canvas cs).2]
  cases p with
  | text cs => exact same cs
  | space | newline | indent | halfIndent =>
    by_cases hb : style.beautify = true
    · simp only [add, shown, shifted, hb, if_true]
      exact same _
    · simp only [add, shown, shifted, hb]
      rfl
  | deeper | shallower | defect => rfl

theorem written_foldl (style : Style) (pieces : List Piece) (canvas : Canvas) :
    (pieces.foldl (Canvas.add style) canvas).written.reverse =
      canvas.written.reverse ++ laid style canvas.written.head? canvas.column pieces := by
  induction pieces generalizing canvas with
  | nil => simp [laid]
  | cons p pieces ih =>
    obtain ⟨hwritten, -⟩ := canvas.written_put (p.shown style canvas.column)
    have hhead : (canvas.put (p.shown style canvas.column)).written.head? =
        (p.shown style canvas.column).getLast?.or canvas.written.head? := by
      rw [hwritten]
      cases hs : p.shown style canvas.column using List.reverseRecOn with
      | nil => simp [joint]
      | append_singleton cs c => simp
    rw [List.foldl_cons, ih, Canvas.add_eq]
    dsimp only
    rw [hhead, hwritten, laid]
    simp only [List.reverse_append, List.reverse_reverse, List.append_assoc]

theorem render_eq (style : Style) (pieces : List Piece) :
    render style pieces = laid style none 0 pieces := by
  simpa [render] using written_foldl style pieces ⟨[], 0⟩

/-- Pieces that put down blanks at most, and no line end. -/
def isBlank : Piece → Bool
  | space | indent | halfIndent | deeper | shallower => true
  | _ => false

theorem shown_of_isBlank {p : Piece} (h : p.isBlank = true) (style : Style) (column : Int) :
    ∀ c ∈ p.shown style column, c = ' ' := by
  cases p with
  | space =>
    simp only [shown]
    split <;> simp
  | indent | halfIndent =>
    simp only [shown]
    split
    · exact fun c hc => List.eq_of_mem_replicate hc
    · nofun
  | deeper | shallower => nofun
  | text | newline | defect => cases h

theorem eq_space_of_mem_joint {last : Option Char} {cs : List Char} {c : Char}
    (h : c ∈ joint last cs) : c = ' ' := by
  unfold joint at h
  split at h
  · split at h <;> simp_all
  · cases h

theorem joint_of_blank {cs : List Char} (h : ∀ c ∈ cs, c = ' ' ∨ c = '\n') (last : Option Char) :
    joint last cs = [] := by
  have blank : ∀ l, mustSeparate l ' ' = false ∧ mustSeparate l '\n' = false := fun l => by
    constructor <;>
    · simp only [mustSeparate, Bool.or_eq_false_iff, Bool.and_eq_false_iff, beq_eq_false_iff_ne]
      exact ⟨.inr (by decide), by grind⟩
  unfold joint
  split
  · obtain rfl | rfl := h _ (.head _)
    · rw [(blank _).1]
      rfl
    · rw [(blank _).2]
      rfl
  · rfl

theorem laid_blank {style : Style} {p : Piece} {column : Int}
    (h : ∀ c ∈ p.shown style column, c = ' ') (last : Option Char) (pieces : List Piece) :
    laid style last column (p :: pieces) = p.shown style column ++
      laid style ((p.shown style column).getLast?.or last) (p.shifted style column) pieces := by
  rw [laid, joint_of_blank fun c hc => .inl (h c hc), List.nil_append]

end Piece

open Piece

/-- Pieces are written for some tokens. A line may end after a brace, a semicolon, a comma or a
colon, and before the brace that closes a block. The first truth value tells whether a line may end
before the pieces, the second whether it may after them. -/
inductive Written : Bool → List Piece → List Token → Bool → Prop
  | nil (rested : Bool) : Written rested [] [] rested
  | blank {p : Piece} {pieces : List Piece} {tokens : List Token} {rested rests : Bool}
      (is : p.isBlank = true) (rest : Written rested pieces tokens rests) :
      Written rested (p :: pieces) tokens rests
  | newline {pieces : List Piece} {tokens : List Token} {rests : Bool}
      (rest : Written true pieces tokens rests) :
      Written true (newline :: pieces) tokens rests
  | closing {pieces : List Piece} {tokens : List Token} {rested rests : Bool}
      (rest : Written true pieces tokens rests) :
      Written rested (.newline :: shallower :: indent :: word "\x7d" :: pieces)
        (.of .rbrace "\x7d" :: tokens) rests
  | token {a : Token} {pieces : List Piece} {tokens : List Token} {rested rests : Bool}
      (plain : a.terminal ∉ [.kwIn, .kwInstanceof]) (rest : Written a.endsLine pieces tokens rests) :
      Written rested (word a.text :: pieces) (a :: tokens) rests
  | spaced {a : Token} {pieces : List Piece} {tokens : List Token} {rested rests : Bool}
      (rest : Written a.endsLine pieces tokens rests) :
      Written rested (space :: word a.text :: pieces) (a :: tokens) rests
  | pair {a b : Token} {pieces : List Piece} {tokens : List Token} {rested rests : Bool}
      (ends : ∀ c ∈ b.text.toList.head?, a.endsBefore c = true) (heeds : heedsLine a b = false)
      (plain : a.terminal ∉ [.kwIn, .kwInstanceof]) (rest : Written b.endsLine pieces tokens rests) :
      Written rested (text (a.text.toList ++ b.text.toList) :: pieces) (a :: b :: tokens) rests

namespace Written

variable {rested rests : Bool} {pieces more : List Piece} {tokens others : List Token}

theorem append {between : Bool} (h : Written rested pieces tokens between)
    (h' : Written between more others rests) :
    Written rested (pieces ++ more) (tokens ++ others) rests := by
  induction h with
  | nil => exact h'
  | blank is _ ih => exact .blank is (ih h')
  | newline _ ih => exact .newline (ih h')
  | closing _ ih => exact .closing (ih h')
  | token plain _ ih => exact .token plain (ih h')
  | spaced _ ih => exact .spaced (ih h')
  | pair ends heeds plain _ ih => exact .pair ends heeds plain (ih h')

theorem firstDefect? (h : Written rested pieces tokens rests) : firstDefect? pieces = none := by
  induction h with
  | nil => rfl
  | @blank p _ _ _ _ is _ ih =>
    cases p with
    | text | newline | defect => cases is
    | space | indent | halfIndent | deeper | shallower => exact ih
  | newline _ ih | closing _ ih | token _ _ ih | spaced _ ih | pair _ _ _ _ ih => exact ih

end Written

/-- What comes of pieces that are written for tokens, wherever they are put. -/
structure Laid (style : Style) (strict rested : Bool) (pieces : List Piece) (tokens : List Token) :
    Prop where
  spelled : ∀ last column, SpelledBy (laid style last column pieces) tokens
  parted : ∀ a : Token, a.Complete → (∀ b ∈ tokens.head?, a.Meets strict b) → ∀ column,
    ∀ c ∈ (laid style a.text.toList.getLast? column pieces).head?, a.endsBefore c = true
  calm : ∀ a : Token, (rested = true → a.endsLine = true) →
    (∀ b ∈ tokens.head?, a.Meets strict b) → heedsLine a (nextOf tokens) = true → ∀ last column,
    ∀ c ∈ gapOf (laid style last column pieces), isLineEnd c = false

namespace Laid

variable {style : Style} {strict rested : Bool} {pieces : List Piece} {tokens : List Token}

theorem nil (style : Style) (strict rested : Bool) : Laid style strict rested [] [] where
  spelled _ _ := spelledBy_nil nofun
  parted _ _ _ _ := nofun
  calm _ _ _ _ _ _ := nofun

theorem blank (h : Laid style strict rested pieces tokens) {p : Piece} (hp : p.isBlank = true) :
    Laid style strict rested (p :: pieces) tokens where
  spelled last column := by
    have hcs := shown_of_isBlank hp style column
    rw [laid_blank hcs]
    exact (h.spelled _ _).blanks fun c hc => hcs c hc ▸ by decide
  parted a ha hmeets column := by
    have hcs := shown_of_isBlank hp style column
    rw [laid_blank hcs]
    cases hs : p.shown style column with
    | nil => exact h.parted a ha hmeets _
    | cons d cs =>
      rintro c ⟨⟩
      exact ha.endsBefore_blank (hcs d (hs ▸ .head _) ▸ by decide)
  calm a hends hmeets hheeds last column := by
    have hcs := shown_of_isBlank hp style column
    rw [laid_blank hcs, gapOf, List.takeWhile_append_of_pos fun c hc => hcs c hc ▸ by decide]
    intro c hc
    obtain hc | hc := List.mem_append.1 hc
    · exact hcs c hc ▸ by decide
    · exact h.calm a hends hmeets hheeds _ _ c hc

theorem newline {between : Bool} (h : Laid style strict between pieces tokens)
    (hno : ∀ a : Token, (rested = true → a.endsLine = true) →
      (∀ b ∈ tokens.head?, a.Meets strict b) → heedsLine a (nextOf tokens) = false) :
    Laid style strict rested (.newline :: pieces) tokens := by
  have hcs : ∀ column, ∀ c ∈ Piece.newline.shown style column, c = '\n' := by
    intro column c hc
    simp only [shown] at hc
    split at hc <;> simp_all
  have heq : ∀ last column, laid style last column (.newline :: pieces) =
      Piece.newline.shown style column ++ laid style
        ((Piece.newline.shown style column).getLast?.or last) column pieces := fun last column => by
    rw [laid, joint_of_blank fun c hc => .inr (hcs column c hc), List.nil_append]
    rfl
  refine ⟨fun last column => ?_, fun a ha hmeets column => ?_, fun a hends hmeets hheeds => ?_⟩
  · rw [heq]
    exact (h.spelled _ _).blanks fun c hc => hcs _ c hc ▸ by decide
  · rw [heq]
    cases hs : Piece.newline.shown style column with
    | nil => exact h.parted a ha hmeets _
    | cons d cs =>
      rintro c ⟨⟩
      exact ha.endsBefore_blank (hcs column d (hs ▸ .head _) ▸ by decide)
  · rw [hno a hends hmeets] at hheeds
    cases hheeds

variable {a b : Token} {rest : List Char}

theorem endsBefore_joint (ha : a.Complete) (hb : b.Complete) (h : a.Meets strict b)
    (hs : strict = true ∨ b.terminal ∉ [.kwIn, .kwInstanceof]) :
    ∀ c ∈ (joint a.text.toList.getLast? b.text.toList ++ (b.text.toList ++ rest)).head?,
      a.endsBefore c = true := by
  obtain ⟨l, hl⟩ : ∃ l, a.text.toList.getLast? = some l :=
    ⟨_, List.getLast?_eq_some_getLast ha.ne_nil⟩
  obtain ⟨d, cs, hcs⟩ := List.exists_cons_of_ne_nil hb.ne_nil
  rw [hl, hcs]
  simp only [joint]
  split_ifs with hsep
  · rintro c ⟨⟩
    exact ha.endsBefore_blank (by decide)
  · rintro c ⟨⟩
    exact ha.endsBefore_of_meets hb h hs hl (by rw [hcs]; rfl) (Bool.of_not_eq_true hsep)

theorem gapOf_joint (hb : b.Complete) (last : Option Char) (cs : List Char) :
    ∀ c ∈ gapOf (joint last cs ++ (b.text.toList ++ rest)), isLineEnd c = false := by
  have hspace : ∀ c ∈ joint last cs, Gap.isGapBlank c = true := fun c hc =>
    eq_space_of_mem_joint hc ▸ by decide
  obtain ⟨d, ds, hds⟩ := List.exists_cons_of_ne_nil hb.ne_nil
  have hd : Gap.isGapBlank d = false :=
    (hb.begins (c := d) (by rw [hds]; rfl)).not_blank (by rw [hds]; rfl)
  rw [gapOf, List.takeWhile_append_of_pos hspace, hds, List.cons_append,
    List.takeWhile_cons_of_neg (by simp [hd]), List.append_nil]
  exact fun c hc => eq_space_of_mem_joint hc ▸ by decide

theorem spelled_token (h : Laid style strict b.endsLine pieces tokens) (hb : b.Complete)
    (hmeets : ∀ c ∈ tokens.head?, b.Meets strict c) (hall : ∀ c ∈ tokens, c.Complete)
    (gap : List Char) (hg : ∀ c ∈ gap, c = ' ') (column : Int) :
    SpelledBy (gap ++ (b.text.toList ++ laid style b.text.toList.getLast? column pieces))
      (b :: tokens) := by
  refine spelledBy_cons hb (h.spelled _ _) (fun c hc => hg c hc ▸ by decide)
    (h.parted b hb hmeets column) fun hheeds =>
      ⟨?_, h.calm b id hmeets hheeds _ _⟩
  cases tokens with
  | nil =>
    exact hb.isSolid_of_heeds (.inr rfl) (fun hno => (absurd rfl hno : b.Meets strict _)) hheeds
  | cons c tokens =>
    exact hb.isSolid_of_heeds (.inl (hall c (.head _))) (fun _ => hmeets c rfl) hheeds

theorem laid_word (last : Option Char) (column : Int) (hb : b.Complete) :
    laid style last column (word b.text :: pieces) = joint last b.text.toList ++
      (b.text.toList ++ laid style b.text.toList.getLast? column pieces) := by
  rw [laid]
  simp only [word, shown, shifted, List.getLast?_eq_some_getLast hb.ne_nil, Option.some_or]

theorem token (h : Laid style strict b.endsLine pieces tokens) (hb : b.Complete)
    (hmeets : ∀ c ∈ tokens.head?, b.Meets strict c) (hall : ∀ c ∈ tokens, c.Complete)
    (hs : strict = true ∨ b.terminal ∉ [.kwIn, .kwInstanceof]) (rested : Bool) :
    Laid style strict rested (word b.text :: pieces) (b :: tokens) := by
  refine ⟨fun last column => ?_, fun a ha hm column => ?_, fun a _ _ _ last column => ?_⟩
  · rw [laid_word last column hb]
    exact spelled_token h hb hmeets hall _ (fun c => eq_space_of_mem_joint) column
  · rw [laid_word _ column hb]
    exact endsBefore_joint ha hb (hm b rfl) hs
  · rw [laid_word last column hb]
    exact gapOf_joint hb last _

/-- A word after a blank. Where there are no blanks, the stricter condition takes its place. -/
theorem spaced (h : Laid style strict b.endsLine pieces tokens) (hb : b.Complete)
    (hmeets : ∀ c ∈ tokens.head?, b.Meets strict c) (hall : ∀ c ∈ tokens, c.Complete)
    (hs : style.beautify = false → strict = true) (rested : Bool) :
    Laid style strict rested (space :: word b.text :: pieces) (b :: tokens) := by
  by_cases hstyle : style.beautify = true
  · have heq : ∀ last column, laid style last column (space :: word b.text :: pieces) =
        ' ' :: (joint (some ' ') b.text.toList ++
          (b.text.toList ++ laid style b.text.toList.getLast? column pieces)) := by
      intro last column
      have hshown : space.shown style column = [' '] := by simp [shown, hstyle]
      rw [laid_blank (by simp [hshown]), hshown, shifted, laid_word _ _ hb]
      · rfl
      · nofun
      · nofun
    refine ⟨fun last column => ?_, fun a ha hm column => ?_, fun a _ _ _ last column => ?_⟩
    · rw [heq, ← List.cons_append]
      refine spelled_token h hb hmeets hall _ (fun c hc => ?_) column
      obtain rfl | hc := List.mem_cons.1 hc
      · rfl
      · exact eq_space_of_mem_joint hc
    · rw [heq]
      rintro c ⟨⟩
      exact ha.endsBefore_blank (by decide)
    · rw [heq, gapOf, List.takeWhile_cons_of_pos (by decide)]
      intro c hc
      obtain rfl | hc := List.mem_cons.1 hc
      · decide
      · exact gapOf_joint hb _ _ c hc
  · exact (token h hb hmeets hall (.inl (hs (Bool.of_not_eq_true hstyle))) rested).blank rfl

theorem pair (h : Laid style strict b.endsLine pieces tokens) (ha : a.Complete) (hb : b.Complete)
    (hmeets : ∀ c ∈ tokens.head?, b.Meets strict c) (hall : ∀ c ∈ tokens, c.Complete)
    (hends : ∀ c ∈ b.text.toList.head?, a.endsBefore c = true) (hheeds : heedsLine a b = false)
    (hs : a.terminal ∉ [.kwIn, .kwInstanceof]) (rested : Bool) :
    Laid style strict rested (text (a.text.toList ++ b.text.toList) :: pieces)
      (a :: b :: tokens) := by
  have heq : ∀ last column, laid style last column (text (a.text.toList ++ b.text.toList) :: pieces) =
      joint last a.text.toList ++ (a.text.toList ++ (b.text.toList ++
        laid style b.text.toList.getLast? column pieces)) := by
    intro last column
    obtain ⟨d, ds, hds⟩ := List.exists_cons_of_ne_nil ha.ne_nil
    have hjoint : joint last (a.text.toList ++ b.text.toList) = joint last a.text.toList := by
      rw [hds]
      cases last <;> rfl
    rw [laid]
    simp only [shown, shifted, hjoint, List.append_assoc, List.getLast?_append,
      List.getLast?_eq_some_getLast hb.ne_nil, Option.some_or]
  refine ⟨fun last column => ?_, fun x hx hm column => ?_, fun x _ _ _ last column => ?_⟩
  · rw [heq]
    refine spelledBy_cons ha (spelled_token h hb hmeets hall [] nofun column)
      (fun c hc => eq_space_of_mem_joint hc ▸ by decide) (fun c hc => hends c ?_) fun hno => ?_
    · obtain ⟨d, ds, hds⟩ := List.exists_cons_of_ne_nil hb.ne_nil
      rw [hds] at hc ⊢
      exact hc
    · rw [show nextOf (b :: tokens) = b from rfl, hheeds] at hno
      cases hno
  · rw [heq]
    exact endsBefore_joint hx ha (hm a rfl) (.inr hs)
  · rw [heq]
    exact gapOf_joint ha last _

end Laid

/-- No restricted word stands before the brace that closes a block. -/
theorem heedsLine_rbrace {a : Token} (h : a.terminal.meets .rbrace = true) :
    heedsLine a (.of .rbrace "\x7d") = false := by
  have hall : ∀ t ∈ [Terminal.kwReturn, .kwBreak, .kwContinue, .kwThrow],
      t.meets .rbrace = false := by decide
  have hno : isRestricted a.terminal = false := by
    by_contra hr
    rw [hall _ (of_decide_eq_true (Bool.of_not_eq_false hr))] at h
    cases h
  simp [heedsLine, hno, Token.of]

/-- Pieces that are written for tokens which can meet spell them out. -/
theorem Written.laid {style : Style} {strict rested rests : Bool} {pieces : List Piece}
    {tokens : List Token} (h : Written rested pieces tokens rests)
    (hs : style.beautify = false → strict = true) (hall : ∀ a ∈ tokens, a.Complete)
    (hmeets : tokens.IsChain (Token.Meets strict)) : Laid style strict rested pieces tokens := by
  induction h with
  | nil rested => exact .nil style strict rested
  | blank is _ ih => exact (ih hall hmeets).blank is
  | newline _ ih =>
    exact (ih hall hmeets).newline fun a hends _ => Token.heedsLine_of_endsLine (hends rfl) _
  | @closing pieces tokens rested rests _ ih =>
    obtain ⟨hbrace, hall⟩ := List.forall_mem_cons.1 hall
    have hlaid := (ih hall hmeets.tail).token (b := .of .rbrace "\x7d") hbrace
      (fun c hc => hmeets.rel_head? hc) hall (.inr (by decide)) true
    exact ((hlaid.blank (p := indent) rfl).blank (p := shallower) rfl).newline fun a _ hm =>
      heedsLine_rbrace (hm _ rfl).meets
  | token plain _ ih =>
    obtain ⟨ha, hall⟩ := List.forall_mem_cons.1 hall
    exact (ih hall hmeets.tail).token ha (fun c hc => hmeets.rel_head? hc) hall (.inr plain) _
  | spaced _ ih =>
    obtain ⟨ha, hall⟩ := List.forall_mem_cons.1 hall
    exact (ih hall hmeets.tail).spaced ha (fun c hc => hmeets.rel_head? hc) hall hs _
  | pair ends heeds plain _ ih =>
    obtain ⟨ha, hb, hall⟩ := List.forall_mem_cons.1 hall |>.imp_right List.forall_mem_cons.1
    exact (ih hall hmeets.tail.tail).pair ha hb (fun c hc => hmeets.tail.rel_head? hc) hall ends
      heeds plain _

theorem spelledBy_render {style : Style} {strict rested rests : Bool} {pieces : List Piece}
    {tokens : List Token} (h : Written rested pieces tokens rests)
    (hs : style.beautify = false → strict = true) (hall : ∀ a ∈ tokens, a.Complete)
    (hmeets : tokens.IsChain (Token.Meets strict)) : SpelledBy (render style pieces) tokens := by
  rw [render_eq]
  exact (h.laid hs hall hmeets).spelled none 0

end Debundle
