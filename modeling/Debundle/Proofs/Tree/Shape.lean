import Debundle.Proofs.Tree.Fold

/-!
# Shapes of program trees

Every place in a program tree takes nodes of one category: a body takes statements, an operand
takes an expression. A tree is shaped if all its nodes are of the category of their place, down to
the leaves. A further condition on the form of every node can be asked for on the way.
-/
namespace Debundle

/-- What stands in a place of a program tree. -/
inductive Category where
  | program | statement | expression
  /-- An expression of an array, or a hole. -/
  | element
  | declaration
  /-- What a `for` loop starts with. -/
  | initial
  /-- What a `for in` loop assigns to. -/
  | pattern
  | definition
  /-- A definition without a value. -/
  | bareDefinition
  | branch | handler | finalizer | property
  /-- The function of a getter or setter. -/
  | accessor
  | name (role : Role)
  deriving DecidableEq

namespace Form

variable {α β : Type}

/-- Expressions: what an operand can be. -/
def isExpression : Form α → Bool
  | function .expression _ _ _ | call .. | construct .. | dot .. | index .. | unary .. | update ..
  | binary .. | assign .. | conditional .. | array _ | object _ | self | string _ | number _
  | regexp _ | null | boolean _ => true
  | sequence items => 2 ≤ items.length
  | symbol s => s.role = .reference
  | _ => false

/-- Statements, as they stand in a body. -/
def isBodyStatement : Form α → Bool
  | block _ | empty | debugger | simple _ | labeled .. | doWhile .. | whileLoop .. | forLoop ..
  | forIn .. | withObject .. | ifElse .. | exit .returning _ | exit .throwing (some _) | jump ..
  | switch .. | function .declaration (some _) _ _ => true
  | tryBlock _ caught last => caught.isSome || last.isSome
  | declare _ definitions => !definitions.isEmpty
  | _ => false

def isHole : Form α → Bool
  | hole => true
  | _ => false

def isDeclaration : Form α → Bool
  | declare _ definitions => !definitions.isEmpty
  | _ => false

/-- A declaration of one name. -/
def isSingleDeclaration : Form α → Bool
  | declare _ definitions => definitions.length = 1
  | _ => false

/-- Whether a form is of a category. -/
def isOf : Category → Form α → Bool
  | .program, program _ => true
  | .statement, form => form.isBodyStatement
  | .expression, form => form.isExpression
  | .element, form => form.isHole || form.isExpression
  | .declaration, form => form.isDeclaration
  | .initial, form => form.isDeclaration || form.isExpression
  | .pattern, form => form.isSingleDeclaration || form.isExpression
  | .definition, definition .. => true
  | .bareDefinition, definition _ value => value.isNone
  | .branch, branch .. => true
  | .handler, handler .. => true
  | .finalizer, finalizer _ => true
  | .property, property .. => true
  | .accessor, function .accessor name _ _ => name.isNone
  | .name role, symbol s => s.role = role
  | _, _ => false

def many (c : Category) (items : List α) : List (Category × α) :=
  items.map (c, ·)

def maybe (c : Category) (item : Option α) : List (Category × α) :=
  item.toList.map (c, ·)

/-- The children of a form of a category, each with the category of its place. -/
def parts (c : Category) : Form α → List (Category × α)
  | program body | block body | finalizer body => many .statement body
  | simple body => [(.expression, body)]
  | labeled _ body => [(.statement, body)]
  | doWhile body condition => [(.statement, body), (.expression, condition)]
  | whileLoop condition body => [(.expression, condition), (.statement, body)]
  | forLoop init condition step body =>
    maybe .initial init ++ maybe .expression condition ++ maybe .expression step ++
      [(.statement, body)]
  | forIn init subject body => [(.pattern, init), (.expression, subject), (.statement, body)]
  | withObject subject body => [(.expression, subject), (.statement, body)]
  | ifElse condition body alternative =>
    (.expression, condition) :: (.statement, body) :: maybe .statement alternative
  | exit _ value => maybe .expression value
  | switch subject branches => (.expression, subject) :: many .branch branches
  | branch test body => maybe .expression test ++ many .statement body
  | tryBlock body caught last =>
    many .statement body ++ maybe .handler caught ++ maybe .finalizer last
  | handler caught body => (.name .caught, caught) :: many .statement body
  | declare _ definitions =>
    many (if c = .pattern then .bareDefinition else .definition) definitions
  | definition name value => (.name .variable, name) :: maybe .expression value
  | function kind name parameters body =>
    maybe (.name (if kind = .declaration then .functionName else .ownName)) name ++
      many (.name .parameter) parameters ++ many .statement body
  | call callee arguments | construct callee arguments =>
    (.expression, callee) :: many .expression arguments
  | sequence items => many .expression items
  | array items => many .element items
  | object items => many .property items
  | dot subject _ => [(.expression, subject)]
  | index subject key => [(.expression, subject), (.expression, key)]
  | unary _ operand | update _ operand => [(.expression, operand)]
  | binary _ left right | assign _ left right => [(.expression, left), (.expression, right)]
  | conditional condition consequent alternative =>
    [(.expression, condition), (.expression, consequent), (.expression, alternative)]
  | property kind _ value =>
    [(if kind = .keyValue then .expression else .accessor, value)]
  | loose _ parts => many .expression parts
  | empty | debugger | jump .. | hole | symbol _ | self | string _ | number _ | regexp _
  | null | nan | infinity | boolean _ | absent _ | defect _ => []

theorem fst_of_mem_many {c : Category} {items : List α} {p : Category × α}
    (h : p ∈ many c items) : p.1 = c := by
  obtain ⟨a, -, rfl⟩ := List.mem_map.1 h
  rfl

theorem fst_of_mem_maybe {c : Category} {item : Option α} {p : Category × α}
    (h : p ∈ maybe c item) : p.1 = c :=
  fst_of_mem_many h

@[simp] theorem map_snd_many (c : Category) (items : List α) :
    (many c items).map Prod.snd = items := by
  simp [many, Function.comp_def]

@[simp] theorem map_snd_maybe (c : Category) (item : Option α) :
    (maybe c item).map Prod.snd = item.toList := by
  cases item <;> rfl

theorem many_map (c : Category) (items : List α) (f : α → β) :
    many c (items.map f) = (many c items).map fun p => (p.1, f p.2) := by
  simp [many, Function.comp_def]

theorem maybe_map (c : Category) (item : Option α) (f : α → β) :
    maybe c (item.map f) = (maybe c item).map fun p => (p.1, f p.2) := by
  cases item <;> rfl

attribute [local simp] map children parts isOf

theorem snd_parts (c : Category) (form : Form α) :
    (form.parts c).map Prod.snd = form.children := by
  cases form <;> simp

theorem parts_map (c : Category) (form : Form α) (f : α → β) :
    (form.map f).parts c = (form.parts c).map fun p => (p.1, f p.2) := by
  cases form <;> simp [many_map, maybe_map]

theorem isExpression_map (form : Form α) (f : α → β) :
    (form.map f).isExpression = form.isExpression := by
  cases form with
  | function kind => cases kind <;> rfl
  | sequence items => simp [isExpression]
  | _ => rfl

theorem isBodyStatement_map (form : Form α) (f : α → β) :
    (form.map f).isBodyStatement = form.isBodyStatement := by
  cases form with
  | function kind name => cases kind <;> cases name <;> rfl
  | exit kind value => cases kind <;> cases value <;> rfl
  | declare kind definitions => cases definitions <;> rfl
  | tryBlock body caught last => cases caught <;> cases last <;> rfl
  | _ => rfl

theorem isHole_map (form : Form α) (f : α → β) : (form.map f).isHole = form.isHole := by
  cases form <;> rfl

theorem isDeclaration_map (form : Form α) (f : α → β) :
    (form.map f).isDeclaration = form.isDeclaration := by
  cases form <;> simp [isDeclaration]

theorem isSingleDeclaration_map (form : Form α) (f : α → β) :
    (form.map f).isSingleDeclaration = form.isSingleDeclaration := by
  cases form <;> simp [isSingleDeclaration]

theorem isOf_map (c : Category) (form : Form α) (f : α → β) :
    (form.map f).isOf c = form.isOf c := by
  cases c with
  | statement => exact isBodyStatement_map form f
  | expression => exact isExpression_map form f
  | element => simp only [isOf, isHole_map, isExpression_map]
  | declaration => exact isDeclaration_map form f
  | initial => simp only [isOf, isDeclaration_map, isExpression_map]
  | pattern => simp only [isOf, isSingleDeclaration_map, isExpression_map]
  | bareDefinition => cases form <;> simp
  | accessor =>
    cases form with
    | function kind => cases kind <;> simp
    | _ => rfl
  | _ => cases form <;> rfl

end Form

/-- A tree of a category, all of whose nodes have the property `P`. -/
inductive Shaped (P : Form Node → Prop) : Category → Node → Prop
  | mk {c : Category} {line : Option Nat} {form : Form Node} (fits : form.isOf c = true)
      (own : P form) (parts : ∀ p ∈ form.parts c, Shaped P p.1 p.2) : Shaped P c (.mk line form)

namespace Shaped

variable {P Q : Form Node → Prop} {c : Category} {n : Node}

theorem fits (h : Shaped P c n) : n.form.isOf c = true := by
  cases h with
  | mk fits => exact fits

theorem own (h : Shaped P c n) : P n.form := by
  cases h with
  | mk _ own => exact own

theorem part (h : Shaped P c n) {p : Category × Node} (hp : p ∈ n.form.parts c) :
    Shaped P p.1 p.2 := by
  cases h with
  | mk _ _ parts => exact parts p hp

theorem mono (h : Shaped P c n) (hPQ : ∀ form, P form → Q form) : Shaped Q c n := by
  induction h with
  | mk fits own _ ih => exact .mk fits (hPQ _ own) ih

theorem child (h : Shaped P c n) {m : Node} (hm : m ∈ n.children) : ∃ c', Shaped P c' m := by
  rw [Node.children, ← Form.snd_parts c, List.mem_map] at hm
  obtain ⟨p, hp, rfl⟩ := hm
  exact ⟨p.1, h.part hp⟩

theorem of_mem_preorder (h : Shaped P c n) {m : Node} (hm : m ∈ n.preorder) :
    ∃ c', Shaped P c' m :=
  Node.of_mem_preorder (Q := fun n => ∃ c, Shaped P c n) (fun ⟨_, h⟩ _ hm => h.child hm) ⟨c, h⟩ hm

end Shaped

/-- The categories that also have everything of a category. -/
def Category.covers : Category → Category → Bool
  | .element, .expression | .initial, .expression | .pattern, .expression => true
  | .statement, .declaration | .initial, .declaration => true
  | c, d => c = d

theorem Form.parts_of_isExpression {α : Type} {form : Form α} (h : form.isExpression = true)
    (c d : Category) : form.parts c = form.parts d := by
  cases form <;> first | rfl | cases h

theorem Form.parts_of_ne_pattern {α : Type} (form : Form α) {c d : Category} (hc : c ≠ .pattern)
    (hd : d ≠ .pattern) : form.parts c = form.parts d := by
  cases form <;> simp [parts, hc, hd]

theorem Form.isBodyStatement_of_isDeclaration {α : Type} {form : Form α}
    (h : form.isDeclaration = true) : form.isBodyStatement = true := by
  cases form with
  | declare kind definitions => exact h
  | _ => cases h

theorem Form.isOf_of_covers {α : Type} {c d : Category} (h : d.covers c = true) {form : Form α}
    (hf : form.isOf c = true) : form.isOf d = true ∧ form.parts d = form.parts c := by
  by_cases hcd : d = c
  · exact ⟨hcd ▸ hf, hcd ▸ rfl⟩
  · unfold Category.covers at h
    split at h
    · exact ⟨by simpa [isOf] using .inr hf, parts_of_isExpression hf _ _⟩
    · exact ⟨by simpa [isOf] using .inr hf, parts_of_isExpression hf _ _⟩
    · exact ⟨by simpa [isOf] using .inr hf, parts_of_isExpression hf _ _⟩
    · exact ⟨isBodyStatement_of_isDeclaration hf, form.parts_of_ne_pattern nofun nofun⟩
    · exact ⟨by simpa [isOf] using .inl hf, form.parts_of_ne_pattern nofun nofun⟩
    · simp [hcd] at h

theorem Shaped.cover {P : Form Node → Prop} {c d : Category} {n : Node} (h : Shaped P c n)
    (hd : d.covers c = true) : Shaped P d n := by
  cases h with
  | mk fits own parts =>
    obtain ⟨hf, hp⟩ := Form.isOf_of_covers hd fits
    exact .mk hf own (hp ▸ parts)

/-- Forms that program text never has. -/
def Form.isIrregular {α : Type} : Form α → Bool
  | .loose .. | .absent _ | .defect _ | .nan | .infinity => true
  | _ => false

theorem Form.isIrregular_of_isOf {α : Type} {c : Category} {form : Form α}
    (h : form.isOf c = true) : form.isIrregular = false := by
  cases form <;> first | rfl | (cases c <;> cases h)

theorem Shaped.regular {P : Form Node → Prop} {c : Category} {n : Node} (h : Shaped P c n) :
    n.form.isIrregular = false :=
  Form.isIrregular_of_isOf h.fits

end Debundle
