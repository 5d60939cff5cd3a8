import Debundle.Proofs.Reading.Shape
import Debundle.Proofs.Scope.Respelling
import Debundle.Scope.Table

/-!
# Lexical scoping

The rules of lexical scoping are said on positions alone (`Scope.HasHome`): a scope declares the
names at certain positions in it, and a reference belongs to the innermost scope around it that
declares its name. The scopes that are opened on the way to a position are those around it
(`Scope.mem_around_iff`), and what they declare are the names that the rules say
(`Scope.declaresName_iff`).
-/
namespace Debundle

namespace Form

variable {α : Type}

/-- Programs, functions and exception handlers open scopes. -/
def opensScope : Form α → Bool
  | program _ | function .. | handler .. => true
  | _ => false

/-- Programs and functions take in the variables and functions that are declared inside of them. -/
def isBody : Form α → Bool
  | program _ | function .. => true
  | _ => false

/-- Definitions of variables and declarations of functions. Their name is their first child. -/
def isHoisted : Form α → Bool
  | definition .. | function .declaration (some _) _ _ => true
  | _ => false

end Form

namespace Node

/-- No function is around a position. -/
def ClearTo (n : Node) (p : List Nat) : Prop :=
  ∀ q i rest m, p = q ++ i :: rest → n.at? q = some m → m.form.isFunction = false

/-- The scope that a node opens declares the name at a position: that of a variable or a declared
function that is not in an inner function, of a parameter, of the function itself if it is an
expression, and of what a handler catches. -/
inductive Declares : Node → List Nat → Prop
  | hoisted {line : Option Nat} {form : Form Node} {i : Nat} {child m : Node} {rest : List Nat}
      (body : form.isBody = true) (inside : form.children[i]? = some child)
      (found : child.at? rest = some m) (clear : child.ClearTo rest)
      (declares : m.form.isHoisted = true) : Declares (mk line form) (i :: (rest ++ [0]))
  | parameter {line : Option Nat} {kind : FunctionKind} {name : Option Node}
      {parameters body : List Node} {i : Nat} (inside : i < parameters.length) :
      Declares (mk line (.function kind name parameters body)) [name.toList.length + i]
  | ownName {line : Option Nat} {name : Node} {parameters body : List Node} :
      Declares (mk line (.function .expression (some name) parameters body)) [0]
  | caught {line : Option Nat} {name : Node} {body : List Node} :
      Declares (mk line (.handler name body)) [0]

end Node

namespace Scope

/-- The scope at `q` is around the position `p`. -/
def Encloses (t : Node) (q p : List Nat) : Prop :=
  (∃ n, t.at? q = some n ∧ n.form.opensScope = true) ∧ ∃ i rest, p = q ++ i :: rest

/-- The scope at `q` declares the name at `p`. -/
def Declares (t : Node) (q p : List Nat) : Prop :=
  ∃ n r, t.at? q = some n ∧ p = q ++ r ∧ n.Declares r

/-- The scope at `q` declares a name. -/
def DeclaresName (t : Node) (q : List Nat) (name : String) : Prop :=
  ∃ p s, Declares t q p ∧ t.symbol? p = some s ∧ s.name = name

/-- The scope to which the name at `p` belongs. A name that is declared belongs to the scope that
declares it, and a reference to the innermost one around it that declares its name. -/
inductive HasHome (t : Node) (p : List Nat) : Option (List Nat) → Prop
  | declared {q : List Nat} (declares : Declares t q p) : HasHome t p (some q)
  | bound {q : List Nat} {s : Symbol} (symbol : t.symbol? p = some s) (role : s.role = .reference)
      (around : Encloses t q p) (declares : DeclaresName t q s.name)
      (innermost : ∀ r, Encloses t r p → DeclaresName t r s.name → r.length ≤ q.length) :
      HasHome t p (some q)
  | free {s : Symbol} (symbol : t.symbol? p = some s) (role : s.role = .reference)
      (undeclared : ∀ q, Encloses t q p → ¬ DeclaresName t q s.name) : HasHome t p none

/-- The address of the node at a position. -/
def addressAt (t : Node) (p : List Nat) : List Nat :=
  (contextAt t [] [] p).2

/-- The home that belongs to the position of a scope. -/
def homeAt (t : Node) : Option (List Nat) → Home
  | some q => .scope (addressAt t q)
  | none => .free

end Scope

/-! ## Declared names -/

theorem Form.getElem?_parameter {α : Type} (kind : FunctionKind) (name : Option α) (body : List α)
    {parameters : List α} {i : Nat} {parameter : α} (h : parameters[i]? = some parameter) :
    (Form.function kind name parameters body).children[name.toList.length + i]? =
      some parameter := by
  rw [children, List.append_assoc, List.getElem?_append_right (Nat.le_add_right _ _),
    Nat.add_sub_cancel_left, List.getElem?_append_left (List.getElem?_eq_some_iff.1 h).1, h]

namespace Node

theorem clearTo_nil (n : Node) : n.ClearTo [] := by
  intro q i rest m h
  simp at h

theorem clearTo_cons {line : Option Nat} {form : Form Node} {i : Nat} {child : Node}
    {p : List Nat} (hchild : form.children[i]? = some child) :
    (mk line form).ClearTo (i :: p) ↔ form.isFunction = false ∧ child.ClearTo p := by
  constructor
  · intro h
    refine ⟨h [] i p _ rfl rfl, fun q j rest m hp hm => h (i :: q) j rest m (by rw [hp]; rfl) ?_⟩
    rw [at?_cons, Node.form, hchild]
    exact hm
  · rintro ⟨hform, h⟩ q j rest m hp hm
    cases q with
    | nil =>
      cases hm
      exact hform
    | cons k q =>
      obtain ⟨rfl, hrest⟩ := List.cons.inj hp
      rw [at?_cons, Node.form, hchild] at hm
      exact h q j rest m hrest hm

end Node

namespace Scope

variable {P : Form Node → Prop} {c : Category} {n : Node} {name : String}

theorem mem_symbolNames_iff : name ∈ symbolNames n ↔ ∃ s, n.symbol? [] = some s ∧ s.name = name := by
  obtain ⟨line, form⟩ := n
  cases form with
  | symbol s => simp [symbolNames, Node.symbol?, eq_comm]
  | _ => simp [symbolNames, Node.symbol?]

theorem mem_ownNames_iff (line : Option Nat) {form : Form Node} :
    name ∈ ownNames form ↔
      form.isHoisted = true ∧ ∃ s, (Node.mk line form).symbol? [0] = some s ∧ s.name = name := by
  cases form with
  | definition first value => exact mem_symbolNames_iff.trans (by simp [Form.isHoisted]; rfl)
  | function kind first parameters body =>
    cases kind with
    | declaration =>
      cases first with
      | none => simp [ownNames, Form.isHoisted]
      | some first => exact mem_symbolNames_iff.trans (by simp [Form.isHoisted]; rfl)
    | _ => simp [ownNames, Form.isHoisted]
  | _ => simp [ownNames, Form.isHoisted]

/-- What a statement declares are the names of the variables and functions in it that are not in a
function. -/
theorem mem_declared_iff : name ∈ declared n ↔ ∃ p m s, n.at? p = some m ∧ n.ClearTo p ∧
    m.form.isHoisted = true ∧ n.symbol? (p ++ [0]) = some s ∧ s.name = name := by
  induction n using Node.induct with
  | step line form ih =>
    rw [declared_mk, List.mem_append, mem_ownNames_iff line]
    constructor
    · rintro (⟨hhoisted, s, hs, hname⟩ | hbelow)
      · exact ⟨[], _, s, rfl, Node.clearTo_nil _, hhoisted, hs, hname⟩
      · split_ifs at hbelow with hfunction
        · cases hbelow
        · obtain ⟨child, hchild, hname⟩ := List.mem_flatMap.1 hbelow
          obtain ⟨p, m, s, hm, hclear, hhoisted, hs, hname⟩ := (ih child hchild).1 hname
          obtain ⟨i, hi⟩ := List.mem_iff_getElem?.1 hchild
          refine ⟨i :: p, m, s, ?_, (Node.clearTo_cons hi).2 ⟨by simpa using hfunction, hclear⟩,
            hhoisted, ?_, hname⟩
          · rw [Node.at?_cons, Node.form, hi]
            exact hm
          · rw [List.cons_append, Node.symbol?_cons line hi, hs]
    · rintro ⟨p, m, s, hm, hclear, hhoisted, hs, hname⟩
      obtain ⟨rfl, rfl⟩ | ⟨i, rest, child, rfl, hchild, hm⟩ := Node.at?_cases hm
      · exact .inl ⟨hhoisted, s, hs, hname⟩
      · obtain ⟨hfunction, hclear⟩ := (Node.clearTo_cons hchild).1 hclear
        rw [List.cons_append, Node.symbol?_cons line hchild] at hs
        rw [hfunction]
        exact .inr (List.mem_flatMap.2 ⟨child, List.mem_of_getElem? hchild,
          (ih child (List.mem_of_getElem? hchild)).2 ⟨rest, m, s, hm, hclear, hhoisted, hs, hname⟩⟩)

/-- The names that the scope of a node declares. -/
def scopeNames : Form Node → List String
  | .program body => programNames body
  | .function kind name parameters body => functionNames kind name parameters body
  | .handler caught _ => symbolNames caught
  | _ => []

theorem declared_of_name {role : Role} (h : Shaped P (.name role) n) : declared n = [] := by
  obtain ⟨line, form⟩ := n
  cases form with
  | symbol s => rw [declared_mk]; rfl
  | _ => cases h.fits

theorem exists_hoisted_iff (line : Option Nat) (form : Form Node) :
    name ∈ form.children.flatMap declared ↔ ∃ i child rest m s, form.children[i]? = some child ∧
      child.at? rest = some m ∧ child.ClearTo rest ∧ m.form.isHoisted = true ∧
      (Node.mk line form).symbol? (i :: (rest ++ [0])) = some s ∧ s.name = name := by
  rw [List.mem_flatMap]
  constructor
  · rintro ⟨child, hchild, hname⟩
    obtain ⟨i, hi⟩ := List.mem_iff_getElem?.1 hchild
    obtain ⟨rest, m, s, hm, hclear, hhoisted, hs, hname⟩ := mem_declared_iff.1 hname
    exact ⟨i, child, rest, m, s, hi, hm, hclear, hhoisted, by rw [Node.symbol?_cons line hi, hs],
      hname⟩
  · rintro ⟨i, child, rest, m, s, hi, hm, hclear, hhoisted, hs, hname⟩
    rw [Node.symbol?_cons line hi] at hs
    exact ⟨child, List.mem_of_getElem? hi,
      mem_declared_iff.2 ⟨rest, m, s, hm, hclear, hhoisted, hs, hname⟩⟩

theorem mem_scopeNames_iff (h : Shaped P c n) :
    name ∈ scopeNames n.form ↔ ∃ p s, n.Declares p ∧ n.symbol? p = some s ∧ s.name = name := by
  obtain ⟨line, form⟩ := n
  cases form with
  | program body =>
    rw [Node.form, scopeNames, programNames, List.mem_eraseDups]
    refine (exists_hoisted_iff line (.program body)).trans ⟨?_, ?_⟩
    · rintro ⟨i, child, rest, m, s, hi, hm, hclear, hhoisted, hs, hname⟩
      exact ⟨_, s, .hoisted rfl hi hm hclear hhoisted, hs, hname⟩
    · rintro ⟨p, s, hdeclares, hs, hname⟩
      cases hdeclares with
      | hoisted _ hi hm hclear hhoisted => exact ⟨_, _, _, _, s, hi, hm, hclear, hhoisted, hs, hname⟩
  | function kind own parameters body =>
    have hown : ∀ m ∈ own.toList ++ parameters, declared m = [] := by
      intro m hm
      obtain hm | hm := List.mem_append.1 hm
      · exact declared_of_name (h.part (p := (_, m)) (by
          simp only [Form.parts, Form.maybe, Node.form]
          exact List.mem_append_left _ (List.mem_append_left _ (List.mem_map_of_mem hm))))
      · exact declared_of_name (h.part (p := (.name .parameter, m)) (by
          simp [Form.parts, Form.many, Node.form, hm]))
    have hbody : body.flatMap declared =
        (Form.function kind own parameters body).children.flatMap declared := by
      rw [Form.children, List.flatMap_append, List.flatMap_eq_nil_iff.2 hown, List.nil_append]
    rw [Node.form, scopeNames, functionNames, List.mem_eraseDups, List.mem_append, List.mem_append,
      hbody, exists_hoisted_iff line]
    constructor
    · rintro ((hparameter | ⟨i, child, rest, m, s, hi, hm, hclear, hhoisted, hs, hname⟩) | hown)
      · obtain ⟨m, hm, hname⟩ := List.mem_flatMap.1 hparameter
        obtain ⟨i, hi⟩ := List.mem_iff_getElem?.1 hm
        obtain ⟨s, hs, hname⟩ := mem_symbolNames_iff.1 hname
        refine ⟨_, s, .parameter (List.getElem?_eq_some_iff.1 hi).1, ?_, hname⟩
        rw [Node.symbol?_cons line (Form.getElem?_parameter kind own body hi), hs]
      · exact ⟨_, s, .hoisted rfl hi hm hclear hhoisted, hs, hname⟩
      · split_ifs at hown with hkind
        · cases own with
          | none => cases hown
          | some m =>
            rw [Option.toList_some, List.flatMap_singleton] at hown
            obtain ⟨s, hs, hname⟩ := mem_symbolNames_iff.1 hown
            subst hkind
            exact ⟨_, s, .ownName, hs, hname⟩
        · cases hown
    · rintro ⟨p, s, hdeclares, hs, hname⟩
      cases hdeclares with
      | hoisted _ hi hm hclear hhoisted =>
        exact .inl (.inr ⟨_, _, _, _, s, hi, hm, hclear, hhoisted, hs, hname⟩)
      | @parameter _ _ _ _ _ i hi =>
        have hget := List.getElem?_eq_getElem hi
        rw [Node.symbol?_cons line (Form.getElem?_parameter kind own body hget)] at hs
        exact .inl (.inl (List.mem_flatMap.2
          ⟨_, List.getElem_mem hi, mem_symbolNames_iff.2 ⟨s, hs, hname⟩⟩))
      | ownName =>
        exact .inr (by simpa using mem_symbolNames_iff.2 ⟨s, hs, hname⟩)
  | handler caught body =>
    rw [Node.form, scopeNames, mem_symbolNames_iff]
    constructor
    · rintro ⟨s, hs, hname⟩
      exact ⟨_, s, .caught, hs, hname⟩
    · rintro ⟨p, s, hdeclares, hs, hname⟩
      cases hdeclares with
      | hoisted hbody => cases hbody
      | caught => exact ⟨s, hs, hname⟩
  | _ =>
    refine iff_of_false List.not_mem_nil ?_
    rintro ⟨p, s, hdeclares, -⟩
    cases hdeclares with
    | hoisted hbody => cases hbody

/-! ## Scopes by their positions -/

theorem contextAt_eq (n : Node) (frames : List Frame) (address p : List Nat) :
    contextAt n frames address p =
      ((contextAt n [] [] p).1.map (Frame.under address) ++ frames, address ++ addressAt n p) := by
  have h := contextAt_under n [] frames address [] p
  rwa [List.map_nil, List.nil_append, List.append_nil] at h

theorem contextAt_cons {i slot : Nat} {child : Node}
    (h : n.form.enumerate.children[i]? = some (slot, child)) (frames : List Frame)
    (address p : List Nat) :
    contextAt n frames address (i :: p) =
      contextAt child (framesAt n.form frames address slot) (address ++ [slot]) p := by
  rw [contextAt, h]

theorem addressAt_cons {i slot : Nat} {child : Node}
    (h : n.form.enumerate.children[i]? = some (slot, child)) (p : List Nat) :
    addressAt n (i :: p) = slot :: addressAt child p := by
  rw [addressAt, contextAt_cons h, contextAt_eq]
  rfl

theorem length_addressAt {p : List Nat} {m : Node} (h : n.at? p = some m) :
    (addressAt n p).length = p.length := by
  induction p generalizing n with
  | nil => rfl
  | cons i p ih =>
    obtain ⟨child, hchild, hm⟩ := Option.bind_eq_some_iff.1 h
    obtain ⟨slot, hslot⟩ := Form.getElem?_enumerate hchild
    rw [addressAt_cons hslot, List.length_cons, List.length_cons, ih hm]

theorem addressAt_inj {p q : List Nat} {m k : Node} (hp : n.at? p = some m) (hq : n.at? q = some k)
    (h : addressAt n p = addressAt n q) : p = q := by
  induction p generalizing n q with
  | nil =>
    have hlength := congrArg List.length h
    rw [length_addressAt hp, length_addressAt hq] at hlength
    exact (List.eq_nil_of_length_eq_zero hlength.symm).symm
  | cons i p ih =>
    cases q with
    | nil =>
      have hlength := congrArg List.length h
      rw [length_addressAt hp, length_addressAt hq] at hlength
      cases hlength
    | cons j q =>
      obtain ⟨child, hchild, hm⟩ := Option.bind_eq_some_iff.1 hp
      obtain ⟨other, hother, hk⟩ := Option.bind_eq_some_iff.1 hq
      obtain ⟨slot, hslot⟩ := Form.getElem?_enumerate hchild
      obtain ⟨slot', hslot'⟩ := Form.getElem?_enumerate hother
      rw [addressAt_cons hslot, addressAt_cons hslot'] at h
      obtain ⟨rfl, hrest⟩ := List.cons.inj h
      have hi : (n.form.enumerate.children.map Prod.fst)[i]? = some slot := by
        rw [List.getElem?_map, hslot]
        rfl
      have hj : (n.form.enumerate.children.map Prod.fst)[j]? = some slot := by
        rw [List.getElem?_map, hslot']
        rfl
      obtain rfl : i = j := (List.getElem?_inj (List.getElem?_eq_some_iff.1 hi).1
        n.form.nodup_slots).1 (hi.trans hj.symm)
      cases hchild.symm.trans hother
      rw [ih hm hk hrest]

/-- The scope of a node at an address. -/
def scopeFrame (form : Form Node) (address : List Nat) : Frame :=
  ⟨address, scopeNames form, form.isBody⟩

/-- Whether a node inside of a program opens a scope for one of its children. The name of a declared
function is outside of the function. -/
def opensFor (form : Form Node) (i : Nat) : Bool :=
  match form with
  | .function .declaration (some _) _ _ => i ≠ 0
  | .function .. | .handler .. => true
  | _ => false

theorem framesAt_eq {form : Form Node} {i slot : Nat} {child : Node}
    (h : form.enumerate.children[i]? = some (slot, child)) (frames : List Frame)
    (address : List Nat) :
    framesAt form frames address slot =
      if opensFor form i then scopeFrame form address :: frames else frames := by
  cases form with
  | function kind own parameters body =>
    have hlater : ∀ p ∈ Form.enumerate.slotted 1 parameters ++
        Form.enumerate.slotted (parameters.length + 1) body, p.1 ≠ 0 := by
      intro p hp
      obtain hp | hp := List.mem_append.1 hp
      · exact Nat.ne_of_gt (Form.le_of_mem_slotted hp)
      · have := Form.le_of_mem_slotted hp
        omega
    have hslot : kind = .declaration ∧ slot = 0 ↔
        opensFor (.function kind own parameters body) i = false := by
      rw [Form.enumerate, Form.children, List.append_assoc] at h
      cases own with
      | none =>
        have hne := hlater _ (List.mem_of_getElem? h)
        cases kind <;> simp [opensFor, hne]
      | some first =>
        cases i with
        | zero =>
          cases h
          cases kind <;> simp [opensFor]
        | succ i =>
          have hne := hlater _ (List.mem_of_getElem? h)
          cases kind <;> simp [opensFor, hne]
    simp only [framesAt, hslot]
    cases opensFor (.function kind own parameters body) i <;> rfl
  | _ => rfl

theorem mem_contextAt_iff {p : List Nat} {k : Node} {frame : Frame} (h : n.at? p = some k) :
    frame ∈ (contextAt n [] [] p).1 ↔ ∃ q i rest m, p = q ++ i :: rest ∧ n.at? q = some m ∧
      opensFor m.form i = true ∧ frame = scopeFrame m.form (addressAt n q) := by
  induction p generalizing n frame with
  | nil =>
    refine iff_of_false List.not_mem_nil ?_
    rintro ⟨q, i, rest, m, hp, -⟩
    simp at hp
  | cons j p ih =>
    obtain ⟨child, hchild, hk⟩ := Option.bind_eq_some_iff.1 h
    obtain ⟨slot, hslot⟩ := Form.getElem?_enumerate hchild
    rw [contextAt_cons hslot, contextAt_eq, List.nil_append, List.mem_append, List.mem_map,
      framesAt_eq hslot]
    constructor
    · rintro (⟨inner, hinner, rfl⟩ | hown)
      · obtain ⟨q, i, rest, m, rfl, hm, hopens, rfl⟩ := (ih hk).1 hinner
        refine ⟨j :: q, i, rest, m, rfl, ?_, hopens, ?_⟩
        · rw [Node.at?_cons, hchild]
          exact hm
        · rw [addressAt_cons hslot]
          rfl
      · split_ifs at hown with hopens
        · rw [List.mem_singleton] at hown
          exact ⟨[], j, p, _, rfl, rfl, hopens, hown⟩
        · cases hown
    · rintro ⟨q, i, rest, m, hp, hm, hopens, rfl⟩
      cases q with
      | nil =>
        cases hm
        obtain ⟨rfl, rfl⟩ := List.cons.inj hp
        rw [hopens]
        exact .inr (.head _)
      | cons j' q =>
        obtain ⟨rfl, hrest⟩ := List.cons.inj hp
        rw [Node.at?_cons, hchild] at hm
        refine .inl ⟨_, (ih hk).2 ⟨q, i, rest, m, hrest, hm, hopens, rfl⟩, ?_⟩
        rw [addressAt_cons hslot]
        rfl

/-- Inner scopes come first. -/
def Nested (frames : List Frame) : Prop :=
  frames.Pairwise fun inner outer => outer.address.length < inner.address.length

theorem nested_contextAt (n : Node) (p : List Nat) : Nested (contextAt n [] [] p).1 := by
  induction p generalizing n with
  | nil => exact .nil
  | cons i p ih =>
    cases hslot : n.form.enumerate.children[i]? with
    | none =>
      rw [contextAt, hslot]
      exact .nil
    | some child =>
      obtain ⟨slot, child⟩ := child
      rw [contextAt_cons hslot, contextAt_eq]
      refine List.pairwise_append.2 ⟨?_, ?_, ?_⟩
      · refine List.pairwise_map.2 ((ih child).imp fun h => ?_)
        simpa [Frame.under] using h
      · rw [framesAt_eq hslot]
        split_ifs
        · exact List.pairwise_singleton _ _
        · exact .nil
      · intro inner hinner outer houter
        obtain ⟨frame, -, rfl⟩ := List.mem_map.1 hinner
        rw [framesAt_eq hslot] at houter
        split_ifs at houter
        · rw [List.mem_singleton.1 houter]
          simp [Frame.under, scopeFrame]
        · cases houter

/-- The first scope with a property is the innermost one. -/
theorem find?_eq_some_of_innermost {frames : List Frame} (h : Nested frames) {test : Frame → Bool}
    {frame : Frame} (hmem : frame ∈ frames) (htest : test frame = true)
    (hinner : ∀ g ∈ frames, test g = true → g.address.length ≤ frame.address.length) :
    frames.find? test = some frame := by
  induction h with
  | nil => cases hmem
  | @cons first rest hfirst _ ih =>
    by_cases hhead : test first = true
    · obtain rfl | hlater := List.mem_cons.1 hmem
      · exact List.find?_cons_of_pos hhead
      · have hdeeper := hfirst frame hlater
        have := hinner first (.head _) hhead
        omega
    · rw [List.find?_cons_of_neg hhead]
      obtain rfl | hlater := List.mem_cons.1 hmem
      · exact absurd htest hhead
      · exact ih hlater fun g hg => hinner g (.tail _ hg)

theorem le_of_find?_eq_some {frames : List Frame} (h : Nested frames) {test : Frame → Bool}
    {frame : Frame} (hfind : frames.find? test = some frame) {g : Frame} (hg : g ∈ frames)
    (htest : test g = true) : g.address.length ≤ frame.address.length := by
  induction h with
  | nil => cases hg
  | @cons first rest hfirst _ ih =>
    by_cases hhead : test first = true
    · rw [List.find?_cons_of_pos hhead] at hfind
      cases hfind
      obtain rfl | hlater := List.mem_cons.1 hg
      · exact Nat.le_refl _
      · exact Nat.le_of_lt (hfirst g hlater)
    · rw [List.find?_cons_of_neg hhead] at hfind
      obtain rfl | hlater := List.mem_cons.1 hg
      · exact absurd htest hhead
      · exact ih hfind hlater

end Scope

/-! ## Scopes of a program -/

theorem Form.parts_ne_program {α : Type} {form : Form α} {c : Category} {p : Category × α}
    (h : p ∈ form.parts c) : p.1 ≠ .program := by
  cases form <;> grind [parts, many, maybe]

namespace Scope

variable {P : Form Node → Prop} {t : Node} {s : Symbol} {p q : List Nat}

theorem shaped_at? {c : Category} {n m : Node} (h : Shaped P c n) (hm : n.at? p = some m)
    (hp : p = [] → c ≠ .program) : ∃ d, d ≠ .program ∧ Shaped P d m := by
  induction p generalizing n c with
  | nil =>
    cases hm
    exact ⟨c, hp rfl, h⟩
  | cons i p ih =>
    obtain ⟨child, hchild, hm⟩ := Option.bind_eq_some_iff.1 hm
    have hmem := List.mem_of_getElem? hchild
    rw [← Form.snd_parts c, List.mem_map] at hmem
    obtain ⟨part, hpart, rfl⟩ := hmem
    exact ih (h.part hpart) hm fun _ => Form.parts_ne_program hpart

theorem isOf_program_of_at? (ht : Shaped P .program t) {m : Node} (hm : t.at? p = some m)
    (hp : p ≠ []) : m.form.isOf .program = false := by
  obtain ⟨d, hd, hshaped⟩ := shaped_at? ht hm fun h => absurd h hp
  obtain ⟨line, form⟩ := m
  cases form with
  | program body => cases d <;> first | exact absurd rfl hd | cases hshaped.fits
  | _ => rfl

/-- The scopes around a position of a program, innermost first. -/
def around (t : Node) (p : List Nat) : List Frame :=
  (contextAt t [scopeFrame t.form []] [] p).1

theorem around_eq (t : Node) (p : List Nat) :
    around t p = (contextAt t [] [] p).1 ++ [scopeFrame t.form []] := by
  have hunder : Frame.under [] = id := rfl
  rw [around, contextAt_eq, hunder, List.map_id]

/-- A scope at a position is around another position. -/
def OpensAround (t : Node) (q p : List Nat) (m : Node) : Prop :=
  ∃ i rest, p = q ++ i :: rest ∧ t.at? q = some m ∧ (q = [] ∨ opensFor m.form i = true)

theorem mem_around_iff {k : Node} {frame : Frame} (hk : t.at? p = some k) (hp : p ≠ []) :
    frame ∈ around t p ↔
      ∃ q m, OpensAround t q p m ∧ frame = scopeFrame m.form (addressAt t q) := by
  rw [around_eq, List.mem_append, List.mem_singleton, mem_contextAt_iff hk]
  constructor
  · rintro (⟨q, i, rest, m, hpq, hm, hopens, rfl⟩ | rfl)
    · exact ⟨q, m, ⟨i, rest, hpq, hm, .inr hopens⟩, rfl⟩
    · obtain ⟨i, rest, rfl⟩ := List.exists_cons_of_ne_nil hp
      exact ⟨[], t, ⟨i, rest, rfl, rfl, .inl rfl⟩, rfl⟩
  · rintro ⟨q, m, ⟨i, rest, hpq, hm, rfl | hopens⟩, rfl⟩
    · cases hm
      exact .inr rfl
    · exact .inl ⟨q, i, rest, m, hpq, hm, hopens, rfl⟩

theorem nested_around (ht : t.form.isOf .program = true) {k : Node} (hk : t.at? p = some k) :
    Nested (around t p) := by
  rw [around_eq]
  refine List.pairwise_append.2 ⟨nested_contextAt t p, List.pairwise_singleton _ _, ?_⟩
  intro inner hinner outer houter
  obtain ⟨q, i, rest, m, -, hm, hopens, rfl⟩ := (mem_contextAt_iff hk).1 hinner
  have hq : q ≠ [] := by
    rintro rfl
    cases hm
    obtain ⟨line, form⟩ := t
    cases form with
    | program body => cases hopens
    | _ => cases ht
  rw [List.mem_singleton.1 houter]
  show 0 < (addressAt t q).length
  rw [length_addressAt hm]
  exact List.length_pos_iff.2 hq

theorem find?_around (ht : t.form.isOf .program = true) {k m : Node} (hk : t.at? p = some k)
    (hopens : OpensAround t q p m) (test : Frame → Bool)
    (htest : test (scopeFrame m.form (addressAt t q)) = true)
    (hinner : ∀ q' m', OpensAround t q' p m' → test (scopeFrame m'.form (addressAt t q')) = true →
      q'.length ≤ q.length) :
    (around t p).find? test = some (scopeFrame m.form (addressAt t q)) := by
  have hp : p ≠ [] := by
    obtain ⟨i, rest, rfl, -⟩ := hopens
    simp
  obtain ⟨-, -, -, hm, -⟩ := id hopens
  refine find?_eq_some_of_innermost (nested_around ht hk)
    ((mem_around_iff hk hp).2 ⟨q, m, hopens, rfl⟩) htest fun frame hframe htest' => ?_
  obtain ⟨q', m', hopens', rfl⟩ := (mem_around_iff hk hp).1 hframe
  obtain ⟨-, -, -, hm', -⟩ := id hopens'
  simp only [scopeFrame, length_addressAt hm, length_addressAt hm']
  exact hinner q' m' hopens' htest'

theorem encloses_iff (ht : Shaped P .program t) (hs : t.symbol? p = some s)
    (hrole : s.role = .reference) : Encloses t q p ↔ ∃ m, OpensAround t q p m := by
  constructor
  · rintro ⟨⟨m, hm, hscope⟩, i, rest, rfl⟩
    refine ⟨m, i, rest, rfl, hm, ?_⟩
    by_cases hq : q = []
    · exact .inl hq
    · have hprogram := isOf_program_of_at? ht hm hq
      obtain ⟨d, -, hshaped⟩ := shaped_at? ht hm fun h => absurd h hq
      obtain ⟨line, form⟩ := m
      refine .inr ?_
      cases form with
      | program body => cases hprogram
      | function kind own parameters body =>
        cases own with
        | none => cases kind <;> rfl
        | some own =>
          cases kind with
          | declaration =>
            cases i with
            | succ i => rfl
            | zero =>
              obtain ⟨line, hs⟩ := Node.symbol?_eq_some_iff.1 hs
              rw [Node.at?_append, hm] at hs
              obtain ⟨-, hname⟩ := eq_of_name
                (hshaped.part (p := (.name .functionName, own)) (.head _)) (p := rest) hs
              rw [hrole] at hname
              cases hname
          | _ => rfl
      | handler caught body => rfl
      | _ => cases hscope
  · rintro ⟨m, i, rest, rfl, hm, hopens⟩
    refine ⟨⟨m, hm, ?_⟩, i, rest, rfl⟩
    obtain rfl | hopens := hopens
    · cases hm
      obtain ⟨line, form⟩ := t
      cases form with
      | program body => rfl
      | _ => cases ht.fits
    · obtain ⟨line, form⟩ := m
      cases form with
      | function => rfl
      | handler => rfl
      | _ => cases hopens

theorem declaresName_iff (ht : Shaped P .program t) {m : Node} (hm : t.at? q = some m)
    {name : String} : DeclaresName t q name ↔ name ∈ scopeNames m.form := by
  obtain ⟨c, hshaped⟩ := ht.of_mem_preorder (Node.mem_preorder_of_at? hm)
  rw [mem_scopeNames_iff hshaped]
  constructor
  · rintro ⟨p, s, ⟨m', r, hm', rfl, hdeclares⟩, hs, hname⟩
    cases hm.symm.trans hm'
    rw [Node.symbol?_append hm] at hs
    exact ⟨r, s, hdeclares, hs, hname⟩
  · rintro ⟨r, s, hdeclares, hs, hname⟩
    exact ⟨q ++ r, s, ⟨m, r, hm, rfl, hdeclares⟩, by rw [Node.symbol?_append hm, hs], hname⟩

end Scope

end Debundle
