import Debundle.Proofs.Scope.Frames

/-!
# Respelled programs

A resolved tree is respelled: every name gets the spelling that its home tells. Scopes whose names
keep their spelling declare the same names in the respelled tree (`contextAt_respell`). So a name that
is at home in such a scope is at home there again, if the tree is resolved once more in other scopes.
-/
namespace Debundle

namespace Form

variable {α β : Type}

theorem enumerate_enumerate (form : Form α) :
    form.enumerate.enumerate = form.enumerate.map fun p => (p.1, p) := by
  have hslotted : ∀ (items : List α) (start : Nat),
      enumerate.slotted start (enumerate.slotted start items) =
        (enumerate.slotted start items).map fun p => (p.1, p) := by
    intro items
    induction items with
    | nil => exact fun _ => rfl
    | cons a items ih =>
      intro start
      have hcons : ∀ {β : Type} (b : β) (bs : List β), enumerate.slotted start (b :: bs) =
          (start, b) :: enumerate.slotted (start + 1) bs := fun b bs => rfl
      rw [hcons, hcons, ih, List.map_cons]
  have hlength : ∀ (items : List α) (start : Nat),
      (enumerate.slotted start items).length = items.length := by
    simp [enumerate.slotted]
  cases form <;> simp [enumerate, map, hslotted, hlength, Function.comp_def]

theorem children_enumerate_map (form : Form α) (f : Nat × α → β) :
    (form.enumerate.map f).enumerate.children =
      form.enumerate.children.map fun p => (p.1, f p) := by
  rw [enumerate_map, enumerate_enumerate, map_map, children_map]

theorem isFunction_map (form : Form α) (f : α → β) : (form.map f).isFunction = form.isFunction := by
  cases form <;> rfl

theorem isFunction_enumerate (form : Form α) : form.enumerate.isFunction = form.isFunction := by
  cases form <;> rfl

end Form

/-- A name as it is shown, no longer resolved. -/
def Symbol.shown (s : Symbol) : Symbol :=
  { role := s.role, name := s.display }

namespace Scope

variable {P : Form Node → Prop} {c : Category} {n : Node} {spelled : Home → String → String}
variable {frames : List Frame} {address : List Nat}

/-! ## Declared names -/

/-- The names that a node declares by itself. -/
def ownNames : Form Node → List String
  | .function .declaration (some name) _ _ => symbolNames name
  | .definition name _ => symbolNames name
  | _ => []

theorem declared_eq (n : Node) :
    declared n = (n.walk (·.form.isFunction)).flatMap fun m => ownNames m.form :=
  rfl

theorem declared_mk (line : Option Nat) (form : Form Node) :
    declared (.mk line form) =
      ownNames form ++ if form.isFunction then [] else form.children.flatMap declared := by
  rw [declared_eq, Node.walk_mk, List.flatMap_cons, Node.form]
  congr 1
  split_ifs
  · rfl
  · simp only [List.flatMap, List.map_flatten, List.flatten_flatten, List.map_map,
      Function.comp_def]
    rfl

/-! ## Spellings -/

/-- A resolved name in the spelling that its home tells, no longer resolved. -/
def respelling (spelled : Home → String → String) (s : Symbol) : Symbol :=
  { role := s.role
    name := match s.home with
      | some home => spelled home s.name
      | none => s.name }

/-- A tree in the spelling that the homes of its names tell. -/
def respell (spelled : Home → String → String) (n : Node) (frames : List Frame)
    (address : List Nat) : Node :=
  (resolveIn n frames address).mapSymbols (respelling spelled)

theorem respell_symbol (line : Option Nat) (s : Symbol) :
    respell spelled (.mk line (.symbol s)) frames address =
      .mk line (.symbol { role := s.role, name := spelled (symbolHome frames s) s.name }) := by
  rw [respell, resolveIn_symbol, Node.mapSymbols_symbol]
  rfl

theorem respell_mk (line : Option Nat) {form : Form Node} (h : ∀ s, form ≠ .symbol s) :
    respell spelled (.mk line form) frames address =
      .mk line (form.enumerate.map fun child =>
        respell spelled child.2 (framesAt form frames address child.1) (address ++ [child.1])) := by
  have he : ∀ f : Nat × Node → Node, ∀ s, form.enumerate.map f ≠ .symbol s := by
    intro f s heq
    cases form <;> first | exact h _ rfl | cases heq
  rw [respell, resolveIn_mk line h, Node.mapSymbols_mk _ _ (he _), Form.map_map]
  rfl

theorem symbolNames_respell {role : Role} (h : Shaped P (.name role) n) {home : Home}
    (hhome : ∀ s : Symbol, s.role = role → symbolHome frames s = home) :
    symbolNames (respell spelled n frames address) = (symbolNames n).map (spelled home) := by
  obtain ⟨line, form⟩ := n
  cases form with
  | symbol s =>
    have hrole : s.role = role := by simpa [Form.isOf, Node.form] using h.fits
    rw [respell_symbol, hhome s hrole]
    rfl
  | _ => cases h.fits

theorem functionHome_framesAt {form : Form Node} (h : form.isFunction = false) (slot : Nat) :
    functionHome (framesAt form frames address slot) = functionHome frames := by
  cases form with
  | function => cases h
  | handler => rfl
  | _ => rfl

theorem declared_respell (h : Shaped P c n) :
    declared (respell spelled n frames address) =
      (declared n).map (spelled (functionHome frames)) := by
  induction h generalizing frames address with
  | @mk c line form fits own parts ih =>
    by_cases hs : ∃ s, form = .symbol s
    · obtain ⟨s, rfl⟩ := hs
      rw [respell_symbol, declared_mk, declared_mk]
      rfl
    · rw [respell_mk line fun s heq => hs ⟨s, heq⟩, declared_mk, declared_mk, Form.isFunction_map,
        Form.isFunction_enumerate, List.map_append]
      congr 1
      · cases form with
        | function kind name parameters body =>
          cases kind with
          | declaration =>
            cases name with
            | none => rfl
            | some name =>
              exact symbolNames_respell (parts (.name .functionName, name) (.head _)) fun s hs => by
                rw [symbolHome, hs]
                rfl
          | _ => rfl
        | definition name value =>
          exact symbolNames_respell (parts (.name .variable, name) (.head _)) fun s hs => by
            rw [symbolHome, hs]
            rfl
        | symbol s => exact absurd ⟨s, rfl⟩ hs
        | _ => rfl
      · split_ifs with hfunction
        · rfl
        · rw [Form.children_map, List.flatMap_map, ← Form.map_snd_children_enumerate form,
            List.flatMap_map, List.map_flatMap]
          refine List.flatMap_congr fun p hp => ?_
          have hmem : p.2 ∈ form.children := Form.snd_mem_of_enumerate hp
          rw [← Form.snd_parts c, List.mem_map] at hmem
          obtain ⟨part, hpart, heq⟩ := hmem
          rw [← heq, ih part hpart, functionHome_framesAt (by simpa using hfunction)]

theorem framesAt_respell {line : Option Nat} {form : Form Node} (h : Shaped P c (.mk line form))
    (hspelled : ∀ name, spelled (.scope address) name = name) (outer : List Frame) (q : List Nat)
    (slot : Nat) :
    framesAt (form.enumerate.map fun child =>
        respell spelled child.2 (framesAt form frames address child.1) (address ++ [child.1]))
      outer q slot = framesAt form outer q slot := by
  have hid : ∀ names : List String, names.map (spelled (.scope address)) = names := fun names => by
    simp [funext hspelled]
  cases form with
  | function kind name parameters body =>
    -- everything but the name of a declaration is in the scope of the function
    have hinside : ∀ slot, ¬ (kind = .declaration ∧ slot = 0) →
        functionHome (framesAt (.function kind name parameters body) frames address slot) =
          .scope address := fun slot hslot => by
      rw [framesAt, if_neg hslot]
      rfl
    have hflat : ∀ (names : Node → List String) (start : Nat) (items : List Node), 0 < start →
        (∀ n ∈ items, ∀ slot, 0 < slot → names (respell spelled n
          (framesAt (.function kind name parameters body) frames address slot)
          (address ++ [slot])) = names n) →
        ((Form.enumerate.slotted start items).map fun child => respell spelled child.2
          (framesAt (.function kind name parameters body) frames address child.1)
          (address ++ [child.1])).flatMap names = items.flatMap names := by
      intro names start items hstart hnames
      conv_rhs => rw [← Form.map_snd_slotted start items]
      rw [List.flatMap_map, List.flatMap_map]
      refine List.flatMap_congr fun p hp => hnames p.2 ?_ p.1 ?_
      · rw [← Form.map_snd_slotted start items]
        exact List.mem_map_of_mem hp
      · exact Nat.lt_of_lt_of_le hstart (Form.le_of_mem_slotted hp)
    have hparameters := hflat symbolNames 1 parameters Nat.one_pos fun n hn slot hslot => by
      rw [symbolNames_respell (h.part (p := (.name .parameter, n)) (by
        simp [Form.parts, Form.many, Node.form, hn])) fun s hs => ?_, hid]
      rw [symbolHome, hs]
      exact hinside slot (by omega)
    have hbody := hflat declared (parameters.length + 1) body (Nat.succ_pos _) fun n hn slot hslot => by
      rw [declared_respell (h.part (p := (.statement, n)) (by
        simp [Form.parts, Form.many, Node.form, hn])), hinside slot (by omega), hid]
    have hname : kind = .expression → ∀ n, name = some n → symbolNames (respell spelled n
        (framesAt (.function kind name parameters body) frames address 0) (address ++ [0])) =
          symbolNames n := by
      rintro rfl n rfl
      rw [symbolNames_respell (h.part (p := (.name .ownName, n)) (.head _)) fun s hs => ?_, hid]
      rw [symbolHome, hs]
      exact hinside 0 (by simp)
    rw [Form.enumerate, Form.map, framesAt, framesAt, functionNames, functionNames, hparameters, hbody]
    by_cases hkind : kind = .expression
    · cases name with
      | none => rfl
      | some n =>
        simp only [hkind, if_true, Option.map_some, Option.toList_some, List.flatMap_singleton]
        simp only [← hkind, hname hkind n rfl]
    · simp only [hkind, if_false]
  | handler caught body =>
    have hcaught : symbolNames (respell spelled caught
        (framesAt (.handler caught body) frames address 0) (address ++ [0])) = symbolNames caught := by
      rw [symbolNames_respell (h.part (p := (.name .caught, caught)) (.head _)) fun s hs => ?_, hid]
      rw [symbolHome, hs]
      rfl
    exact congrArg (fun names => ⟨q, names, false⟩ :: outer) hcaught
  | _ => rfl

/-- The scopes around a position of a tree are the same in the respelled tree, if all names keep their
spelling that are at home in the tree. -/
theorem contextAt_respell (h : Shaped P c n)
    (hspelled : ∀ q name, spelled (.scope (address ++ q)) name = name) (outer : List Frame)
    (base p : List Nat) :
    contextAt (respell spelled n frames address) outer base p = contextAt n outer base p := by
  induction p generalizing n c frames address outer base with
  | nil => rfl
  | cons i p ih =>
    obtain ⟨line, form⟩ := n
    by_cases hs : ∃ s, form = .symbol s
    · obtain ⟨s, rfl⟩ := hs
      rw [respell_symbol]
      rfl
    · rw [respell_mk line fun s heq => hs ⟨s, heq⟩, contextAt, contextAt, Node.form, Node.form,
        Form.children_enumerate_map, List.getElem?_map]
      cases hchild : form.enumerate.children[i]? with
      | none => rfl
      | some child =>
        obtain ⟨c', hc'⟩ := h.child (Form.snd_mem_of_enumerate (List.mem_of_getElem? hchild))
        dsimp only [Option.map_some]
        rw [ih hc' (fun q name => by rw [List.append_assoc]; exact hspelled _ name),
          framesAt_respell h (fun name => by simpa using hspelled [] name)]

/-! ## Scopes inside of a tree -/

/-- A scope of a tree that stands at an address. -/
def Frame.under (base : List Nat) (frame : Frame) : Frame :=
  { frame with address := base ++ frame.address }

theorem contextAt_under (n : Node) (inner outer : List Frame) (base q p : List Nat) :
    contextAt n (inner.map (Frame.under base) ++ outer) (base ++ q) p =
      ((contextAt n inner q p).1.map (Frame.under base) ++ outer, base ++ (contextAt n inner q p).2) := by
  induction p generalizing n inner q with
  | nil => rfl
  | cons i p ih =>
    rw [contextAt, contextAt]
    cases hchild : n.form.enumerate.children[i]? with
    | none => rfl
    | some child =>
      have hframes : framesAt n.form (inner.map (Frame.under base) ++ outer) (base ++ q) child.1 =
          (framesAt n.form inner q child.1).map (Frame.under base) ++ outer := by
        unfold framesAt
        split
        · split_ifs <;> rfl
        · rfl
        · rfl
      dsimp only
      rw [hframes, List.append_assoc, ih]

/-- The scope that a name has for its home, if it is one of those inside of a tree. -/
def innerHome? (inner : List Frame) (s : Symbol) : Option Frame :=
  match s.role with
  | .reference => inner.find? (s.name ∈ ·.names)
  | .caught => inner.head?
  | _ => inner.find? Frame.isFunction

theorem symbolHome_under (inner outer : List Frame) (base : List Nat) (s : Symbol) :
    symbolHome (inner.map (Frame.under base) ++ outer) s =
      match innerHome? inner s with
      | some frame => .scope (base ++ frame.address)
      | none => symbolHome outer s := by
  have hfind : ∀ test : Frame → Bool, (∀ frame, test (frame.under base) = test frame) →
      (inner.map (Frame.under base) ++ outer).find? test =
        ((inner.find? test).map (Frame.under base)).or (outer.find? test) := by
    intro test htest
    rw [List.find?_append, List.find?_map]
    simp only [Function.comp_def, htest]
  unfold symbolHome innerHome?
  cases s.role with
  | reference =>
    dsimp only
    rw [homeOf, hfind _ fun _ => rfl]
    cases inner.find? (s.name ∈ ·.names) <;> rfl
  | caught => cases inner <;> rfl
  | _ =>
    dsimp only
    rw [functionHome, hfind _ fun _ => rfl]
    cases inner.find? Frame.isFunction <;> rfl

theorem innerHome?_append_eq_none {inner outer : List Frame} {base : List Nat} {s : Symbol}
    (h : innerHome? (inner.map (Frame.under base) ++ outer) s = none) :
    innerHome? inner s = none ∧ innerHome? outer s = none := by
  unfold innerHome? at h ⊢
  cases hrole : s.role with
  | caught => cases inner <;> simp_all
  | _ =>
    rw [hrole] at h
    dsimp only at h ⊢
    rw [List.find?_append, Option.or_eq_none_iff, List.find?_map, Option.map_eq_none_iff] at h
    exact h

theorem role_of_shaped {line : Option Nat} {s : Symbol} (h : Shaped P c (.mk line (.symbol s))) :
    s.role = .reference ∨ c = .name s.role := by
  have hfits := h.fits
  cases c <;> simp_all [Form.isOf, Node.form, Form.isExpression, Form.isBodyStatement, Form.isHole,
    Form.isDeclaration, Form.isSingleDeclaration]

theorem eq_of_name {role : Role} (h : Shaped P (.name role) n) {p : List Nat} {line : Option Nat}
    {s : Symbol} (hs : n.at? p = some (.mk line (.symbol s))) :
    n = .mk line (.symbol s) ∧ s.role = role := by
  obtain ⟨l, form⟩ := n
  cases form with
  | symbol s' =>
    have hrole : s'.role = role := by simpa [Form.isOf, Node.form] using h.fits
    cases p with
    | nil =>
      cases hs
      exact ⟨rfl, hrole⟩
    | cons i p => cases hs
  | _ => cases h.fits

theorem name_mem_parts {form : Form Node} {role : Role} {name : Node}
    (h : (.name role, name) ∈ form.parts c) :
    (∃ body, form = .handler name body ∧ role = .caught) ∨
      (∃ value, form = .definition name value ∧ role = .variable) ∨ form.isFunction = true := by
  cases form with
  | handler caught body => simp_all [Form.parts, Form.many]
  | definition other value => simp_all [Form.parts, Form.maybe]
  | function => exact .inr (.inr rfl)
  | declare kind definitions =>
    have hcategory := Form.fst_of_mem_many h
    split_ifs at hcategory
  | property kind key value =>
    have hcategory : Category.name role = if kind = .keyValue then .expression else .accessor :=
      congrArg Prod.fst (List.mem_singleton.1 h)
    split_ifs at hcategory
  | _ => simp [Form.parts, Form.many, Form.maybe] at h

theorem mem_declared_of_innerHome? (h : Shaped P c n) {p : List Nat} {line : Option Nat} {s : Symbol}
    (hs : n.at? p = some (.mk line (.symbol s))) (hp : p ≠ []) (hrole : s.role ≠ .reference)
    (hinner : innerHome? (contextAt n [] [] p).1 s = none) :
    s.role ≠ .caught ∧ s.name ∈ declared n := by
  induction p generalizing n c with
  | nil => exact absurd rfl hp
  | cons i p ih =>
    obtain ⟨l, form⟩ := n
    obtain ⟨child, hchild, hsymbol⟩ : ∃ child, form.children[i]? = some child ∧
        child.at? p = some (.mk line (.symbol s)) := Option.bind_eq_some_iff.1 hs
    obtain ⟨slot, hslot⟩ := Form.getElem?_enumerate hchild
    have hcontext := contextAt_under child [] (framesAt form [] [] slot) [slot] [] p
    rw [List.map_nil, List.nil_append, List.append_nil] at hcontext
    rw [contextAt, Node.form, hslot] at hinner
    dsimp only at hinner
    rw [List.nil_append, hcontext] at hinner
    obtain ⟨hbelow, hopened⟩ := innerHome?_append_eq_none hinner
    obtain ⟨c', hpart⟩ : ∃ c', (c', child) ∈ form.parts c := by
      have hmem := List.mem_of_getElem? hchild
      rw [← Form.snd_parts c, List.mem_map] at hmem
      obtain ⟨part, hpart, rfl⟩ := hmem
      exact ⟨part.1, hpart⟩
    by_cases hfunction : form.isFunction = true
    · -- only the name of a declared function is not in the scope of the function
      cases form with
      | function kind name parameters body =>
        obtain ⟨rfl, rfl⟩ : kind = .declaration ∧ slot = 0 := by
          by_contra hne
          rw [framesAt, if_neg hne, innerHome?] at hopened
          cases hs : s.role <;> simp_all
        have hname := List.mem_of_getElem? hslot
        simp only [Form.enumerate, Form.children, List.mem_append, Option.mem_toList,
          Option.map_eq_some_iff] at hname
        obtain (⟨_, rfl, heq⟩ | hlow) | hlow := hname
        · cases heq
          obtain ⟨rfl, hfunctionName⟩ := eq_of_name (h.part (p := (.name .functionName, _)) (.head _))
            hsymbol
          rw [declared_mk]
          exact ⟨by simp [hfunctionName], List.mem_append_left _ (.head _)⟩
        · exact absurd (Form.le_of_mem_slotted hlow) (by simp)
        · exact absurd (Form.le_of_mem_slotted hlow) (by simp)
      | _ => cases hfunction
    · rw [declared_mk, if_neg hfunction]
      cases p with
      | nil =>
        cases hsymbol
        obtain hreference | rfl := role_of_shaped (h.part hpart)
        · exact absurd hreference hrole
        · obtain ⟨body, rfl, hcaught⟩ | ⟨value, rfl, hvariable⟩ | hfunction' := name_mem_parts hpart
          · rw [framesAt, innerHome?, hcaught] at hopened
            cases hopened
          · exact ⟨by simp [hvariable], List.mem_append_left _ (.head _)⟩
          · exact absurd hfunction' hfunction
      | cons j p =>
        obtain ⟨hcaught, hmem⟩ := ih (h.part hpart) hsymbol (List.cons_ne_nil j p) hbelow
        exact ⟨hcaught, List.mem_append_right _
          (List.mem_flatMap.2 ⟨child, List.mem_of_getElem? hchild, hmem⟩)⟩

end Scope

end Debundle
