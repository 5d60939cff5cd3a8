import Debundle.Proofs.Scope.Binding

/-!
# Renaming

A program whose definitions are shown under other names has the same bindings when it is read as it is
shown, if the other names are distinct and new (`sameBindings_showAs`). The rules of scoping look at
the outlines of nodes and at which names are equal; a renaming that keeps both keeps all homes
(`Scope.Renames.hasHome`).
-/
namespace Debundle

/-! ## Trees that differ in names -/

namespace Form

variable {α β : Type}

/-- A form without its children and without the texts of names. -/
def outline : Form α → Form Unit
  | symbol s => symbol { role := s.role, name := "" }
  | form => form.label

theorem outline_label (form : Form α) : form.label.outline = form.outline := by
  cases form <;> simp [outline, label, map]

theorem outline_map (form : Form α) (f : α → β) : (form.map f).outline = form.outline := by
  rw [← outline_label, label_map, outline_label]

theorem isBody_outline (form : Form α) : form.outline.isBody = form.isBody := by
  cases form <;> rfl

theorem isFunction_outline (form : Form α) : form.outline.isFunction = form.isFunction := by
  cases form <;> rfl

theorem opensScope_outline (form : Form α) : form.outline.opensScope = form.opensScope := by
  cases form <;> rfl

theorem isHoisted_outline (form : Form α) : form.outline.isHoisted = form.isHoisted := by
  cases form with
  | function kind name => cases kind <;> cases name <;> rfl
  | _ => rfl

theorem slots_outline (form : Form α) :
    form.outline.enumerate.children.map Prod.fst = form.enumerate.children.map Prod.fst := by
  have hlabel : form.label.enumerate.children.map Prod.fst =
      form.enumerate.children.map Prod.fst := by
    rw [label, enumerate_map, children_map, List.map_map]
    rfl
  cases form with
  | symbol => rfl
  | _ => exact hlabel

end Form

namespace Node

/-- Trees with the same nodes, apart from lines and the texts of names. -/
def Alike (n n' : Node) : Prop :=
  ∀ p, (n'.at? p).map (·.form.outline) = (n.at? p).map (·.form.outline)

namespace Alike

variable {n n' m : Node} {p : List Nat}

theorem symm (h : Alike n n') : Alike n' n :=
  fun p => (h p).symm

theorem outline (h : Alike n n') : n'.form.outline = n.form.outline :=
  Option.some.inj (h [])

theorem trans {k : Node} (h : Alike n m) (h' : Alike m k) : Alike n k :=
  fun p => (h' p).trans (h p)

theorem at? (h : Alike n n') (hm : n.at? p = some m) : ∃ m', n'.at? p = some m' ∧ Alike m m' := by
  have hp := h p
  rw [hm] at hp
  obtain ⟨m', hm', -⟩ := Option.map_eq_some_iff.1 hp
  refine ⟨m', hm', fun q => ?_⟩
  have hq := h (p ++ q)
  rwa [at?_append, at?_append, hm, hm'] at hq

theorem child {i : Nat} {below : Node} (h : Alike n n')
    (hi : n.form.children[i]? = some below) :
    ∃ below', n'.form.children[i]? = some below' ∧ Alike below below' := by
  have hbelow : n.at? [i] = some below := by
    rw [at?_cons, hi]
    rfl
  obtain ⟨below', hbelow', halike⟩ := h.at? hbelow
  obtain ⟨_, hi', heq⟩ := Option.bind_eq_some_iff.1 hbelow'
  cases heq
  exact ⟨below', hi', halike⟩

theorem clearTo (h : Alike n n') (hclear : n.ClearTo p) : n'.ClearTo p := by
  intro q i rest m' hp hm'
  obtain ⟨m, hm, halike⟩ := h.symm.at? hm'
  have hfunction := hclear q i rest m hp hm
  rwa [← Form.isFunction_outline, halike.outline, Form.isFunction_outline] at hfunction

theorem symbol? (h : Alike n n') {s : Symbol} (hs : n.symbol? p = some s) :
    ∃ s', n'.symbol? p = some s' ∧ s'.role = s.role := by
  obtain ⟨line, hk⟩ := symbol?_eq_some_iff.1 hs
  obtain ⟨⟨line', form'⟩, hk', halike⟩ := h.at? hk
  have houtline := halike.outline
  cases form' with
  | symbol s' =>
    simp only [Node.form, Form.outline, Form.symbol.injEq, Symbol.mk.injEq] at houtline
    exact ⟨s', symbol?_eq_some_iff.2 ⟨line', hk'⟩, houtline.1⟩
  | _ => simp [Node.form, Form.outline, Form.label, Form.map] at houtline

theorem declares (h : Alike n n') (hdeclares : n.Declares p) : n'.Declares p := by
  obtain ⟨line', form'⟩ := n'
  cases hdeclares with
  | hoisted body inside found clear hoisted =>
    obtain ⟨child', hchild', hchild⟩ := h.child inside
    obtain ⟨m', hm', hm⟩ := hchild.at? found
    refine .hoisted ?_ hchild' hm' (hchild.clearTo clear) ?_
    · rw [← Form.isBody_outline] at body ⊢
      exact (congrArg _ h.outline).trans body
    · rwa [← Form.isHoisted_outline, ← hm.outline, Form.isHoisted_outline] at hoisted
  | @parameter _ kind name parameters body i inside =>
    have houtline := h.outline
    cases form' with
    | function kind' name' parameters' body' =>
      simp only [Node.form, Form.outline, Form.label, Form.map, Form.function.injEq] at houtline
      obtain ⟨-, hname, hparameters, -⟩ := houtline
      have hlength : name'.toList.length = name.toList.length := by
        cases name <;> cases name' <;> first | rfl | cases hname
      have hinside : i < parameters'.length := by
        have := congrArg List.length hparameters
        simp only [List.length_map] at this
        omega
      exact hlength ▸ .parameter hinside
    | symbol => cases houtline
    | _ => simp [Node.form, Form.outline, Form.label, Form.map] at houtline
  | @ownName _ name parameters body =>
    have houtline := h.outline
    cases form' with
    | function kind' name' parameters' body' =>
      simp only [Node.form, Form.outline, Form.label, Form.map, Form.function.injEq] at houtline
      obtain ⟨rfl, hname, -⟩ := houtline
      cases name' with
      | none => cases hname
      | some name' => exact .ownName
    | _ => simp [Node.form, Form.outline, Form.label, Form.map] at houtline
  | @caught _ name body =>
    have houtline := h.outline
    cases form' with
    | handler name' body' => exact .caught
    | _ => simp [Node.form, Form.outline, Form.label, Form.map] at houtline

end Alike

theorem alike_mapSymbols {f : Symbol → Symbol} (hf : ∀ s, (f s).role = s.role) (n : Node) :
    Alike n (n.mapSymbols f) := by
  intro p
  rw [at?_mapSymbols, Option.map_map]
  refine congrArg (Option.map · _) (funext fun m => ?_)
  obtain ⟨line, form⟩ := m
  by_cases hs : ∃ s, form = .symbol s
  · obtain ⟨s, rfl⟩ := hs
    rw [Function.comp_apply, mapSymbols_symbol, Node.form, Form.outline, hf]
    rfl
  · rw [Function.comp_apply, mapSymbols_mk f line fun s heq => hs ⟨s, heq⟩]
    exact Form.outline_map ..

end Node

namespace Scope

theorem alike_resolveIn (n : Node) (frames : List Frame) (address : List Nat) :
    Node.Alike n (resolveIn n frames address) := by
  intro p
  rw [at?_resolveIn, Option.map_map]
  refine congrArg (Option.map · _) (funext fun m => ?_)
  rw [Function.comp_apply]
  obtain ⟨line, s, rfl, heq⟩ | ⟨-, -, hlabel⟩ := label_resolveIn m _ _
  · rw [heq]
    rfl
  · rw [← Form.outline_label, hlabel, Form.outline_label]

variable {t t' : Node} {p q : List Nat}

theorem encloses_of_alike (h : Node.Alike t t') (henclose : Encloses t q p) : Encloses t' q p := by
  obtain ⟨⟨n, hn, hopens⟩, hp⟩ := henclose
  obtain ⟨n', hn', halike⟩ := h.at? hn
  exact ⟨⟨n', hn', by
    rwa [← Form.opensScope_outline, halike.outline, Form.opensScope_outline]⟩, hp⟩

theorem declares_of_alike (h : Node.Alike t t') (hdeclares : Declares t q p) : Declares t' q p := by
  obtain ⟨n, r, hn, hp, hdeclares⟩ := hdeclares
  obtain ⟨n', hn', halike⟩ := h.at? hn
  exact ⟨n', r, hn', hp, halike.declares hdeclares⟩

theorem addressAt_of_alike (h : Node.Alike t t') {m : Node} (hm : t.at? p = some m) :
    addressAt t' p = addressAt t p := by
  induction p generalizing t t' with
  | nil => rfl
  | cons i p ih =>
    obtain ⟨child, hchild, hm⟩ := Option.bind_eq_some_iff.1 hm
    obtain ⟨child', hchild', halike⟩ := h.child hchild
    obtain ⟨slot, hslot⟩ := Form.getElem?_enumerate hchild
    obtain ⟨slot', hslot'⟩ := Form.getElem?_enumerate hchild'
    have hslots : t'.form.enumerate.children.map Prod.fst =
        t.form.enumerate.children.map Prod.fst := by
      rw [← Form.slots_outline, h.outline, Form.slots_outline]
    have hi := congrArg (·[i]?) hslots
    simp only [List.getElem?_map] at hi
    rw [hslot', hslot] at hi
    obtain rfl : slot' = slot := Option.some.inj hi
    rw [addressAt_cons hslot', addressAt_cons hslot, ih halike hm]

/-! ## Renamings -/

/-- A tree with other names: the names of one definition stay equal, and names become equal only if
they were. -/
structure Renames (t t' : Node) : Prop where
  alike : Node.Alike t t'
  keeps : ∀ {p q s u s' u' home}, t.symbol? p = some s → t.symbol? q = some u →
    t'.symbol? p = some s' → t'.symbol? q = some u' → HasHome t p home → HasHome t q home →
    s.name = u.name → s'.name = u'.name
  separates : ∀ {p q s u s' u'}, t.symbol? p = some s → t.symbol? q = some u →
    t'.symbol? p = some s' → t'.symbol? q = some u' → s'.name = u'.name → s.name = u.name

namespace Renames

theorem declaresName_of_new (h : Renames t t') {s s' : Symbol} (hs : t.symbol? p = some s)
    (hs' : t'.symbol? p = some s') (hdeclares : DeclaresName t' q s'.name) :
    DeclaresName t q s.name := by
  obtain ⟨p₁, u', hu, hu', hname⟩ := hdeclares
  obtain ⟨u, hold, -⟩ := h.alike.symm.symbol? hu'
  exact ⟨p₁, u, declares_of_alike h.alike.symm hu, hold, h.separates hold hs hu' hs' hname⟩

theorem hasHome (h : Renames t t') {home : Option (List Nat)} (hhome : HasHome t p home) :
    HasHome t' p home := by
  cases hhome with
  | declared hdeclares => exact .declared (declares_of_alike h.alike hdeclares)
  | @bound q s hs hrole henclose hdeclares hinnermost =>
    obtain ⟨s', hs', hrole'⟩ := h.alike.symbol? hs
    obtain ⟨p₁, u, hu, hold, hname⟩ := id hdeclares
    obtain ⟨u', hu', -⟩ := h.alike.symbol? hold
    refine .bound hs' (hrole'.trans hrole) (encloses_of_alike h.alike henclose)
      ⟨p₁, u', declares_of_alike h.alike hu, hu', ?_⟩ fun r henclose' hdeclares' => ?_
    · exact h.keeps hold hs hu' hs' (.declared hu)
        (.bound hs hrole henclose hdeclares hinnermost) hname
    · exact hinnermost r (encloses_of_alike h.alike.symm henclose')
        (h.declaresName_of_new hs hs' hdeclares')
  | @free s hs hrole hundeclared =>
    obtain ⟨s', hs', hrole'⟩ := h.alike.symbol? hs
    exact .free hs' (hrole'.trans hrole) fun r henclose' hdeclares' =>
      hundeclared r (encloses_of_alike h.alike.symm henclose')
        (h.declaresName_of_new hs hs' hdeclares')

theorem homeAt_eq (h : Renames t t') {home : Option (List Nat)} (hhome : HasHome t p home) :
    homeAt t' home = homeAt t home := by
  cases home with
  | none => rfl
  | some q =>
    obtain ⟨m, hm⟩ := exists_at?_of_hasHome hhome
    rw [homeAt, homeAt, addressAt_of_alike h.alike hm]

end Renames

/-- New names for some of the definitions of a program: distinct ones that no name of the program has. -/
structure IsFresh (chosen : Home → String → Option String) (resolved : Node) : Prop where
  distinct : ∀ d ∈ definitions resolved, ∀ e ∈ definitions resolved, ∀ name,
    chosen d.home d.name = some name → chosen e.home e.name = some name → d = e
  fresh : ∀ d ∈ definitions resolved, ∀ name, chosen d.home d.name = some name →
    ∀ p s, resolved.symbol? p = some s → s.name ≠ name

/-- The bindings of a program and of the same program under other names: every name has the same home,
and two names belong to one definition in both or in none. -/
structure SameBindings (resolved new : Node) : Prop where
  homes : ∀ p, (new.symbol? p).map (·.home) = (resolved.symbol? p).map (·.home)
  shares : ∀ p q s u s' u', resolved.symbol? p = some s → resolved.symbol? q = some u →
    new.symbol? p = some s' → new.symbol? q = some u' →
    (definition? s' = definition? u' ↔ definition? s = definition? u)

theorem Renames.sameBindings {P Q : Form Node → Prop} {resolved new : Node} (h : Renames t t')
    (ht : Shaped P .program t) (ht' : Shaped Q .program t') (hr : t.resolve = .ok resolved)
    (hr' : t'.resolve = .ok new) : SameBindings resolved new := by
  have hboth : ∀ {p s}, t.symbol? p = some s → ∃ s' home, t'.symbol? p = some s' ∧
      HasHome t p home ∧ resolved.symbol? p = some { s with home := some (homeAt t home) } ∧
      new.symbol? p = some { s' with home := some (homeAt t home) } := by
    intro p s hs
    obtain ⟨s', hs', -⟩ := h.alike.symbol? hs
    obtain ⟨home, hhome⟩ := exists_hasHome ht hs
    refine ⟨s', home, hs', hhome, symbol?_of_hasHome ht hr hs hhome, ?_⟩
    rw [symbol?_of_hasHome ht' hr' hs' (h.hasHome hhome), h.homeAt_eq hhome]
  have hold : ∀ {p u}, resolved.symbol? p = some u → ∃ s, t.symbol? p = some s := by
    intro p u hu
    rw [symbol?_resolve ht hr] at hu
    obtain ⟨s, hs, -⟩ := Option.map_eq_some_iff.1 hu
    exact ⟨s, hs⟩
  refine ⟨fun p => ?_, fun p q s u s' u' hs hu hs' hu' => ?_⟩
  · cases hs : t.symbol? p with
    | some s =>
      obtain ⟨s', home, -, -, hresolved, hnew⟩ := hboth hs
      rw [hresolved, hnew]
      rfl
    | none =>
      have hs' : t'.symbol? p = none := by
        by_contra hne
        obtain ⟨s', hs'⟩ := Option.ne_none_iff_exists'.1 hne
        obtain ⟨s, hs₀, -⟩ := h.alike.symm.symbol? hs'
        rw [hs] at hs₀
        cases hs₀
      rw [symbol?_resolve ht hr, symbol?_resolve ht' hr', hs, hs']
      rfl
  · obtain ⟨s₀, hs₀⟩ := hold hs
    obtain ⟨u₀, hu₀⟩ := hold hu
    obtain ⟨s₁, home, hs₁, hhome, hsr, hsn⟩ := hboth hs₀
    obtain ⟨u₁, home', hu₁, hhome', hur, hun⟩ := hboth hu₀
    cases hs.symm.trans hsr
    cases hu.symm.trans hur
    cases hs'.symm.trans hsn
    cases hu'.symm.trans hun
    simp only [definition?, Option.map_some, Option.some.injEq, Definition.mk.injEq]
    constructor
    · rintro ⟨hhomes, hname⟩
      exact ⟨hhomes, h.separates hs₀ hu₀ hs₁ hu₁ hname⟩
    · rintro ⟨hhomes, hname⟩
      cases homeAt_inj hhome hhome' hhomes
      exact ⟨rfl, h.keeps hs₀ hu₀ hs₁ hu₁ hhome hhome' hname⟩

/-! ## Names that are shown -/

/-- The text under which a definition is shown. -/
def shownName (chosen : Home → String → Option String) (d : Definition) : String :=
  match chosen d.home d.name with
  | some shown => if shown = "" then d.name else shown
  | none => d.name

/-- Two definitions that are shown under one text have one name. -/
theorem IsFresh.name_eq {chosen : Home → String → Option String} {resolved : Node}
    (h : IsFresh chosen resolved) {d e : Definition} (hd : d ∈ definitions resolved)
    (he : e ∈ definitions resolved) (heq : shownName chosen d = shownName chosen e) :
    d.name = e.name := by
  have hnames : ∀ {d}, d ∈ definitions resolved → ∃ p s, resolved.symbol? p = some s ∧
      s.name = d.name := by
    intro d hd
    obtain ⟨p, s, hs, hdefinition⟩ := mem_definitions_iff.1 hd
    obtain ⟨home, -, rfl⟩ := Option.map_eq_some_iff.1 hdefinition
    exact ⟨p, s, hs, rfl⟩
  obtain ⟨p, s, hs, hsname⟩ := hnames hd
  obtain ⟨q, u, hu, huname⟩ := hnames he
  unfold shownName at heq
  cases hcd : chosen d.home d.name with
  | none =>
    cases hce : chosen e.home e.name with
    | none => simpa [hcd, hce] using heq
    | some e' =>
      simp only [hcd, hce] at heq
      split_ifs at heq
      · exact heq
      · exact absurd (hsname.trans heq) (h.fresh e he e' hce p s hs)
  | some d' =>
    cases hce : chosen e.home e.name with
    | none =>
      simp only [hcd, hce] at heq
      split_ifs at heq
      · exact heq
      · exact absurd (huname.trans heq.symm) (h.fresh d hd d' hcd q u hu)
    | some e' =>
      simp only [hcd, hce] at heq
      split_ifs at heq
      · exact heq
      · exact absurd (hsname.trans heq) (h.fresh e he e' hce p s hs)
      · exact absurd (huname.trans heq.symm) (h.fresh d hd d' hcd q u hu)
      · subst heq
        rw [h.distinct d hd e he d' hcd hce]

variable {resolved : Node} {chosen : Home → String → Option String}

theorem shownAs_of_readAs (ht : ReadAs .program t) {s : Symbol} (hs : t.symbol? p = some s) :
    s.shownAs = none := by
  obtain ⟨line, hk⟩ := Node.symbol?_eq_some_iff.1 hs
  obtain ⟨c, hshaped⟩ := ht.of_mem_preorder (Node.mem_preorder_of_at? hk)
  exact hshaped.own.2

/-- A program as it is shown, no longer resolved. -/
def asShown (chosen : Home → String → Option String) (resolved : Node) : Node :=
  (resolved.showAs chosen).mapSymbols Symbol.shown

theorem symbol?_asShown (ht : ReadAs .program t) (hr : t.resolve = .ok resolved) {s : Symbol}
    (hs : t.symbol? p = some s) {home : Option (List Nat)} (hhome : HasHome t p home) :
    (asShown chosen resolved).symbol? p =
      some { role := s.role, name := shownName chosen ⟨homeAt t home, s.name⟩ } := by
  rw [asShown, Node.showAs, Node.symbol?_mapSymbols, Node.symbol?_mapSymbols,
    symbol?_of_hasHome ht hr hs hhome, Option.map_some, Option.map_some]
  simp only [Option.bind_some, Symbol.shown, Symbol.display, shownName]
  cases chosen (homeAt t home) s.name with
  | some name => rfl
  | none => rw [shownAs_of_readAs ht hs]

theorem renames_asShown (ht : ReadAs .program t) (hr : t.resolve = .ok resolved)
    (hfresh : IsFresh chosen resolved) : Renames t (asShown chosen resolved) := by
  -- the definition of a name is listed, and the name is shown under the text of its definition
  have hlisted : ∀ {p s s'}, t.symbol? p = some s → (asShown chosen resolved).symbol? p = some s' →
      ∃ home, HasHome t p home ∧ ⟨homeAt t home, s.name⟩ ∈ definitions resolved ∧
        s' = { role := s.role, name := shownName chosen ⟨homeAt t home, s.name⟩ } := by
    intro p s s' hs hs'
    obtain ⟨home, hhome⟩ := exists_hasHome ht hs
    rw [symbol?_asShown ht hr hs hhome] at hs'
    exact ⟨home, hhome, ((lexicallyScoped ht hr).definitions.2 _).2 ⟨p, s, home, hs, hhome, rfl⟩,
      (Option.some.inj hs').symm⟩
  refine ⟨?_, ?_, ?_⟩
  · have hchosen : Node.Alike resolved (resolved.showAs chosen) :=
      Node.alike_mapSymbols (fun s => by split <;> rfl) resolved
    have hshown : Node.Alike (resolved.showAs chosen) (asShown chosen resolved) :=
      Node.alike_mapSymbols (f := Symbol.shown) (fun _ => rfl) _
    have hresolved := alike_resolveIn t [scopeFrame t.form []] []
    rw [← resolve_eq_resolveIn ht hr] at hresolved
    exact (hresolved.trans hchosen).trans hshown
  · intro p q s u s' u' home hs hu hs' hu' hhome hhome' hname
    rw [symbol?_asShown ht hr hs hhome] at hs'
    rw [symbol?_asShown ht hr hu hhome'] at hu'
    cases hs'
    cases hu'
    rw [hname]
  · intro p q s u s' u' hs hu hs' hu' hname
    obtain ⟨home, -, hd, rfl⟩ := hlisted hs hs'
    obtain ⟨home', -, he, rfl⟩ := hlisted hu hu'
    exact hfresh.name_eq hd he hname

theorem shaped_asShown (ht : ReadAs .program t) (hr : t.resolve = .ok resolved) :
    Shaped (fun _ => True) .program (asShown chosen resolved) := by
  rw [resolve_eq_resolveIn ht hr]
  refine Node.shaped_mapSymbols (fun s => rfl) (Node.shaped_mapSymbols (fun s => ?_)
    (shaped_resolveIn ht _ _))
  split <;> rfl

end Scope

/-- A program that is shown under distinct new names, and read as it is shown, has the same bindings. -/
theorem sameBindings_showAs {t resolved : Node} {chosen : Home → String → Option String}
    (ht : ReadAs .program t) (hr : t.resolve = .ok resolved)
    (hfresh : Scope.IsFresh chosen resolved) :
    ∃ new, ((resolved.showAs chosen).mapSymbols Symbol.shown).resolve = .ok new ∧
      Scope.SameBindings resolved new := by
  have hshown : Shaped (fun _ => True) .program (Scope.asShown chosen resolved) :=
    Scope.shaped_asShown ht hr
  obtain ⟨new, hnew, -⟩ := exists_resolve hshown
  exact ⟨new, hnew, (Scope.renames_asShown ht hr hfresh).sameBindings ht hshown hr hnew⟩

/-- New names for a parameter, for what a handler catches and for a name that is not declared. -/
def newNames : Home → String → Option String
  | .scope [0, 0, 1], "x" => some "a"
  | .scope [0, 0, 1, 2, 0], "x" => some "b"
  | .free, "y" => some "c"
  | _, _ => none

theorem definitions_shadowed :
    ((parse unnamedFile shadowed).result.toOption.bind fun t =>
      t.resolve.toOption.map Scope.definitions) =
      some [⟨.scope [], "f"⟩, ⟨.scope [0, 0, 1], "g"⟩, ⟨.scope [0, 0, 1], "x"⟩, ⟨.free, "y"⟩,
        ⟨.scope [0, 0, 1, 2, 0], "x"⟩] := by
  obtain ⟨t, ht, hsymbols⟩ := Option.bind_eq_some_iff.1 homes_shadowed
  obtain ⟨resolved, hr, hsymbols⟩ := Option.map_eq_some_iff.1 hsymbols
  have hdefinitions : Scope.definitions resolved =
      (((Scope.symbols resolved).map fun s => (s.1.name, s.1.role, s.1.home)).filterMap
        fun s => s.2.2.map fun home => Scope.Definition.mk home s.1).eraseDups := by
    rw [Scope.definitions, List.filterMap_map]
    exact congrArg List.eraseDups (List.filterMap_congr fun _ _ => rfl)
  rw [ht, Option.bind_some, hr, Option.map_some, hdefinitions, hsymbols]
  decide

theorem sameBindings_showAs_shadowed :
    ∃ t resolved new, (parse unnamedFile shadowed).result = .ok t ∧ t.resolve = .ok resolved ∧
      Scope.IsFresh newNames resolved ∧
      ((resolved.showAs newNames).mapSymbols Symbol.shown).resolve = .ok new ∧
      Scope.SameBindings resolved new := by
  obtain ⟨t, ht, hdefinitions⟩ := Option.bind_eq_some_iff.1 definitions_shadowed
  obtain ⟨resolved, hr, hdefinitions⟩ := Option.map_eq_some_iff.1 hdefinitions
  have hread := shaped_of_parse (eq_ok_of_toOption ht)
  have hresolve := eq_ok_of_toOption hr
  have hfresh : Scope.IsFresh newNames resolved := by
    constructor
    · have hdistinct : ∀ d ∈ Scope.definitions resolved, ∀ e ∈ Scope.definitions resolved,
          newNames d.home d.name = newNames e.home e.name → newNames d.home d.name ≠ none → d = e := by
        rw [hdefinitions]
        decide
      intro d hd e he name hdname hename
      exact hdistinct d hd e he (hdname.trans hename.symm) (by rw [hdname]; nofun)
    · have hnew : ∀ d ∈ Scope.definitions resolved, ∀ e ∈ Scope.definitions resolved,
          newNames d.home d.name ≠ some e.name := by
        rw [hdefinitions]
        decide
      intro d hd name hname p s hs heq
      rw [Scope.symbol?_resolve hread hresolve] at hs
      obtain ⟨u, hu, rfl⟩ := Option.map_eq_some_iff.1 hs
      have hlisted := Scope.mem_definitions_iff.2 ⟨p, _, by
        rw [Scope.symbol?_resolve hread hresolve, hu, Option.map_some], rfl⟩
      exact hnew d hd _ hlisted (hname.trans (congrArg some heq.symm))
  obtain ⟨new, hnew, hsame⟩ := sameBindings_showAs hread hresolve hfresh
  exact ⟨t, resolved, new, eq_ok_of_toOption ht, hresolve, hfresh, hnew, hsame⟩

end Debundle
