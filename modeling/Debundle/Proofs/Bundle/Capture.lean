import Debundle.Proofs.Bundle.Functions
import Debundle.Proofs.Scope.Respelling

/-!
# Names that are captured

The parameters of a module function are shown under other names, whatever else has these names in
the function. Among the names that are not bound to a parameter, this changes nothing: two of them
have one definition in the module's program if they have one in the function (`keepsOthers`). A
parameter is captured by a definition of its new name around a place where it is used, and a free
name is captured by a parameter.
-/
namespace Debundle

/-- The names that the scopes around a position of a program declare. -/
def Scope.namesAround (body : List Node) (p : List Nat) : List String :=
  (contextAt (.mk none (.program body)) [programFrame body] [] p).1.flatMap Frame.names

namespace ModuleRecord

/-- The statements of a module function, with every name as it is shown. -/
def respelled (function : Node) : List Node :=
  (unwrap function).map (Node.mapSymbols Symbol.shown)

theorem ne_empty_of_wrapperNames {i : Nat} {shown : String} (h : wrapperNames[i]? = some shown) :
    shown ≠ "" := by
  have hall : ∀ name ∈ wrapperNames, name ≠ "" := by decide
  exact hall shown (List.mem_of_getElem? h)

theorem display_eq {function : Node} {s : Symbol}
    (h : s.shownAs = s.home.bind (shownAs function · s.name)) :
    s.display = ((s.home.bind (shownAs function · s.name)).getD s.name) := by
  rw [Symbol.display, h]
  cases hshown : s.home.bind (shownAs function · s.name) with
  | none => rfl
  | some shown =>
    obtain ⟨home, -, hshown⟩ := Option.bind_eq_some_iff.1 hshown
    obtain ⟨i, -, -, hname, -⟩ := shownAs_eq_some_iff.1 hshown
    exact if_neg (ne_empty_of_wrapperNames hname)

end ModuleRecord

namespace ScopedFunction

variable (F : ScopedFunction)

/-- How the names of a home are spelled in the program of the module. -/
def spelled (home : Home) (name : String) : String :=
  (ModuleRecord.shownAs F.node home name).getD name

theorem above_statement (i : Nat) : Scope.Above (F.frame :: F.frames) (F.addressOf i) := by
  intro frame hframe
  rw [addressOf, List.length_append, List.length_singleton]
  obtain rfl | hframe := List.mem_cons.1 hframe
  · exact Nat.lt_succ_self _
  · exact Nat.lt_succ_of_lt (F.above frame hframe)

theorem respelled_node : ModuleRecord.respelled F.node = F.body.mapIdx fun i n =>
    Scope.respell F.spelled n (F.frame :: F.frames) (F.addressOf i) := by
  refine List.ext_getElem? fun i => ?_
  rw [ModuleRecord.respelled, ModuleRecord.unwrap, statements_node, List.getElem?_map,
    List.getElem?_map, List.getElem?_mapIdx, List.getElem?_mapIdx]
  cases hn : F.body[i]? with
  | none => rfl
  | some n =>
    refine congrArg some (Node.mapSymbols_mapSymbols fun line s hs => ?_)
    obtain ⟨m, hm, frames, address, -, heq⟩ :=
      Scope.exists_of_mem_preorder_resolveIn (F.above_statement i) hs
    obtain ⟨c, hread⟩ := (F.bodyRead n (List.mem_of_getElem? hn)).of_mem_preorder hm
    obtain ⟨s₀, rfl, hs₀⟩ := Scope.eq_symbol_of_resolveIn heq.symm
    have hnone : s.shownAs = none := by rw [hs₀]; exact hread.own.2
    have hhome : s.home = some (Scope.symbolHome frames s₀) := by rw [hs₀]
    refine (congrArg Symbol.shown (Node.showAs_eq hnone)).trans ?_
    rw [Symbol.shown, ModuleRecord.display_eq rfl, Scope.respelling, hhome]
    rfl

theorem home_of_shownAs {home : Home} {name shown : String}
    (h : ModuleRecord.shownAs F.node home name = some shown) : home = .scope F.address := by
  obtain ⟨i, s, hs, -, hhome, -⟩ := ModuleRecord.shownAs_eq_some_iff.1 h
  exact Option.some.inj (hhome.symm.trans (F.home_of_parameter? hs))

theorem spelled_addressOf (i : Nat) (q : List Nat) (name : String) :
    F.spelled (.scope (F.addressOf i ++ q)) name = name := by
  unfold spelled
  cases h : ModuleRecord.shownAs F.node (.scope (F.addressOf i ++ q)) name with
  | none => rfl
  | some shown =>
    have hlength := congrArg List.length (Home.scope.inj (F.home_of_shownAs h))
    simp only [addressOf, List.length_append, List.length_singleton] at hlength
    omega

theorem shaped_respelled {n : Node} (hn : n ∈ ModuleRecord.respelled F.node) :
    Shaped (fun _ => True) .statement n := by
  rw [respelled_node] at hn
  obtain ⟨i, hi, rfl⟩ := List.mem_mapIdx.1 hn
  exact Node.shaped_mapSymbols (fun _ => rfl)
    (Scope.shaped_resolveIn (F.bodyRead _ (List.getElem_mem hi)) _ _)

/-- The program of the module with its names resolved. -/
def program : Node :=
  .mk none (.program (Scope.resolveBody (ModuleRecord.respelled F.node)))

theorem resolve_respelled :
    (Node.mk none (.program (ModuleRecord.respelled F.node))).resolve = .ok F.program := by
  simp only [Node.resolve, Scope.body?, bind, Except.bind,
    Scope.fault?_of_shaped fun n hn => F.shaped_respelled hn]
  rfl

theorem exists_inner {p : List Nat} {s : Symbol}
    (hs : (Node.mk none (.program (ModuleRecord.unwrap F.node))).symbol? p = some s) :
    ∃ (i : Nat) (inner : List Scope.Frame),
      s.home = some (Scope.symbolHome
        (inner.map (Scope.Frame.under (F.addressOf i)) ++ F.frame :: F.frames) s) ∧
      s.shownAs = s.home.bind (ModuleRecord.shownAs F.node · s.name) ∧
      (Scope.contextAt (.mk none (.program (ModuleRecord.respelled F.node)))
        [Scope.programFrame (ModuleRecord.respelled F.node)] [] p).1 =
          inner.map (Scope.Frame.under [i]) ++ [Scope.programFrame (ModuleRecord.respelled F.node)] ∧
      (s.role ≠ .reference → Scope.innerHome? inner s = none →
        s.role ≠ .caught ∧ s.name ∈ F.body.flatMap Scope.declared) := by
  obtain ⟨line, hs⟩ := Node.symbol?_eq_some_iff.1 hs
  obtain ⟨i, rest, n, s₀, rfl, hn, hm, hrole₀, hname₀, hhome, hshown⟩ := F.exists_of_symbol hs
  have hread := F.bodyRead n (List.mem_of_getElem? hn)
  have hsame : ∀ frames, Scope.symbolHome frames s₀ = Scope.symbolHome frames s := fun frames => by
    simp only [Scope.symbolHome, hrole₀, hname₀]
  have houter := Scope.contextAt_under n [] (F.frame :: F.frames) (F.addressOf i) [] rest
  rw [List.map_nil, List.nil_append, List.append_nil] at houter
  refine ⟨i, (Scope.contextAt n [] [] rest).1, ?_, hshown, ?_, fun hrole hinner => ?_⟩
  · rw [hhome, houter, hsame]
  · have hn' : (ModuleRecord.respelled F.node)[i]? =
        some (Scope.respell F.spelled n (F.frame :: F.frames) (F.addressOf i)) := by
      rw [respelled_node, List.getElem?_mapIdx, hn]
      rfl
    have hinner := Scope.contextAt_under n []
      [Scope.programFrame (ModuleRecord.respelled F.node)] [i] [] rest
    rw [List.map_nil, List.nil_append, List.append_nil] at hinner
    rw [Scope.contextAt_program _ _ _ i rest hn', Scope.contextAt_respell hread (F.spelled_addressOf i),
      hinner]
  · have hrest : rest ≠ [] := by
      rintro rfl
      cases hm
      cases hread.fits
    rw [Scope.innerHome?, hrole₀, hname₀] at hinner
    rw [hrole₀] at hrole ⊢
    rw [hname₀]
    obtain ⟨hcaught, hmem⟩ := Scope.mem_declared_of_innerHome? hread hm hrest hrole hinner
    exact ⟨hcaught, List.mem_flatMap.2 ⟨n, List.mem_of_getElem? hn, hmem⟩⟩

theorem symbol?_program {p : List Nat} {s : Symbol}
    (hs : (Node.mk none (.program (ModuleRecord.unwrap F.node))).symbol? p = some s) :
    F.program.symbol? p = some { s.shown with home := some (Scope.symbolHome
      (Scope.contextAt (.mk none (.program (ModuleRecord.respelled F.node)))
        [Scope.programFrame (ModuleRecord.respelled F.node)] [] p).1 s.shown) } := by
  obtain ⟨line, hs⟩ := Node.symbol?_eq_some_iff.1 hs
  have hshown : (Node.mk none (.program (ModuleRecord.respelled F.node))).at? p =
      some (.mk line (.symbol s.shown)) := by
    have hmap : Node.mk none (.program (ModuleRecord.respelled F.node)) =
        (Node.mk none (.program (ModuleRecord.unwrap F.node))).mapSymbols Symbol.shown := by
      have hform : ∀ s, Form.program (ModuleRecord.unwrap F.node) ≠ .symbol s := nofun
      rw [Node.mapSymbols_mk _ _ hform]
      rfl
    rw [hmap, Node.at?_mapSymbols, hs, Option.map_some, Node.mapSymbols_symbol]
  refine Node.symbol?_eq_some_iff.2 ⟨line, ?_⟩
  rw [program, ← Scope.resolveIn_program, Scope.at?_resolveIn, hshown, Option.map_some,
    Scope.resolveIn_symbol]

end ScopedFunction

/-! ## Captured names -/

namespace ModuleRecord

/-- A name has the definition of a parameter that modules know by a name. -/
def IsBound (function : Node) (s : Symbol) : Prop :=
  ∃ i w, i < wrapperNames.length ∧ parameter? function i = some w ∧
    Scope.definition? s = Scope.definition? w

/-- Names that are not bound to a parameter share a definition in the program `new` of a module
exactly if they do so in the module function. -/
def KeepsOthers (function new : Node) : Prop :=
  ∀ p q s u, (Node.mk none (.program (unwrap function))).symbol? p = some s →
    (Node.mk none (.program (unwrap function))).symbol? q = some u →
    ¬ IsBound function s → ¬ IsBound function u →
    ((new.symbol? p).bind Scope.definition? = (new.symbol? q).bind Scope.definition? ↔
      Scope.definition? s = Scope.definition? u)

/-- In the program `new` of a module, a name refers to a parameter's global name exactly if it
refers to the parameter in the module function, and otherwise names are related as before. -/
structure CapturesNothing (function new : Node) : Prop where
  linked : ∀ p s i w name, (Node.mk none (.program (unwrap function))).symbol? p = some s →
    s.role = .reference → parameter? function i = some w → wrapperNames[i]? = some name →
    Scope.definition? s = Scope.definition? w →
    (new.symbol? p).bind Scope.definition? = some ⟨.free, name⟩
  apart : ∀ p s i w name, (Node.mk none (.program (unwrap function))).symbol? p = some s →
    s.role = .reference → parameter? function i = some w → wrapperNames[i]? = some name →
    ¬ IsBound function s → (new.symbol? p).bind Scope.definition? ≠ some ⟨.free, name⟩
  others : KeepsOthers function new

/-- The parameters that modules know by a name have different names in the function. -/
def HasDistinctParameters (function : Node) : Prop :=
  ∀ i j v w, i < wrapperNames.length → j < wrapperNames.length → parameter? function i = some v →
    parameter? function j = some w → v.name = w.name → i = j

end ModuleRecord

namespace ScopedFunction

open ModuleRecord

variable (F : ScopedFunction) {p : List Nat} {s : Symbol}

theorem definition?_program
    (hs : (Node.mk none (.program (unwrap F.node))).symbol? p = some s) :
    (F.program.symbol? p).bind Scope.definition? = some ⟨Scope.symbolHome
      (Scope.contextAt (.mk none (.program (respelled F.node)))
        [Scope.programFrame (respelled F.node)] [] p).1 s.shown, s.display⟩ := by
  rw [F.symbol?_program hs]
  rfl

theorem display_of_not_isBound
    (hs : (Node.mk none (.program (unwrap F.node))).symbol? p = some s)
    (hbound : ¬ IsBound F.node s) : s.display = s.name := by
  obtain ⟨i, inner, hhome, hshown, -⟩ := F.exists_inner hs
  rw [display_eq hshown]
  cases hchosen : s.home.bind (shownAs F.node · s.name) with
  | none => rfl
  | some name =>
    obtain ⟨home, hhome', hchosen⟩ := Option.bind_eq_some_iff.1 hchosen
    obtain ⟨j, w, hw, hname, hwhome, hwname, -⟩ := shownAs_eq_some_iff.1 hchosen
    refine absurd ⟨j, w, (List.getElem?_eq_some_iff.1 hname).1, hw, ?_⟩ hbound
    rw [Scope.definition?, Scope.definition?, hhome', hwhome, hwname]

theorem mem_programNames {name : String} (h : name ∈ F.body.flatMap Scope.declared) :
    F.spelled (.scope F.address) name ∈ Scope.programNames (respelled F.node) := by
  obtain ⟨n, hn, hname⟩ := List.mem_flatMap.1 h
  obtain ⟨i, hi⟩ := List.mem_iff_getElem?.1 hn
  have hn' : Scope.respell F.spelled n (F.frame :: F.frames) (F.addressOf i) ∈ respelled F.node := by
    rw [respelled_node]
    exact List.mem_of_getElem? (by rw [List.getElem?_mapIdx, hi]; rfl)
  rw [Scope.programNames, List.mem_eraseDups, List.mem_flatMap]
  refine ⟨_, hn', ?_⟩
  rw [Scope.declared_respell (F.bodyRead n hn)]
  exact List.mem_map_of_mem hname

/-- A name that is not bound to a parameter has its home inside of a statement, there and in the
program, or it is declared around the statements, if at all. -/
theorem definition_cases (hs : (Node.mk none (.program (unwrap F.node))).symbol? p = some s)
    (hbound : ¬ IsBound F.node s) :
    (∃ i q, Scope.definition? s = some ⟨.scope (F.addressOf i ++ q), s.name⟩ ∧
      (F.program.symbol? p).bind Scope.definition? = some ⟨.scope (i :: q), s.name⟩) ∨
    Scope.definition? s = some ⟨Scope.homeOf (F.frame :: F.frames) s.name, s.name⟩ ∧
      (F.program.symbol? p).bind Scope.definition? =
        some ⟨Scope.homeOf [Scope.programFrame (respelled F.node)] s.name, s.name⟩ := by
  obtain ⟨i, inner, hhome, hshown, hcontext, hdeclared⟩ := F.exists_inner hs
  have hdisplay := F.display_of_not_isBound hs hbound
  have hnew := F.definition?_program hs
  have hsame : Scope.innerHome? inner s.shown = Scope.innerHome? inner s := by
    simp only [Scope.innerHome?, Symbol.shown, hdisplay]
  rw [hcontext, Scope.symbolHome_under, hsame, hdisplay] at hnew
  rw [Scope.symbolHome_under] at hhome
  cases hinner : Scope.innerHome? inner s with
  | some frame =>
    rw [hinner] at hhome hnew
    exact .inl ⟨i, frame.address, by rw [Scope.definition?, hhome]; rfl, hnew⟩
  | none =>
    rw [hinner] at hhome hnew
    refine .inr ?_
    rw [Scope.definition?, hhome, hnew]
    by_cases hrole : s.role = .reference
    · have hshown : s.shown.role = .reference := hrole
      simp only [Scope.symbolHome, hrole, hshown]
      rw [Symbol.shown, hdisplay]
      exact ⟨rfl, rfl⟩
    · obtain ⟨hcaught, hmem⟩ := hdeclared hrole hinner
      have hfunction : Scope.symbolHome (F.frame :: F.frames) s = .scope F.address :=
        Scope.symbolHome_of_declared hrole hcaught _
      have hprogram : Scope.symbolHome [Scope.programFrame (respelled F.node)] s.shown = .scope [] :=
        Scope.symbolHome_of_declared (s := s.shown) hrole hcaught _
      have hframe : s.name ∈ F.frame.names := by
        rw [frame, Scope.functionFrame, Scope.functionNames, List.mem_eraseDups]
        exact List.mem_append_left _ (List.mem_append_right _ hmem)
      have hspelled : F.spelled (.scope F.address) s.name = s.name := by
        have heq := display_eq hshown
        rw [hdisplay, hhome] at heq
        simp only [hfunction] at heq
        exact heq.symm
      have htop : s.name ∈ (Scope.programFrame (respelled F.node)).names :=
        hspelled ▸ F.mem_programNames hmem
      simp only [hfunction, hprogram]
      rw [Scope.homeOf_of_mem hframe, Scope.homeOf_of_mem htop]
      exact ⟨rfl, rfl⟩

theorem length_le_of_homeOf {name : String} {address : List Nat}
    (h : Scope.homeOf (F.frame :: F.frames) name = .scope address) :
    address.length ≤ F.address.length := by
  unfold Scope.homeOf at h
  split at h
  · rename_i frame hframe
    cases h
    obtain rfl | hmem := List.mem_cons.1 (List.mem_of_find?_eq_some hframe)
    · exact Nat.le.refl
    · exact Nat.le_of_lt (F.above frame hmem)
  · cases h

theorem homeOf_programFrame (body : List Node) (name : String) (i : Nat) (q : List Nat) :
    Scope.homeOf [Scope.programFrame body] name ≠ .scope (i :: q) := by
  unfold Scope.homeOf
  split
  · rename_i frame hframe
    obtain rfl := List.mem_singleton.1 (List.mem_of_find?_eq_some hframe)
    nofun
  · nofun

theorem keepsOthers : KeepsOthers F.node F.program := by
  intro p q s u hs hu hbs hbu
  have hinside : ∀ i a name,
      Scope.homeOf (F.frame :: F.frames) name ≠ .scope (F.addressOf i ++ a) := by
    intro i a name h
    have hlength := F.length_le_of_homeOf h
    simp only [addressOf, List.length_append, List.length_singleton] at hlength
    omega
  obtain ⟨i, a, hold, hnew⟩ | ⟨hold, hnew⟩ := F.definition_cases hs hbs <;>
    obtain ⟨j, b, hold', hnew'⟩ | ⟨hold', hnew'⟩ := F.definition_cases hu hbu <;>
    rw [hold, hold', hnew, hnew', Option.some_inj, Option.some_inj, Scope.Definition.mk.injEq,
      Scope.Definition.mk.injEq]
  · simp [addressOf]
  · exact iff_of_false (fun h => homeOf_programFrame _ _ _ _ h.1.symm) fun h => hinside _ _ _ h.1.symm
  · exact iff_of_false (fun h => homeOf_programFrame _ _ _ _ h.1) fun h => hinside _ _ _ h.1
  · -- around the statements a name has one home
    exact ⟨fun h => ⟨by rw [h.2], h.2⟩, fun h => ⟨by rw [h.2], h.2⟩⟩

theorem display_of_parameter (hdistinct : HasDistinctParameters F.node)
    (hs : (Node.mk none (.program (unwrap F.node))).symbol? p = some s) {i : Nat} {w : Symbol}
    {name : String} (hw : parameter? F.node i = some w) (hname : wrapperNames[i]? = some name)
    (hdefinition : Scope.definition? s = Scope.definition? w) : s.display = name := by
  obtain ⟨-, -, -, hshown, -⟩ := F.exists_inner hs
  have hhome := F.home_of_parameter? hw
  rw [Scope.definition?, Scope.definition?, hhome] at hdefinition
  obtain ⟨home, hshome, hsame⟩ := Option.map_eq_some_iff.1 hdefinition
  obtain ⟨rfl, hsname⟩ := Scope.Definition.mk.inj hsame
  have hi := (List.getElem?_eq_some_iff.1 hname).1
  rw [display_eq hshown, hshome, hsname, Option.bind_some]
  by_cases heq : w.name = name
  · -- only another parameter of this name could be shown under another one
    cases hchosen : shownAs F.node (.scope F.address) w.name with
    | none => exact heq
    | some shown =>
      obtain ⟨j, v, hv, hj, -, hvname, hne, -⟩ := shownAs_eq_some_iff.1 hchosen
      obtain rfl := hdistinct j i v w (List.getElem?_eq_some_iff.1 hj).1 hi hv hw hvname
      exact absurd (heq.trans (Option.some.inj (hname.symm.trans hj))) hne
  · have hchosen : shownAs F.node (.scope F.address) w.name = some name := by
      refine shownAs_eq_some_iff.2
        ⟨i, w, hw, hname, hhome, rfl, heq, fun j hj v c hv hc _ hvname => ?_⟩
      have hjlt := (List.getElem?_eq_some_iff.1 hc).1
      exact absurd (hdistinct j i v w hjlt hi hv hw hvname) (Nat.ne_of_gt hj)
    rw [hchosen]
    rfl

/-- A reference becomes a global name if it is shown under the name and no scope around it declares
it. -/
theorem definition?_eq_free_iff (hs : (Node.mk none (.program (unwrap F.node))).symbol? p = some s)
    (hrole : s.role = .reference) (name : String) :
    (F.program.symbol? p).bind Scope.definition? = some ⟨.free, name⟩ ↔
      s.display = name ∧ name ∉ Scope.namesAround (respelled F.node) p := by
  rw [F.definition?_program hs, Option.some_inj, Scope.Definition.mk.injEq, and_comm]
  refine and_congr_right fun hdisplay => ?_
  have hshown : s.shown.role = .reference := hrole
  simp only [Scope.symbolHome, hshown]
  rw [Symbol.shown, hdisplay, Scope.homeOf_eq_free_iff]
  rfl

end ScopedFunction

namespace ModuleRecord

/-- Renaming the parameters of a function of a scoped program never changes how the other names are
related. It captures nothing exactly if no scope around a reference to a parameter declares the
name that modules know the parameter by, and every other reference of this name has a scope around
it that declares it. -/
theorem capturesNothing_respelled_iff {file : String} {text : String} {t resolved function : Node}
    {kind : FunctionKind} {own : Option Node} {parameters body : List Node}
    (hparse : (parse file text).result = .ok t) (hresolve : t.resolve = .ok resolved)
    (hmem : function ∈ resolved.preorder)
    (hform : function.form = .function kind own parameters body)
    (hdistinct : HasDistinctParameters function) :
    ∃ new, (Node.mk none (.program (respelled function))).resolve = .ok new ∧
      KeepsOthers function new ∧
      (CapturesNothing function new ↔
        ∀ p s i w name, (Node.mk none (.program (unwrap function))).symbol? p = some s →
          s.role = .reference → parameter? function i = some w → wrapperNames[i]? = some name →
          (Scope.definition? s = Scope.definition? w →
            name ∉ Scope.namesAround (respelled function) p) ∧
          (¬ IsBound function s → s.name = name →
            name ∈ Scope.namesAround (respelled function) p)) := by
  obtain ⟨F, -, rfl⟩ := exists_scopedFunction (shaped_of_parse hparse) hresolve hmem hform
  refine ⟨F.program, F.resolve_respelled, F.keepsOthers, fun h => ?_, fun h => ?_⟩
  · intro p s i w name hs hrole hw hname
    refine ⟨fun hdefinition => ?_, fun hbound hsname => ?_⟩
    · have hlinked := h.linked p s i w name hs hrole hw hname hdefinition
      exact ((F.definition?_eq_free_iff hs hrole name).1 hlinked).2
    · by_contra hfree
      refine h.apart p s i w name hs hrole hw hname hbound ?_
      refine (F.definition?_eq_free_iff hs hrole name).2 ⟨?_, hfree⟩
      rw [F.display_of_not_isBound hs hbound, hsname]
  · refine ⟨fun p s i w name hs hrole hw hname hdefinition => ?_,
      fun p s i w name hs hrole hw hname hbound hnew => ?_, F.keepsOthers⟩
    · refine (F.definition?_eq_free_iff hs hrole name).2 ⟨?_, ?_⟩
      · exact F.display_of_parameter hdistinct hs hw hname hdefinition
      · exact (h p s i w name hs hrole hw hname).1 hdefinition
    · obtain ⟨hdisplay, hfree⟩ := (F.definition?_eq_free_iff hs hrole name).1 hnew
      rw [F.display_of_not_isBound hs hbound] at hdisplay
      exact hfree ((h p s i w name hs hrole hw hname).2 hbound hdisplay)

/-- A function that calls its parameter with a free name. -/
def caller : String :=
  "(function(t)\x7bt(e)\x7d)"

theorem form_caller :
    ((parse unnamedFile caller).result.toOption.bind fun t => t.resolve.toOption.bind fun resolved =>
      (resolved.at? [0, 0]).bind fun function =>
      match function.form, unwrap function with
      | .function _ _ [.mk _ (.symbol w)] _,
        [.mk _ (.simple (.mk _ (.call (.mk _ (.symbol s)) [.mk _ (.symbol u)])))] =>
        some (w, s, u, Scope.namesAround (respelled function) [0, 0, 0])
      | _, _ => none) =
      some (⟨.parameter, "t", some (.scope [0, 0]), none⟩,
        ⟨.reference, "t", some (.scope [0, 0]), some "require"⟩,
        ⟨.reference, "e", some .free, none⟩, []) := by
  decide +kernel

theorem capturesNothing_respelled_caller :
    ∃ t resolved function new, (parse unnamedFile caller).result = .ok t ∧ t.resolve = .ok resolved ∧
      resolved.at? [0, 0] = some function ∧ HasDistinctParameters function ∧
      (Node.mk none (.program (respelled function))).resolve = .ok new ∧
      CapturesNothing function new := by
  have hcaller := form_caller
  simp only [Option.bind_eq_some_iff] at hcaller
  obtain ⟨t, ht, resolved, hr, function, hat, hparts⟩ := hcaller
  split at hparts
  case h_2 => cases hparts
  rename_i kind own _ w body _ _ _ s _ u hform hbody
  obtain ⟨rfl, rfl, rfl, hnames⟩ : w = _ ∧ s = _ ∧ u = _ ∧ _ = [] := by simpa using hparts
  have hparameter : ∀ i w, parameter? function i = some w →
      i = 0 ∧ w = ⟨.parameter, "t", some (.scope [0, 0]), none⟩ := by
    intro i w h
    rw [parameter?, ModuleRecord.parameters, hform] at h
    cases i with
    | zero => cases h; exact ⟨rfl, rfl⟩
    | succ i => cases h
  have hdistinct : HasDistinctParameters function := fun i j v w _ _ hv hw _ =>
    (hparameter i v hv).1.trans (hparameter j w hw).1.symm
  obtain ⟨new, hnew, -, hiff⟩ := capturesNothing_respelled_iff (eq_ok_of_toOption ht)
    (eq_ok_of_toOption hr) (Node.mem_preorder_of_at? hat) hform hdistinct
  refine ⟨t, resolved, function, new, eq_ok_of_toOption ht, eq_ok_of_toOption hr, hat, hdistinct, hnew,
    hiff.2 fun p s i w name hs _ hw hname => ?_⟩
  obtain ⟨rfl, rfl⟩ := hparameter i w hw
  cases hname
  rw [hbody] at hs
  rcases p with _ | ⟨_ | _, _ | ⟨_ | _, _ | ⟨_ | _ | _, _ | _⟩⟩⟩ <;> cases hs
  · rw [hnames]
    exact ⟨fun _ => List.not_mem_nil, fun hbound => absurd ⟨0, _, by decide, hw, rfl⟩ hbound⟩
  · exact ⟨by rintro ⟨⟩, fun _ hname => absurd hname (by decide)⟩

/-- A module with a function in it that has a parameter named like one of the module's own. -/
def capturing : String :=
  "e(\x7b1:[function(t,e,n)\x7bfunction f(module)\x7be.exports=module;\x7d\x7d,\x7b\x7d]\x7d,0,[1])"

theorem symbols_capturing :
    ((parse unnamedFile capturing).result.toOption.bind fun t =>
      t.resolve.toOption.bind fun resolved =>
      (resolved.at? [0, 0, 1, 0, 0, 0]).bind fun function =>
      (Node.mk none (.program (respelled function))).resolve.toOption.bind fun new =>
      (parameter? function 1).bind fun w =>
      ((Node.mk none (.program (unwrap function))).symbol? [0, 2, 0, 0, 0]).bind fun s =>
      (new.symbol? [0, 2, 0, 0, 0]).bind fun u => some (w, s, u)) =
      some (⟨.parameter, "e", some (.scope [0, 0, 1, 0, 0, 0]), none⟩,
        ⟨.reference, "e", some (.scope [0, 0, 1, 0, 0, 0]), some "module"⟩,
        ⟨.reference, "module", some (.scope [0]), none⟩) := by
  decide +kernel

/-- The module's own parameter is captured by the parameter of the inner function. -/
theorem not_capturesNothing_capturing :
    ∃ t resolved function new, (parse unnamedFile capturing).result = .ok t ∧
      t.resolve = .ok resolved ∧ resolved.at? [0, 0, 1, 0, 0, 0] = some function ∧
      (Node.mk none (.program (respelled function))).resolve = .ok new ∧
      ¬ CapturesNothing function new := by
  have hsymbols := symbols_capturing
  simp only [Option.bind_eq_some_iff, Option.some.injEq, Prod.mk.injEq] at hsymbols
  obtain ⟨t, ht, resolved, hr, function, hat, new, hnew, w, hw, s, hs, u, hu, rfl, rfl, rfl⟩ := hsymbols
  refine ⟨t, resolved, function, new, eq_ok_of_toOption ht, eq_ok_of_toOption hr, hat,
    eq_ok_of_toOption hnew, fun h => ?_⟩
  have hlinked := h.linked _ _ 1 _ "module" hs rfl hw rfl rfl
  rw [hu] at hlinked
  cases hlinked

end ModuleRecord

end Debundle
