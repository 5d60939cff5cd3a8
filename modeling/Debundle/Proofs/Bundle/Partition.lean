import Debundle.Proofs.Bundle.Entries
import Debundle.Proofs.Bundle.Wrapper

/-!
# Assembly partitions a bundle

Every module of a bundle that has a name goes to one place: its statements to the program with its
name, its package to the dependencies, or nowhere if the platform provides it. Statements are taken
over as they are, apart from the names shown for parameters of the module function and the texts of
`require` calls (`ofBundle_partition`).
-/
namespace Debundle

/-- Trees that differ only in the names that are shown for some symbols, and in the argument of
`require` calls that have one text as their only argument. -/
inductive Node.Rewired (shown : Symbol → Prop) : Node → Node → Prop
  | symbol {line : Option Nat} {s : Symbol} (may : shown s) (name : Option String) :
      Rewired shown (.mk line (.symbol s)) (.mk line (.symbol { s with shownAs := name }))
  | require {line argument : Option Nat} {callee callee' : Node}
      (rewired : Rewired shown callee callee') (isRequire : callee'.isRequire = true)
      (old new : String) :
      Rewired shown (.mk line (.call callee [.mk argument (.string old)]))
        (.mk line (.call callee' [.mk argument (.string new)]))
  | node {line : Option Nat} {form form' : Form Node} (label : form'.label = form.label)
      (children : ∀ p ∈ form.children.zip form'.children, Rewired shown p.1 p.2) :
      Rewired shown (.mk line form) (.mk line form')

namespace Node

variable {shown : Symbol → Prop} {chosen : Home → String → Option String}

theorem showAs_symbol (chosen : Home → String → Option String) (line : Option Nat) (s : Symbol) :
    showAs chosen (mk line (.symbol s)) =
      mk line (.symbol (match s.home.bind (chosen · s.name) with
        | some shown => { s with shownAs := some shown }
        | none => s)) :=
  mapSymbols_symbol ..

theorem showAs_mk (chosen : Home → String → Option String) (line : Option Nat) {form : Form Node}
    (h : ∀ s, form ≠ .symbol s) :
    showAs chosen (mk line form) = mk line (form.map (showAs chosen)) :=
  mapSymbols_mk _ line h

theorem eq_string_of_showAs {n : Node} {line : Option Nat} {value : String}
    (h : showAs chosen n = mk line (.string value)) : n = mk line (.string value) := by
  obtain ⟨l, form⟩ := n
  by_cases hs : ∃ s, form = .symbol s
  · obtain ⟨s, rfl⟩ := hs
    rw [showAs_symbol] at h
    cases h
  · rw [showAs_mk chosen l fun s heq => hs ⟨s, heq⟩] at h
    obtain ⟨rfl, h⟩ := Node.mk.inj h
    cases form with
    | string v => cases h; rfl
    | _ => cases h

theorem rewired_relink_showAs (hshown : ∀ s home, s.home = some home →
      (chosen home s.name).isSome = true → shown s) (link : String → Option String) (n : Node) :
    Rewired shown n (relink link (showAs chosen n)) := by
  induction n using Node.induct with
  | step line form ih =>
    by_cases hs : ∃ s, form = .symbol s
    · obtain ⟨s, rfl⟩ := hs
      rw [showAs_symbol, relink_symbol]
      cases hchosen : s.home.bind (chosen · s.name) with
      | none => exact .node rfl (by simp [Form.children])
      | some name =>
        obtain ⟨home, hhome, hname⟩ := Option.bind_eq_some_iff.1 hchosen
        exact .symbol (hshown s home hhome (by rw [hname]; rfl)) _
    · rw [showAs_mk chosen line fun s heq => hs ⟨s, heq⟩]
      cases hrequired : (required? (form.map (showAs chosen))).bind link with
      | none =>
        rw [relink_of_none line hrequired, Form.map_map]
        refine .node (by simp) fun p hp => ?_
        obtain ⟨hm, hp⟩ := Form.of_mem_zip_children hp
        rw [hp]
        exact ih p.1 hm
      | some new =>
        obtain ⟨specifier, hspecifier, hlink⟩ := Option.bind_eq_some_iff.1 hrequired
        obtain ⟨callee, argument, hform, hr⟩ := required?_eq_some_iff.1 hspecifier
        rw [hform, relink_call line argument hr hlink]
        cases form with
        | call callee₀ arguments =>
          obtain ⟨rfl, harguments⟩ := Form.call.inj hform
          obtain ⟨first, rfl, hfirst⟩ := List.map_eq_singleton_iff.1 harguments
          rw [eq_string_of_showAs hfirst]
          obtain ⟨calleeLine, s, hcallee, -⟩ := isRequire_eq_true_iff.1 hr
          have hrewired := ih callee₀ (.head _)
          rw [hcallee, relink_symbol, ← hcallee] at hrewired
          exact .require hrewired hr specifier new
        | _ => cases hform

end Node

namespace ModuleRecord

/-- Symbols with the definition of a parameter that modules know by a name. -/
def IsWrapperParameter (function : Node) (s : Symbol) : Prop :=
  ∃ i < wrapperNames.length, ∃ w d, parameter? function i = some w ∧
    Scope.definition? w = some d ∧ Scope.definition? s = some d

theorem isWrapperParameter_of_shownAs {function : Node} {s : Symbol} {home : Home}
    (hhome : s.home = some home) (h : (shownAs function home s.name).isSome = true) :
    IsWrapperParameter function s := by
  obtain ⟨shown, h⟩ := Option.isSome_iff_exists.1 h
  obtain ⟨i, w, hw, hshown, hwhome, hwname, -⟩ := shownAs_eq_some_iff.1 h
  refine ⟨i, (List.getElem?_eq_some_iff.1 hshown).1, w, ⟨home, s.name⟩, hw, ?_, ?_⟩
  · simp [Scope.definition?, hwhome, hwname]
  · simp [Scope.definition?, hhome]

theorem rewired_statements (function : Node) (link : String → Option String) :
    List.Forall₂ (Node.Rewired (IsWrapperParameter function)) (statements function)
      ((unwrap function).map (Node.relink link)) := by
  rw [unwrap, List.map_map, List.forall₂_map_right_iff]
  exact List.forall₂_same.2 fun n _ =>
    Node.rewired_relink_showAs (fun _ _ => isWrapperParameter_of_shownAs) link n

end ModuleRecord

/-- Whether a module has a name, and is extracted under it. -/
def NameTable.isOwn (table : NameTable) (name : String) (p : String × Source) : Bool :=
  table.get? p.1 = some name && ModuleName.classify name = .own

namespace Assembly

variable {cwd : String} {file : Option String} {table : NameTable} {a a' : Assembly}

/-- The statements that a module contributes if it is extracted. -/
def block (cwd : String) (file : Option String) (table : NameTable) (p : String × Source) :
    List Node :=
  match (p.2.record file table p.1).outcome with
  | .ok r => (ModuleRecord.unwrap p.2.function).map (Node.relink (r.link cwd))
  | .error _ => []

/-- What the module of an entry of the map adds, where nothing is at fault. -/
def taking (cwd : String) (file : Option String) (table : NameTable) (a : Assembly)
    (p : String × Source) : Assembly :=
  match table.get? p.1 with
  | none => a
  | some name =>
    match ModuleName.classify name with
    | .builtin => a
    | .dependency => a.depend ((ModuleName.package? name).getD "")
    | .own => a.append name (block cwd file table p)

theorem eq_taking_of_add {p : String × Source}
    (h : (add cwd file table a p).outcome = .ok a') : a' = taking cwd file table a p := by
  obtain ⟨id, source⟩ := p
  simp only [add] at h
  cases hname : table.get? id with
  | none =>
    simp only [hname] at h
    obtain ⟨_, -, h⟩ := Logged.bind_eq_ok h
    cases h
    simp only [taking, hname]
  | some name =>
    simp only [hname] at h
    cases hkind : ModuleName.classify name with
    | builtin =>
      simp only [hkind] at h
      obtain ⟨_, -, h⟩ := Logged.bind_eq_ok h
      cases h
      simp only [taking, hname, hkind]
    | dependency =>
      simp only [hkind] at h
      obtain ⟨_, -, h⟩ := Logged.bind_eq_ok h
      cases h
      simp only [taking, hname, hkind]
    | own =>
      simp only [hkind] at h
      obtain ⟨r, hr, h⟩ := Logged.bind_eq_ok h
      obtain ⟨body, hbody, h⟩ := Logged.bind_eq_ok h
      cases h
      obtain ⟨hrname, hfunction⟩ := Source.record_ok hname hr
      simp only [taking, hname, hkind, block, hr]
      rw [ModuleRecord.program_ok hbody, hrname, hfunction]

theorem eq_foldl_of_foldlM {sources : Naming.Sources}
    (h : (sources.foldlM (add cwd file table) a).outcome = .ok a') :
    a' = sources.foldl (taking cwd file table) a := by
  induction sources generalizing a with
  | nil =>
    cases h
    rfl
  | cons p sources ih =>
    rw [List.foldlM_cons] at h
    obtain ⟨b, hb, h⟩ := Logged.bind_eq_ok h
    rw [List.foldl_cons, ← eq_taking_of_add hb]
    exact ih h

/-! ## Programs -/

@[simp] theorem modules_depend (a : Assembly) (package : String) :
    (a.depend package).modules = a.modules := by
  unfold depend
  split_ifs <;> rfl

theorem get?_taking (a : Assembly) (p : String × Source) (name : String) :
    Ordered.get? name (taking cwd file table a p).modules =
      if table.isOwn name p then
        some ((Ordered.get? name a.modules).getD [] ++ block cwd file table p)
      else Ordered.get? name a.modules := by
  cases hname : table.get? p.1 with
  | none => simp [taking, NameTable.isOwn, hname]
  | some other =>
    have hown : table.isOwn name p = true ↔ other = name ∧ ModuleName.classify other = .own := by
      simp only [NameTable.isOwn, hname, Option.some_inj, Bool.and_eq_true, decide_eq_true_eq]
      exact and_congr_right fun heq => heq ▸ Iff.rfl
    simp only [taking, hname, hown]
    cases hkind : ModuleName.classify other with
    | own =>
      simp only [get?_append, and_true]
      split_ifs with heq
      · rw [heq]
      · rfl
    | _ => simp

theorem get?_foldl_taking (sources : Naming.Sources) (a : Assembly) (name : String) :
    Ordered.get? name (sources.foldl (taking cwd file table) a).modules =
      if (sources.filter (table.isOwn name)).isEmpty then Ordered.get? name a.modules
      else some ((Ordered.get? name a.modules).getD [] ++
        (sources.filter (table.isOwn name)).flatMap (block cwd file table)) := by
  induction sources generalizing a with
  | nil => rfl
  | cons p sources ih =>
    rw [List.foldl_cons, ih, get?_taking, List.filter_cons]
    by_cases hp : table.isOwn name p = true
    · rw [if_pos hp, if_pos hp, List.isEmpty_cons, if_neg Bool.false_ne_true]
      split_ifs with hnone
      · simp [List.isEmpty_iff.1 hnone]
      · simp
    · rw [if_neg hp, if_neg hp]

theorem nodup_keys_taking {p : String × Source} (h : (a.modules.map Prod.fst).Nodup) :
    ((taking cwd file table a p).modules.map Prod.fst).Nodup := by
  unfold taking
  split
  · exact h
  · split
    · exact h
    · rwa [modules_depend]
    · exact Ordered.nodup_keys_put _ _ h

theorem nodup_keys_foldl_taking {sources : Naming.Sources} (h : (a.modules.map Prod.fst).Nodup) :
    ((sources.foldl (taking cwd file table) a).modules.map Prod.fst).Nodup := by
  induction sources generalizing a with
  | nil => exact h
  | cons p sources ih => exact ih (nodup_keys_taking h)

theorem get?_start (table : NameTable) (known : List String) (name : String) :
    Ordered.get? name (start table known).modules = if name ∈ table.entries then some [] else none := by
  have run : ∀ (names : List String) (modules : List (String × List Node)),
      Ordered.get? name ((names.map fun n => (n, ([] : List Node))).foldl
        (fun table pair => Ordered.put pair.1 pair.2 table) modules) =
        if name ∈ names then some [] else Ordered.get? name modules := by
    intro names
    induction names with
    | nil => simp
    | cons first names ih =>
      intro modules
      rw [List.map_cons, List.foldl_cons, ih, Ordered.get?_put]
      grind
  exact run table.entries []

/-! ## Dependencies -/

theorem mem_dependencies_depend {package other : String} :
    package ∈ (a.depend other).dependencies ↔ package ∈ a.dependencies ∨ package = other := by
  unfold depend
  split_ifs with h
  · exact ⟨.inl, fun hor => hor.elim id fun heq => heq ▸ h⟩
  · simp

/-- Whether a module is declared as a package that it lives in. -/
def DependsOn (table : NameTable) (package : String) (p : String × Source) : Prop :=
  ∃ name, table.get? p.1 = some name ∧ ModuleName.classify name = .dependency ∧
    ModuleName.package? name = some package

theorem mem_dependencies_taking {p : String × Source} {package : String} :
    package ∈ (taking cwd file table a p).dependencies ↔
      package ∈ a.dependencies ∨ DependsOn table package p := by
  unfold taking DependsOn
  cases hname : table.get? p.1 with
  | none => simp
  | some name =>
    cases hkind : ModuleName.classify name with
    | dependency =>
      obtain ⟨own, hown⟩ : ∃ own, ModuleName.package? name = some own := by
        unfold ModuleName.classify at hkind
        split at hkind
        · cases hkind
        · exact ⟨_, ‹_›⟩
      simp [mem_dependencies_depend, hkind, hown, eq_comm]
    | _ => simp [hkind, append]

theorem mem_dependencies_foldl_taking {sources : Naming.Sources} {package : String} :
    package ∈ (sources.foldl (taking cwd file table) a).dependencies ↔
      package ∈ a.dependencies ∨ ∃ p ∈ sources, DependsOn table package p := by
  induction sources generalizing a with
  | nil => simp
  | cons p sources ih =>
    rw [List.foldl_cons, ih, mem_dependencies_taking, or_assoc]
    simp

theorem foldlM_of_ofBundle {b : Bundle} {known : List String}
    (h : (ofBundle cwd file table b known).outcome = .ok a) :
    ∃ sources, b.sources file = .ok sources ∧
      (sources.foldlM (add cwd file table) (start table known)).outcome = .ok a := by
  obtain ⟨sources, hs, hfold⟩ := Logged.bind_eq_ok h
  refine ⟨sources, ?_, hfold⟩
  cases hb : b.sources file with
  | error problem => rw [hb] at hs; cases hs
  | ok sources' => rw [hb] at hs; cases hs; rfl

theorem nodup_keys_modules (sources : Naming.Sources) (known : List String) :
    ((sources.foldl (taking cwd file table) (start table known)).modules.map Prod.fst).Nodup :=
  nodup_keys_foldl_taking (Ordered.nodup_keys_ofList _)

theorem mem_modules_iff {sources : Naming.Sources} {known : List String} {name : String}
    {body : List Node} :
    (name, body) ∈ (sources.foldl (taking cwd file table) (start table known)).modules ↔
      (name ∈ table.entries ∨ ∃ p ∈ sources, table.isOwn name p = true) ∧
        body = (sources.filter (table.isOwn name)).flatMap (block cwd file table) := by
  rw [← Ordered.get?_eq_some_iff (nodup_keys_modules sources known), get?_foldl_taking, get?_start]
  have hempty : (sources.filter (table.isOwn name)).isEmpty = true ↔
      ¬ ∃ p ∈ sources, table.isOwn name p = true := by
    simp [List.isEmpty_iff, List.filter_eq_nil_iff]
  by_cases hown : ∃ p ∈ sources, table.isOwn name p = true
  · rw [if_neg (by rwa [hempty, not_not]), Option.some_inj]
    have hnil : (if name ∈ table.entries then some ([] : List Node) else none).getD [] = [] := by
      split_ifs <;> rfl
    rw [hnil, List.nil_append, and_iff_right (.inr hown)]
    exact eq_comm
  · rw [if_pos (hempty.2 hown), List.isEmpty_iff.1 (hempty.2 hown), List.flatMap_nil]
    by_cases hentry : name ∈ table.entries
    · rw [if_pos hentry, Option.some_inj, and_iff_right (.inl hentry)]
      exact eq_comm
    · rw [if_neg hentry]
      exact iff_of_false nofun fun h => h.1.elim hentry hown

/-- The programs of a bundle are those of the entries and those of its own modules that have a name.
A program consists of the statements of the modules with its name, in the order of the module map;
packages are declared as dependencies, and nothing comes of other modules. -/
theorem ofBundle_partition {b : Bundle} {known : List String}
    (h : (ofBundle cwd file table b known).outcome = .ok a) :
    ∃ sources, b.sources file = .ok sources ∧ (sources.map Prod.fst).Nodup ∧
      (a.modules.map Prod.fst).Nodup ∧
      ∃ block : String × Source → List Node,
        (∀ p ∈ sources, ∀ name, table.isOwn name p = true →
          List.Forall₂ (Node.Rewired (ModuleRecord.IsWrapperParameter p.2.function))
            (ModuleRecord.statements p.2.function) (block p)) ∧
        (∀ name body, (name, body) ∈ a.modules ↔
          (name ∈ table.entries ∨ ∃ p ∈ sources, table.isOwn name p = true) ∧
            body = (sources.filter (table.isOwn name)).flatMap block) ∧
        ∀ package, package ∈ a.dependencies ↔
          package ∈ known ∨ ∃ p ∈ sources, DependsOn table package p := by
  obtain ⟨sources, hsources, hfold⟩ := foldlM_of_ofBundle h
  obtain rfl := eq_foldl_of_foldlM hfold
  refine ⟨sources, hsources, Naming.nodup_keys_sources hsources, nodup_keys_modules sources known,
    block cwd file table, ?_, fun name body => mem_modules_iff, fun package => ?_⟩
  · intro p hp name hown
    obtain ⟨hname, hkind⟩ : table.get? p.1 = some name ∧ ModuleName.classify name = .own := by
      simpa [NameTable.isOwn] using hown
    obtain ⟨r, hr, -⟩ := holds_of_mem hfold hp hname hkind
    simp only [block, hr]
    exact ModuleRecord.rewired_statements p.2.function (r.link cwd)
  · exact mem_dependencies_foldl_taking

/-- An entry, two modules with one name, a package, a module that the platform provides, and one
without a name. -/
def mixed : Bundle :=
  Naming.sketch [("1", []), ("2", []), ("3", []), ("4", []), ("5", []), ("6", [])] [1]

def mixedNames : NameTable :=
  { names := [("1", "main"), ("2", "a"), ("3", "a"), ("4", "node_modules/lodash/index"),
      ("5", "node_modules/events/index")],
    entries := ["main"] }

/-- A module whose only statement is its id. -/
def mixedEntry (id : String) : String × Source :=
  (id, ⟨.mk none (.function .expression none [] [.mk none (.simple (.mk none (.string id)))]),
    .mk none (.object [])⟩)

theorem ofBundle_partition_mixed :
    ∃ a, (ofBundle "/" none mixedNames mixed ["left-pad"]).outcome = .ok a ∧
      (∃ first second, ("a", first ++ second) ∈ a.modules ∧ first.length = 1 ∧ second.length = 1) ∧
      (∀ body, ("node_modules/lodash/index", body) ∉ a.modules) ∧
      "lodash" ∈ a.dependencies ∧ "left-pad" ∈ a.dependencies := by
  obtain ⟨a, ha⟩ : ∃ a, (ofBundle "/" none mixedNames mixed ["left-pad"]).outcome = .ok a := ⟨_, rfl⟩
  have hs : mixed.sources none = .ok (["1", "2", "3", "4", "5", "6"].map mixedEntry) := rfl
  obtain ⟨sources, hs', -, -, block, hblock, hmodules, hdependencies⟩ := ofBundle_partition ha
  cases hs.symm.trans hs'
  have hlength : ∀ id, mixedEntry id ∈ ["1", "2", "3", "4", "5", "6"].map mixedEntry →
      mixedNames.isOwn "a" (mixedEntry id) = true → (block (mixedEntry id)).length = 1 :=
    fun id hmem hown => (hblock _ hmem "a" hown).length_eq.symm
  have hfilter : (["1", "2", "3", "4", "5", "6"].map mixedEntry).filter (mixedNames.isOwn "a") =
      ["2", "3"].map mixedEntry := rfl
  refine ⟨a, ha, ⟨_, _, (hmodules "a" _).2 ⟨.inr ?_, ?_⟩, hlength "2" (by simp) rfl,
    hlength "3" (by simp) rfl⟩, ?_, ?_, ?_⟩
  · exact ⟨mixedEntry "2", .tail _ (.head _), rfl⟩
  · rw [hfilter]
    simp
  · intro body hbody
    obtain ⟨hentry | ⟨p, hp, hown⟩, -⟩ := (hmodules _ _).1 hbody
    · revert hentry; decide
    · have hkind : ModuleName.classify "node_modules/lodash/index" = .dependency := rfl
      simp [NameTable.isOwn, hkind] at hown
  · exact (hdependencies _).2 (.inr ⟨mixedEntry "4", by simp, _, rfl, rfl, rfl⟩)
  · exact (hdependencies _).2 (.inl (.head _))

end Assembly

end Debundle
