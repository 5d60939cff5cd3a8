import Debundle.Proofs.Bundle.Consistent
import Debundle.Proofs.Bundle.Entries
import Debundle.Proofs.Bundle.Wrapper
import Debundle.Proofs.Reading.Shape
import Debundle.Proofs.Scope.Frames

/-!
# Module functions of a resolved bundle

The function of a module is one of the functions of the program (`function_mem_preorder`), and so it
is a function that was read from a text and resolved at its address (`exists_scopedFunction`). Its
parameters are at home in it.
-/
namespace Debundle

theorem Node.mem_preorder_trans {k m n : Node} (hk : k ∈ m.preorder) (hm : m ∈ n.preorder) :
    k ∈ n.preorder := by
  induction n using Node.induct with
  | step line form ih =>
    rw [preorder_mk, List.mem_cons, List.mem_flatten] at hm
    obtain rfl | ⟨below, hbelow, hm⟩ := hm
    · exact hk
    · obtain ⟨child, hchild, rfl⟩ := List.mem_map.1 hbelow
      exact mem_preorder_of_child hchild (ih child hchild hm)

theorem Node.mem_preorder_of_mem_children {m n : Node} (h : m ∈ n.form.children) :
    m ∈ n.preorder := by
  obtain ⟨line, form⟩ := n
  exact mem_preorder_of_child h (mem_preorder_self m)

theorem Node.showAs_eq {chosen : Home → String → Option String} {s : Symbol} (h : s.shownAs = none) :
    (match s.home.bind (chosen · s.name) with
      | some shown => { s with shownAs := some shown }
      | none => s) = { s with shownAs := s.home.bind (chosen · s.name) } := by
  cases hchosen : s.home.bind (chosen · s.name) with
  | some shown => rfl
  | none =>
    obtain ⟨role, name, home, shownAs⟩ := s
    obtain rfl : shownAs = none := h
    rfl

namespace Ordered

variable {α β : Type} [DecidableEq α]

theorem mem_put {key : α} {value : β} {table : List (α × β)} {p : α × β}
    (h : p ∈ put key value table) : p = (key, value) ∨ p ∈ table := by
  induction table with
  | nil => exact .inl (List.mem_singleton.1 h)
  | cons pair rest ih => grind [put]

theorem mem_of_mem_ofList {pairs : List (α × β)} {p : α × β} (h : p ∈ ofList pairs) :
    p ∈ pairs := by
  have run : ∀ table : List (α × β),
      p ∈ pairs.foldl (fun table pair => put pair.1 pair.2 table) table → p ∈ pairs ∨ p ∈ table := by
    clear h
    induction pairs with
    | nil => exact fun table h => .inr h
    | cons pair rest ih =>
      intro table h
      obtain h | h := ih _ h
      · exact .inl (.tail _ h)
      · obtain rfl | h := mem_put h
        · exact .inl (.head _)
        · exact .inr h
  exact (run [] h).resolve_right List.not_mem_nil

end Ordered

namespace Bundle

variable {file : Option String} {b : Bundle} {sources : Naming.Sources} {program call : Node}

theorem exists_property_of_mem {p : String × Source} (hs : b.sources file = .ok sources)
    (hp : p ∈ sources) : ∃ property ∈ b.modules, source file property = .ok p := by
  unfold Bundle.sources at hs
  cases hpairs : b.modules.mapM (source file) with
  | error e => rw [hpairs] at hs; cases hs
  | ok pairs =>
    rw [hpairs] at hs
    cases hs
    exact (Naming.exists_mem_of_forall₂ (Naming.mapM_eq_ok_iff.1 hpairs)).2 p
      (Ordered.mem_of_mem_ofList hp)

theorem source_eq_ok {property : Node} {p : String × Source}
    (h : source file property = .ok p) :
    (∃ value : Node, property.form = .property .keyValue p.1 value ∧
      ∃ rest, value.form = .array (p.2.function :: p.2.requires :: rest)) ∧
      ∃ name parameters body, p.2.function.form = .function .expression name parameters body := by
  unfold source at h
  split at h
  · rename_i key value hproperty
    dsimp only at h
    split at h
    · rename_i function requires rest hvalue
      split at h
      · rename_i name parameters body _ hfunction _
        cases h
        exact ⟨⟨value, hproperty, rest, hvalue⟩, name, parameters, body, hfunction⟩
      · cases h
      · cases h
    · cases h
  · cases h

theorem mem_preorder_of_kernel? (h : kernel? file program = .ok (some call)) :
    call ∈ program.preorder := by
  have hcall : call ∈ program.outermostCalls := by
    unfold kernel? at h
    split at h <;> cases h
    rename_i heq
    rw [heq]
    exact .head _
  exact program.walk_subset_preorder _ (List.mem_filter.1 hcall).1

theorem arguments_subset_children (call : Node) : arguments call ⊆ call.form.children := by
  obtain ⟨line, form⟩ := call
  cases form with
  | call callee arguments => exact List.subset_cons_self _ _
  | construct callee arguments => exact List.subset_cons_self _ _
  | _ => exact List.nil_subset _

theorem modules_of_ofKernel (h : ofKernel file call = .ok b) :
    ∃ map ∈ call.form.children, map.form = .object b.modules := by
  unfold ofKernel at h
  split at h
  · rename_i map _ list _ harguments
    have hmap : map ∈ call.form.children :=
      arguments_subset_children call (by rw [harguments]; exact .head _)
    split at h
    · rename_i modules entries hform _
      cases h
      exact ⟨map, hmap, hform⟩
    · cases h
    · cases h
  · cases h

theorem function_mem_preorder {p : String × Source}
    (hkernel : kernel? file program = .ok (some call)) (hbundle : ofKernel file call = .ok b)
    (hs : b.sources file = .ok sources) (hp : p ∈ sources) :
    p.2.function ∈ program.preorder := by
  obtain ⟨map, hmap, hmodules⟩ := modules_of_ofKernel hbundle
  obtain ⟨property, hproperty, hsource⟩ := exists_property_of_mem hs hp
  obtain ⟨⟨value, hvalue, rest, harray⟩, -⟩ := source_eq_ok hsource
  have hfunction : p.2.function ∈ value.preorder :=
    Node.mem_preorder_of_mem_children (by rw [harray]; exact .head _)
  have hvalue : value ∈ property.preorder :=
    Node.mem_preorder_of_mem_children (by rw [hvalue]; exact .head _)
  have hproperty : property ∈ map.preorder :=
    Node.mem_preorder_of_mem_children (by rw [hmodules]; exact hproperty)
  exact Node.mem_preorder_trans hfunction <| Node.mem_preorder_trans hvalue <|
    Node.mem_preorder_trans hproperty <| Node.mem_preorder_trans
      (Node.mem_preorder_of_mem_children hmap) (mem_preorder_of_kernel? hkernel)

end Bundle

/-! ## Resolved functions -/

namespace Scope

/-- The scope that a function opens. -/
def functionFrame (kind : FunctionKind) (name : Option Node) (parameters body : List Node)
    (address : List Nat) : Frame :=
  ⟨address, functionNames kind name parameters body, true⟩

theorem resolveIn_function (line : Option Nat) (kind : FunctionKind) (name : Option Node)
    (parameters body : List Node) (frames : List Frame) (address : List Nat) :
    ∃ name', resolveIn (.mk line (.function kind name parameters body)) frames address =
      .mk line (.function kind name'
        (parameters.mapIdx fun i n =>
          resolveIn n (functionFrame kind name parameters body address :: frames)
            (address ++ [1 + i]))
        (body.mapIdx fun i n =>
          resolveIn n (functionFrame kind name parameters body address :: frames)
            (address ++ [parameters.length + 1 + i]))) := by
  have hform : ∀ s, Form.function kind name parameters body ≠ .symbol s := nofun
  rw [resolveIn_mk line hform, Form.enumerate, Form.map, Form.map_slotted, Form.map_slotted]
  have hslot : ∀ k, framesAt (.function kind name parameters body) frames address (k + 1) =
      functionFrame kind name parameters body address :: frames := by
    intro k
    simp [framesAt, functionFrame]
  have hparameter : ∀ i, 1 + i = i + 1 := fun i => Nat.add_comm 1 i
  have hstatement : ∀ i, parameters.length + 1 + i = parameters.length + i + 1 := fun i => by omega
  simp only [hparameter, hstatement, hslot]
  exact ⟨_, rfl⟩

end Scope

/-- A function that was read from a text, resolved at an address. -/
structure ScopedFunction where
  line : Option Nat
  kind : FunctionKind
  name : Option Node
  parameters : List Node
  body : List Node
  /-- The scopes around the function. -/
  frames : List Scope.Frame
  address : List Nat
  above : Scope.Above frames address
  parametersRead : ∀ n ∈ parameters, ReadAs (.name .parameter) n
  bodyRead : ∀ n ∈ body, ReadAs .statement n

namespace ScopedFunction

variable (F : ScopedFunction)

def frame : Scope.Frame :=
  Scope.functionFrame F.kind F.name F.parameters F.body F.address

/-- The function as a node of the program. -/
def node : Node :=
  Scope.resolveIn (.mk F.line (.function F.kind F.name F.parameters F.body)) F.frames F.address

/-- The address of a statement. -/
def addressOf (i : Nat) : List Nat :=
  F.address ++ [F.parameters.length + 1 + i]

/-- A statement in the scopes around it. -/
def statement (i : Nat) (n : Node) : Node :=
  Scope.resolveIn n (F.frame :: F.frames) (F.addressOf i)

theorem statements_node : ModuleRecord.statements F.node = F.body.mapIdx F.statement := by
  obtain ⟨name, h⟩ := Scope.resolveIn_function F.line F.kind F.name F.parameters F.body F.frames
    F.address
  rw [node, h]
  rfl

theorem parameters_node : ModuleRecord.parameters F.node =
    F.parameters.mapIdx fun i n => Scope.resolveIn n (F.frame :: F.frames) (F.address ++ [1 + i]) := by
  obtain ⟨name, h⟩ := Scope.resolveIn_function F.line F.kind F.name F.parameters F.body F.frames
    F.address
  rw [node, h]
  rfl

theorem parameter?_node (i : Nat) :
    ModuleRecord.parameter? F.node i =
      F.parameters[i]?.bind fun n => match n.form with
        | .symbol s => some { s with home := some (.scope F.address) }
        | _ => none := by
  rw [ModuleRecord.parameter?, parameters_node, List.getElem?_mapIdx]
  cases hn : F.parameters[i]? with
  | none => rfl
  | some n =>
    have hread := F.parametersRead n (List.mem_of_getElem? hn)
    obtain ⟨line, form⟩ := n
    cases form with
    | symbol s =>
      have hrole : s.role = .parameter := by simpa [Form.isOf, Node.form] using hread.fits
      simp [Scope.resolveIn_symbol, Node.form, Scope.symbolHome, hrole, Scope.functionHome, frame,
        Scope.functionFrame]
    | _ => cases hread.fits

theorem home_of_parameter? {i : Nat} {s : Symbol}
    (h : ModuleRecord.parameter? F.node i = some s) : s.home = some (.scope F.address) := by
  rw [parameter?_node, Option.bind_eq_some_iff] at h
  obtain ⟨⟨line, form⟩, -, h⟩ := h
  cases form with
  | symbol t => cases h; rfl
  | _ => cases h

/-- A name in the statements of the module was read at a position of one of them. It is resolved in
the scopes around this position, and shown as the parameters are. -/
theorem exists_of_symbol {p : List Nat} {line : Option Nat} {s : Symbol}
    (h : (Node.mk none (.program (ModuleRecord.unwrap F.node))).at? p = some (.mk line (.symbol s))) :
    ∃ i q n s₀, p = i :: q ∧ F.body[i]? = some n ∧ n.at? q = some (.mk line (.symbol s₀)) ∧
      s.role = s₀.role ∧ s.name = s₀.name ∧
      s.home = some (Scope.symbolHome
        (Scope.contextAt n (F.frame :: F.frames) (F.addressOf i) q).1 s₀) ∧
      s.shownAs = s.home.bind (ModuleRecord.shownAs F.node · s.name) := by
  obtain _ | ⟨i, q⟩ := p
  · cases h
  obtain ⟨shown, hshown, h⟩ := Option.bind_eq_some_iff.1 h
  have hshown : (ModuleRecord.unwrap F.node)[i]? = some shown := hshown
  rw [ModuleRecord.unwrap, statements_node, List.getElem?_map, List.getElem?_mapIdx, Option.map_map,
    Option.map_eq_some_iff] at hshown
  obtain ⟨n, hn, rfl⟩ := hshown
  rw [Function.comp_apply, Node.showAs, Node.at?_mapSymbols, statement, Scope.at?_resolveIn,
    Option.map_map, Option.map_eq_some_iff] at h
  obtain ⟨m, hm, heq⟩ := h
  obtain ⟨s₁, hresolved, hs⟩ := Node.eq_symbol_of_mapSymbols heq
  obtain ⟨s₀, rfl, hs₁⟩ := Scope.eq_symbol_of_resolveIn hresolved
  obtain ⟨c, hread⟩ :=
    (F.bodyRead n (List.mem_of_getElem? hn)).of_mem_preorder (Node.mem_preorder_of_at? hm)
  have hnone : s₁.shownAs = none := by rw [hs₁]; exact hread.own.2
  obtain rfl := hs.trans (Node.showAs_eq hnone)
  rw [hs₁]
  exact ⟨i, q, n, s₀, rfl, hn, hm, rfl, rfl, rfl, rfl⟩

end ScopedFunction

theorem exists_scopedFunction {t resolved n : Node} {kind : FunctionKind} {name : Option Node}
    {parameters body : List Node} (ht : ReadAs .program t) (hr : t.resolve = .ok resolved)
    (hn : n ∈ resolved.preorder) (hform : n.form = .function kind name parameters body) :
    ∃ F : ScopedFunction, F.kind = kind ∧ n = F.node := by
  obtain ⟨⟨line, form⟩, c, hread, frames, address, habove, rfl⟩ :=
    exists_of_mem_preorder_resolve ht hr hn (by rw [hform]; rfl)
  obtain ⟨_, s, -, heq⟩ | ⟨-, -, hlabel⟩ := Scope.label_resolveIn (.mk line form) frames address
  · rw [heq] at hform
    cases hform
  rw [hform] at hlabel
  cases form with
  | function kind₀ name₀ parameters₀ body₀ =>
    have hparameters : ∀ n ∈ parameters₀, ReadAs (.name .parameter) n := fun n hn =>
      hread.part (p := (.name .parameter, n)) (by simp [Form.parts, Form.many, Node.form, hn])
    have hbody : ∀ n ∈ body₀, ReadAs .statement n := fun n hn =>
      hread.part (p := (.statement, n)) (by simp [Form.parts, Form.many, Node.form, hn])
    exact ⟨⟨line, kind₀, name₀, parameters₀, body₀, frames, address, habove, hparameters, hbody⟩,
      (Form.function.inj hlabel).1.symm, rfl⟩
  | _ => cases hlabel

theorem Source.record_eq_ok {file : Option String} {table : NameTable} {s : Source} {id : String}
    {r : ModuleRecord} (h : (s.record file table id).outcome = .ok r) :
    table.get? id = some r.name ∧ r.function = s.function := by
  cases hname : table.get? id with
  | none =>
    rw [Source.record, hname] at h
    cases h
  | some name =>
    obtain ⟨rfl, hfunction⟩ := Source.record_ok hname h
    exact ⟨rfl, hfunction⟩

/-- A record is that of a module of the scoped bundle in a text. -/
def ModuleRecord.ReadFrom (text : String) (table : NameTable) (r : ModuleRecord) : Prop :=
  ∃ file name t resolved call b sources p, (parse name text).result = .ok t ∧
    t.resolve = .ok resolved ∧ Bundle.kernel? file resolved = .ok (some call) ∧
    Bundle.ofKernel file call = .ok b ∧ b.sources file = .ok sources ∧ p ∈ sources ∧
    (p.2.record file table p.1).outcome = .ok r

theorem ModuleRecord.ReadFrom.exists_program {text : String} {table : NameTable} {r : ModuleRecord}
    (h : r.ReadFrom text table) :
    ∃ t resolved, ReadAs .program t ∧ t.resolve = .ok resolved ∧ r.function ∈ resolved.preorder ∧
      ∃ name parameters body, r.function.form = .function .expression name parameters body := by
  obtain ⟨file, name, t, resolved, call, b, sources, p, hparse, hresolve, hkernel, hbundle, hsources,
    hsource, hrecord⟩ := h
  obtain ⟨property, -, hproperty⟩ := Bundle.exists_property_of_mem hsources hsource
  rw [(Source.record_eq_ok hrecord).2]
  exact ⟨t, resolved, shaped_of_parse hparse, hresolve,
    Bundle.function_mem_preorder hkernel hbundle hsources hsource, (Bundle.source_eq_ok hproperty).2⟩

end Debundle
