import Debundle.Proofs.Bundle.Links
import Debundle.Run.Unbundle

/-!
# Files of modules

Modules are written to paths that are taken from a directory. A path stays below the directory if it
goes up no more often than down (`Path.isInside_join_iff`). Specifiers can lead out of the directory,
and names do only because of such a specifier (`Run.isInside_modulePath_iff`).
-/
namespace Debundle

namespace Path

/-! ## Paths below a directory -/

/-- A path leads into a directory: without `.` and `..`, it goes to the directory and then on by names. -/
def IsInside (d p : List Char) : Prop :=
  root p = root d ∧ ∃ rest, rest ≠ [] ∧ (∀ c ∈ rest, IsName c) ∧ parts p = parts d ++ rest

/-- Components that lead down. -/
def leadsDown (c : List Char) : Bool :=
  c ≠ [] && c ≠ here && c ≠ up

/-- Up to no component does a relative path go up more often than down. -/
def Descends (p : List Char) : Prop :=
  isAbsolute p = false ∧ ∀ before, before <+: components p → before.count up ≤ before.countP leadsDown

variable {rooted : Bool} {place cs : List (List Char)} {c : List Char}

theorem leadsDown_of_isName (h : IsName c) : leadsDown c = true := by
  simp [leadsDown, h.ne_nil, h.ne_here, h.ne_up]

theorem up_notMem_of_names (h : ∀ c ∈ cs, IsName c) : up ∉ cs :=
  fun hup => (h up hup).ne_up rfl

/-- Once a relative path has gone up from where it starts, it does not come back. -/
theorem up_notMem_walk_concat (hcs : ∀ d ∈ cs, '/' ∉ d) (hc : '/' ∉ c) :
    up ∉ walk false [] (cs ++ [c]) ↔
      up ∉ walk false [] cs ∧ (c = up → walk false [] cs ≠ []) := by
  rw [walk_append]
  have hreached : IsReached false (walk false [] cs) := isReached_nil.walk hcs
  obtain ⟨hstay, hwalk⟩ | ⟨hname | ⟨rfl, -, k, hk⟩, hwalk⟩ |
    ⟨rfl, before, name, -, hname, hbefore, hwalk⟩ := step_cases hreached hc
  · rw [hwalk]
    refine (and_iff_left fun hup => ?_).symm
    subst hup
    obtain h | h | ⟨-, h, -⟩ := hstay <;> cases h
  · rw [hwalk, List.mem_append, List.mem_singleton, not_or]
    exact and_congr_right fun _ => iff_of_true (Ne.symm hname.ne_up) fun hup => absurd hup hname.ne_up
  · rw [hwalk]
    refine iff_of_false (by simp) ?_
    rintro ⟨hup, hne⟩
    rw [hk] at hup hne
    cases k with
    | zero => exact hne rfl rfl
    | succ k => exact hup (.head _)
  · rw [hwalk, hbefore, List.mem_append, List.mem_singleton, not_or]
    refine ⟨fun h => ⟨⟨h, Ne.symm hname.ne_up⟩, fun _ => by simp⟩, fun h => h.1.1⟩

theorem length_walk_concat (hcs : ∀ d ∈ cs, '/' ∉ d) (hc : '/' ∉ c)
    (h : up ∉ walk false [] (cs ++ [c])) :
    (walk false [] (cs ++ [c])).length + [c].count up =
      (walk false [] cs).length + [c].countP leadsDown := by
  rw [walk_append] at h ⊢
  have hreached : IsReached false (walk false [] cs) := isReached_nil.walk hcs
  obtain ⟨hstay, hwalk⟩ | ⟨hname | ⟨rfl, -, k, hk⟩, hwalk⟩ |
    ⟨rfl, before, name, -, hname, hbefore, hwalk⟩ := step_cases hreached hc
  · rw [hwalk]
    obtain rfl | rfl | ⟨-, hrooted, -⟩ := hstay
    · rfl
    · rfl
    · cases hrooted
  · rw [hwalk, List.length_append, List.length_singleton, List.count_singleton,
      List.countP_singleton, leadsDown_of_isName hname]
    simp [hname.ne_up]
  · rw [hwalk] at h
    simp at h
  · rw [hwalk, hbefore]
    simp [leadsDown]

/-- A walk stays below where it starts if up to no component it goes up more often than down. -/
theorem up_notMem_walk_iff (hcs : ∀ c ∈ cs, '/' ∉ c) :
    (up ∉ walk false [] cs ↔ ∀ before, before <+: cs → before.count up ≤ before.countP leadsDown) ∧
      (up ∉ walk false [] cs →
        (walk false [] cs).length + cs.count up = cs.countP leadsDown) := by
  induction cs using List.reverseRecOn with
  | nil => simp
  | append_singleton cs c ih =>
    have hcs' : ∀ d ∈ cs, '/' ∉ d := fun d hd => hcs d (List.mem_append_left _ hd)
    have hc : '/' ∉ c := hcs c (by simp)
    obtain ⟨hiff, hlength⟩ := ih hcs'
    have hdeep : up ∉ walk false [] (cs ++ [c]) → (walk false [] (cs ++ [c])).length +
        (cs ++ [c]).count up = (cs ++ [c]).countP leadsDown := by
      intro h
      have hlast := length_walk_concat hcs' hc h
      have hbefore := hlength ((up_notMem_walk_concat hcs' hc).1 h).1
      rw [List.count_append, List.countP_append]
      omega
    refine ⟨⟨fun h before hbefore => ?_, fun h => ?_⟩, hdeep⟩
    · obtain rfl | hbefore := List.prefix_concat_iff.1 hbefore
      · have := hdeep h
        omega
      · exact hiff.1 ((up_notMem_walk_concat hcs' hc).1 h).1 before hbefore
    · have hbelow := hiff.2 fun before hbefore => h before (hbefore.trans (List.prefix_append ..))
      refine (up_notMem_walk_concat hcs' hc).2 ⟨hbelow, ?_⟩
      rintro rfl hnil
      have hall := h (cs ++ [up]) (List.prefix_refl _)
      have hdepth := hlength hbelow
      rw [hnil] at hdepth
      rw [List.count_append, List.countP_append] at hall
      simp [leadsDown] at hall hdepth
      omega

theorem descends_iff {p : List Char} : Descends p ↔ isAbsolute p = false ∧ up ∉ parts p := by
  refine and_congr_right fun hp => ?_
  rw [parts, hp]
  exact (up_notMem_walk_iff fun _ => slash_notMem_of_mem_components).1.symm

/-- A relative path leads into every directory from which it is taken if and only if it descends. The
path has to lead to a name. -/
theorem isInside_join_iff {b : List Char} (hb : parts b ≠ []) :
    (∀ d, IsInside d (join d b)) ↔ Descends b := by
  rw [descends_iff]
  constructor
  · intro h
    have habsolute : isAbsolute b = false := by
      by_contra hne
      obtain ⟨-, rest, hrest, -, hparts⟩ := h b
      rw [join, if_pos (by simpa using hne)] at hparts
      exact hrest (List.self_eq_append_right.1 hparts)
    obtain ⟨-, rest, -, hnames, hparts⟩ := h []
    have hjoin : join [] b = b := by simp [join, habsolute]
    rw [hjoin] at hparts
    refine ⟨habsolute, ?_⟩
    rw [hparts]
    exact up_notMem_of_names hnames
  · rintro ⟨habsolute, hup⟩ d
    obtain ⟨n, names, hparts, hnames, -⟩ := isReached_parts b
    cases n with
    | succ n => exact absurd (hparts ▸ .head _) hup
    | zero =>
      rw [List.replicate_zero, List.nil_append] at hparts
      refine ⟨root_join habsolute, names, hparts ▸ hb, hnames, ?_⟩
      have hwalk : walk false [] (components b) = names := by
        rw [← hparts, parts, habsolute]
      rw [parts_join habsolute, ← walk_walk fun _ => slash_notMem_of_mem_components, hwalk,
        walk_names hnames]

end Path

namespace ModuleName

theorem parts_script_ne_nil (name : List Char) : Path.parts (name ++ script) ≠ [] := by
  obtain ⟨before, last, -, hcomponents⟩ :=
    Path.components_append_of_slash_notMem name (show '/' ∉ script by decide)
  have hslash : '/' ∉ last ++ script :=
    Path.slash_notMem_of_mem_components (hcomponents ▸ List.mem_append_right _ (.head _))
  have hlong : 3 ≤ (last ++ script).length := by simp [script]
  have hname : Path.IsName (last ++ script) := by
    refine ⟨?_, ?_, ?_, hslash⟩ <;> intro h <;> rw [h] at hlong <;> revert hlong <;> decide
  rw [Path.parts, hcomponents, Path.walk_append, Path.walk_name hname]
  simp

end ModuleName

namespace Logged

variable {ε δ α β : Type}

theorem mapError_eq_ok {f : ε → δ} {m : Logged ε α} {a : α} (h : (m.mapError f).outcome = .ok a) :
    m.outcome = .ok a := by
  rw [mapError] at h
  cases hm : m.outcome with
  | error e => rw [hm] at h; cases h
  | ok b => rw [hm] at h; cases h; rfl

instance : LawfulMonad (Logged ε) :=
  LawfulMonad.mk' _
    (fun m => by
      obtain ⟨log, outcome⟩ := m
      cases outcome <;> simp [Functor.map, bind, ok])
    (fun a f => rfl)
    (fun m f g => by
      obtain ⟨log, outcome⟩ := m
      cases outcome with
      | error e => rfl
      | ok a =>
        change Logged.bind ⟨log ++ (f a).log, (f a).outcome⟩ g =
          ⟨log ++ ((f a).bind g).log, ((f a).bind g).outcome⟩
        unfold bind
        cases (f a).outcome <;> simp [List.append_assoc])

theorem map_of_mapM_eq_ok {f : α → Logged ε β} (key : α → δ) (key' : β → δ)
    (hf : ∀ a b, (f a).outcome = .ok b → key' b = key a) {xs : List α} {ys : List β}
    (h : (xs.mapM f).outcome = .ok ys) : ys.map key' = xs.map key := by
  induction xs generalizing ys with
  | nil =>
    rw [List.mapM_nil] at h
    cases h
    rfl
  | cons x xs ih =>
    rw [List.mapM_cons] at h
    obtain ⟨y, hy, h⟩ := bind_eq_ok h
    obtain ⟨zs, hzs, h⟩ := bind_eq_ok h
    cases h
    rw [List.map_cons, List.map_cons, hf x y hy, ih hzs]

end Logged

namespace Naming

/-- The names that can come up in a bundle: those of entries, what a module with such a name requires,
and the index of that. -/
inductive Proposed (names : List String) (sources : Sources) : String → Prop
  | entry (place : Nat) : Proposed names sources (ModuleName.entryAt names place)
  | required {name : String} {p : String × Source} {edge : Edge} (parent : Proposed names sources name)
      (inside : p ∈ sources) (requires : edge ∈ p.2.edges) :
      Proposed names sources (ModuleName.candidate name edge.specifier)
  | index {name : String} {p : String × Source} {edge : Edge} (parent : Proposed names sources name)
      (inside : p ∈ sources) (requires : edge ∈ p.2.edges) :
      Proposed names sources (NameTable.indexOf (ModuleName.candidate name edge.specifier))

variable {names ids : List String} {sources : Sources} {file : Option String} {b : Bundle}
variable {table : NameTable} {name : String}

theorem renamed_cases (existing : Option String) (candidate : String) :
    existing = some (NameTable.renamed existing candidate) ∨
      NameTable.renamed existing candidate = candidate ∨
      NameTable.renamed existing candidate = NameTable.indexOf candidate := by
  cases existing with
  | none => exact .inr (.inl rfl)
  | some existing =>
    unfold NameTable.renamed
    dsimp only
    split_ifs
    · exact .inl rfl
    · exact .inl rfl
    · exact .inr (.inr rfl)

theorem proposed_of_visits {vs : List Visit} (hvs : ∀ v ∈ vs, v.entry ∈ sources)
    (h : Visits ⟨file, sources⟩ (seeded names ids) vs table) :
    ∀ id name, table.get? id = some name → Proposed names sources name := by
  refine h.invariant (I := fun t => ∀ id name, t.get? id = some name → Proposed names sources name)
    ?_ ?_
  · intro id name hname
    rw [get?_seeded] at hname
    split_ifs at hname
    cases hname
    exact .entry _
  · rintro v hv ⟨u₀, hu₀, hnamed⟩ ⟨target, candidate⟩ hp u hu id name hname
    obtain ⟨edge, hedge, -, rfl⟩ := mem_proposals.1 hp
    rw [NameTable.get?_propose] at hname
    split_ifs at hname with heq
    · have hparent := hu₀ _ _ hnamed
      obtain hkept | hcandidate | hindex := renamed_cases (u.get? target)
        (ModuleName.candidate v.name edge.specifier)
      · exact hu target name (hkept.trans hname)
      · cases hname
        rw [hcandidate]
        exact .required hparent (hvs v hv) hedge
      · cases hname
        rw [hindex]
        exact .index hparent (hvs v hv) hedge
    · exact hu id name hname

theorem mem_entries_seedAll_cases {place : Nat} {t : NameTable}
    (h : name ∈ (seedAll names place ids t).entries) :
    name ∈ t.entries ∨ ∃ place, name = ModuleName.entryAt names place := by
  induction ids generalizing place t with
  | nil => exact .inl h
  | cons id ids ih =>
    obtain h | h := ih h
    · unfold NameTable.seed at h
      split at h
      · exact .inl h
      · obtain h | h := List.mem_append.1 h
        · exact .inl h
        · exact .inr ⟨place, List.mem_singleton.1 h⟩
    · exact .inr h

theorem proposed_of_resolve (h : (resolve file names b).outcome = .ok table) :
    ∃ sources, b.sources file = .ok sources ∧
      (∀ id name, table.get? id = some name → Proposed names sources name) ∧
      ∀ name ∈ table.entries, Proposed names sources name := by
  obtain ⟨sources, ids, hs, hids⟩ := exists_ids_of_resolve h
  obtain ⟨_, heq, ⟨vs, deferred, hvs, hperm, -⟩, -⟩ | ⟨_, _, _, herror, -⟩ :=
    resolve_cases names hs hids
  · cases h.symm.trans heq
    refine ⟨sources, hs, proposed_of_visits (fun v hv => ?_) hvs, fun name hname => ?_⟩
    · exact hperm.mem_iff.1 (List.mem_append_left _ (List.mem_map_of_mem hv))
    · rw [hvs.eq_proposeAll, NameTable.entries_proposeAll] at hname
      obtain hnone | ⟨place, rfl⟩ := mem_entries_seedAll_cases hname
      · cases hnone
      · exact .entry place
  · rw [h] at herror
    cases herror

end Naming

/-! ## Names that lead out of the directory -/

namespace ModuleName

/-- The file of a module is below the directory from which its path is taken. -/
def IsContained (name : String) : Prop :=
  Path.Descends (name.toList ++ script)

theorem isContained_of_slash_notMem {name : String} (h : '/' ∉ name.toList) : IsContained name := by
  have hslash : '/' ∉ name.toList ++ script := by
    rw [List.mem_append, not_or]
    exact ⟨h, by decide⟩
  have habsolute : Path.isAbsolute (name.toList ++ script) = false := by
    by_contra hne
    rw [Bool.not_eq_false, Path.isAbsolute_iff] at hne
    exact hslash (List.mem_of_mem_head? hne)
  have hne := parts_script_ne_nil name.toList
  refine Path.descends_iff.2 ⟨habsolute, ?_⟩
  rw [Path.parts, habsolute, Path.components, splitOn_eq_singleton hslash] at hne ⊢
  obtain heq | heq | heq | hname := Path.component_cases hslash
  · simp [script] at heq
  · rw [heq] at hne
    exact absurd rfl hne
  · have hlength := congrArg List.length heq
    simp [script, Path.up] at hlength
  · rw [Path.walk_name hname, List.nil_append, List.mem_singleton]
    exact Ne.symm hname.ne_up

/-- A specifier by which a module that is below the directory leads out of it. -/
def LeadsOut (parent specifier : String) : Prop :=
  IsContained parent ∧ ¬ (IsContained (candidate parent specifier) ∧
    IsContained (NameTable.indexOf (candidate parent specifier)))

end ModuleName

namespace Naming

/-- Names lead out of the directory only because of a specifier that does. -/
theorem Proposed.isContained_or {sources : Sources} {name : String}
    (h : Proposed ModuleName.entryNames sources name) :
    ModuleName.IsContained name ∨ ∃ parent, Proposed ModuleName.entryNames sources parent ∧
      ∃ p ∈ sources, ∃ edge ∈ p.2.edges, ModuleName.LeadsOut parent edge.specifier := by
  induction h with
  | entry place =>
    exact .inl (ModuleName.isContained_of_slash_notMem (ModuleName.slash_notMem_entryAt place))
  | @required name p edge parent inside requires ih =>
    obtain hparent | hout := ih
    · by_cases hchild : ModuleName.IsContained (ModuleName.candidate name edge.specifier)
      · exact .inl hchild
      · exact .inr ⟨name, parent, p, inside, edge, requires, hparent, fun h => hchild h.1⟩
    · exact .inr hout
  | @index name p edge parent inside requires ih =>
    obtain hparent | hout := ih
    · by_cases hchild : ModuleName.IsContained
          (NameTable.indexOf (ModuleName.candidate name edge.specifier))
      · exact .inl hchild
      · exact .inr ⟨name, parent, p, inside, edge, requires, hparent, fun h => hchild h.2⟩
    · exact .inr hout

end Naming

/-! ## Files of a run -/

namespace Run

variable {cwd file text : String} {options : Options} {plan : Plan}

theorem plan_eq_ok (h : (Run.plan cwd file text options).outcome = .ok plan) :
    ∃ t resolved call b table a, (parse file text).result = .ok t ∧ t.resolve = .ok resolved ∧
      Bundle.kernel? file resolved = .ok (some call) ∧ Bundle.ofKernel file call = .ok b ∧
      (Naming.resolve file options.entryNames b).outcome = .ok table ∧
      (Assembly.ofBundle cwd file table b).outcome = .ok a ∧
      plan.programs.map Prod.fst = a.modules.map Prod.fst := by
  have hmapped : ∀ {ε δ α : Type} {f : ε → δ} {r : Except ε α} {x : α},
      (Logged.ofExcept (r.mapError f)).outcome = .ok x → r = .ok x := by
    intro ε δ α f r x hr
    cases r with
    | error e => cases hr
    | ok y => cases hr; rfl
  obtain ⟨_, -, h⟩ := Logged.bind_eq_ok h
  obtain ⟨t, ht, h⟩ := Logged.bind_eq_ok h
  obtain ⟨resolved, hr, h⟩ := Logged.bind_eq_ok h
  obtain ⟨kernel, hkernel, h⟩ := Logged.bind_eq_ok (Logged.mapError_eq_ok h)
  cases kernel with
  | none => cases h
  | some call =>
    obtain ⟨b, hb, h⟩ := Logged.bind_eq_ok h
    obtain ⟨table, htable, h⟩ := Logged.bind_eq_ok h
    obtain ⟨_, -, h⟩ := Logged.bind_eq_ok h
    obtain ⟨a, ha, h⟩ := Logged.bind_eq_ok h
    obtain ⟨programs, hprograms, h⟩ := Logged.bind_eq_ok h
    cases h
    refine ⟨t, resolved, call, b, table, a, Logged.mapError_eq_ok ht, hmapped hr, hmapped hkernel,
      hmapped hb, htable, ha, ?_⟩
    have hnames := Logged.map_of_mapM_eq_ok Prod.fst Prod.fst (fun p q hq => by
      obtain ⟨_, -, hq⟩ := Logged.bind_eq_ok hq
      obtain ⟨_, -, hq⟩ := Logged.bind_eq_ok hq
      cases hq
      rfl) hprograms
    rw [hnames, Assembly.programs, List.map_map]
    rfl

theorem proposed_of_plan {b : Bundle} {table : NameTable} {a : Assembly} {names : List String}
    (hrun : (Naming.resolve file names b).outcome = .ok table)
    (ha : (Assembly.ofBundle cwd file table b).outcome = .ok a) :
    ∃ sources, b.sources file = .ok sources ∧
      ∀ name ∈ a.modules.map Prod.fst, Naming.Proposed names sources name := by
  obtain ⟨sources, hs, hnamed, hentries⟩ := Naming.proposed_of_resolve hrun
  obtain ⟨sources', hs', hfold⟩ := Assembly.foldlM_of_ofBundle ha
  cases hs.symm.trans hs'
  refine ⟨sources, hs, fun name hname => ?_⟩
  rw [Assembly.eq_foldl_of_foldlM hfold] at hname
  obtain ⟨⟨_, body⟩, hmem, rfl⟩ := List.mem_map.1 hname
  obtain ⟨hentry | ⟨p, -, hown⟩, -⟩ := Assembly.mem_modules_iff.1 hmem
  · exact hentries _ hentry
  · obtain ⟨hname, -⟩ : table.get? p.1 = some _ ∧ _ := by simpa [NameTable.isOwn] using hown
    exact hnamed p.1 _ hname

/-- The file of a module is inside of every directory to which modules are written if and only if its
name goes up no more often than down, up to every component of it. Names of entries do, and if another
name does not, then a module whose own file is inside requires something by a specifier that leads out
of the directory. -/
theorem isInside_modulePath_iff (hnames : options.entryNames = ModuleName.entryNames)
    (h : (Run.plan cwd file text options).outcome = .ok plan) :
    ∃ t resolved call b sources, (parse file text).result = .ok t ∧ t.resolve = .ok resolved ∧
      Bundle.kernel? file resolved = .ok (some call) ∧ Bundle.ofKernel file call = .ok b ∧
      b.sources file = .ok sources ∧
      ∀ name ∈ plan.programs.map Prod.fst,
        ((∀ directory : String, Path.IsInside directory.toList (modulePath directory name).toList) ↔
          ModuleName.IsContained name) ∧
        (ModuleName.IsContained name ∨
          ∃ parent, Naming.Proposed ModuleName.entryNames sources parent ∧
            ∃ p ∈ sources, ∃ edge ∈ p.2.edges, ModuleName.LeadsOut parent edge.specifier) := by
  obtain ⟨t, resolved, call, b, table, a, ht, hr, hkernel, hb, hrun, ha, hprograms⟩ := plan_eq_ok h
  rw [hnames] at hrun
  obtain ⟨sources, hs, hproposed⟩ := proposed_of_plan hrun ha
  refine ⟨t, resolved, call, b, sources, ht, hr, hkernel, hb, hs, fun name hname => ⟨?_, ?_⟩⟩
  · rw [ModuleName.IsContained, ← Path.isInside_join_iff (ModuleName.parts_script_ne_nil _)]
    constructor
    · intro hinside d
      simpa [modulePath] using hinside (String.ofList d)
    · intro hinside directory
      simpa [modulePath] using hinside directory.toList
  · exact (hproposed name (hprograms ▸ hname)).isContained_or

/-- A bundle whose entry requires a module above it. -/
def climbing : String :=
  "e(\x7b1:[function()\x7b\x7d,\x7b'../x':2\x7d],2:[function()\x7b\x7d,\x7b\x7d]\x7d,0,[1])"

theorem names_climbing :
    ((Run.plan "/w" "b.js" climbing {}).outcome.toOption.map fun plan =>
      plan.programs.map Prod.fst) = some ["main", "../x"] := by
  decide +kernel

/-- The module is written beside the directory. -/
theorem not_isInside_climbing :
    ∃ plan, (Run.plan "/w" "b.js" climbing {}).outcome = .ok plan ∧
      "../x" ∈ plan.programs.map Prod.fst ∧ modulePath "out" "../x" = "out/../x.js" ∧
      ¬ Path.IsInside "out".toList (modulePath "out" "../x").toList := by
  obtain ⟨plan, hplan, hprograms⟩ := Option.map_eq_some_iff.1 names_climbing
  refine ⟨plan, eq_ok_of_toOption hplan, by rw [hprograms]; decide, by decide +kernel, ?_⟩
  rintro ⟨-, rest, -, -, hparts⟩
  have hhead := congrArg List.head? hparts
  have hpath : (Path.parts (modulePath "out" "../x").toList).head? = some "x.js".toList := by
    decide +kernel
  have hdirectory : Path.parts "out".toList = ["out".toList] := by decide +kernel
  rw [hpath, hdirectory] at hhead
  exact absurd (Option.some.inj hhead) (by decide)

/-- A bundle whose modules require each other up and down. -/
def wandering : String :=
  "e(\x7b1:[function()\x7b\x7d,\x7b'./a/b':2\x7d],2:[function()\x7b\x7d,\x7b'../c':3\x7d]," ++
    "3:[function()\x7b\x7d,\x7b\x7d]\x7d,0,[1])"

theorem names_wandering :
    ((Run.plan "/w" "b.js" wandering {}).outcome.toOption.map fun plan =>
      plan.programs.map Prod.fst) = some ["main", "a/b", "c"] := by
  decide +kernel

theorem isInside_modulePath_wandering :
    ∃ plan, (Run.plan "/w" "b.js" wandering {}).outcome = .ok plan ∧
      plan.programs.map Prod.fst = ["main", "a/b", "c"] ∧
      ∀ name ∈ plan.programs.map Prod.fst, ∀ directory : String,
        Path.IsInside directory.toList (modulePath directory name).toList := by
  obtain ⟨plan, hplan, hprograms⟩ := Option.map_eq_some_iff.1 names_wandering
  have hok := eq_ok_of_toOption hplan
  obtain ⟨_, _, _, _, _, -, -, -, -, -, hinside⟩ := isInside_modulePath_iff rfl hok
  refine ⟨plan, hok, hprograms, fun name hname => (hinside name hname).1.2 ?_⟩
  have hcontained : ∀ name ∈ ["main", "a/b", "c"],
      Path.isAbsolute (name.toList ++ ModuleName.script) = false ∧
        Path.up ∉ Path.parts (name.toList ++ ModuleName.script) := by
    decide +kernel
  exact Path.descends_iff.2 (hcontained name (hprograms ▸ hname))

end Run

end Debundle
