import Debundle.Proofs.Bundle.Entries

/-!
# What is named can be assembled

The modules with a name are closed under the edges that lead to a module, and each of these edges can
be read. So the record of every module with a name can be made, and assembling a bundle under the
names that were found for it reports no problem (`ofBundle_of_resolve`). What is left is a `require`
call for a module whose name is nothing but an extension.
-/
namespace Debundle

namespace Naming

variable {file : Option String} {names : List String} {b : Bundle} {table : NameTable}
variable {sources : Sources}

/-- The edges of a module that lead to modules which have names. -/
def Closed (table : NameTable) (source : Source) : Prop :=
  ∀ edge ∈ source.edges, ∃ target?, edge.target = .ok target? ∧
    ∀ target, target? = some target → (table.get? target).isSome = true

theorem closed_of_resolve (hs : b.sources file = .ok sources)
    (h : (resolve file names b).outcome = .ok table) {p : String × Source} (hp : p ∈ sources)
    (hname : (table.get? p.1).isSome = true) : Closed table p.2 := by
  obtain ⟨sources', ids, hs', hids⟩ := exists_ids_of_resolve h
  cases hs.symm.trans hs'
  obtain ⟨_, heq, -, hnamed, hclean⟩ | ⟨_, _, _, herror, -⟩ := resolve_cases names hs hids
  · cases h.symm.trans heq
    intro edge he
    have hr : Reached sources ids p.1 := (hnamed p.1).1 hname
    have hedge : EdgeOf sources p.1 edge :=
      ⟨p.2, (Ordered.get?_eq_some_iff (nodup_keys_sources hs)).2 hp, he⟩
    cases htarget : edge.target with
    | error fault =>
      cases eq_oversizedId_of_mem he htarget
      exact absurd htarget (hclean p.1 edge hr hedge).2
    | ok target? =>
      refine ⟨target?, rfl, ?_⟩
      rintro target rfl
      exact (hnamed target).2 (.edge hr hedge htarget)
  · rw [h] at herror
    cases herror

end Naming

/-! ## Records and programs -/

namespace Source

variable {table : NameTable}

theorem exists_targets (file : Option String) (name : String) (line : Option Nat)
    {edges : List Edge} (h : ∀ edge ∈ edges, ∃ target?, edge.target = .ok target? ∧
      ∀ target, target? = some target → (table.get? target).isSome = true) :
    ∃ requires, (targets file table name line edges).outcome = .ok requires ∧
      ∀ pair ∈ requires, ∃ id, table.get? id = some pair.2 := by
  induction edges with
  | nil => exact ⟨[], rfl, nofun⟩
  | cons edge edges ih =>
    obtain ⟨⟨target?, htarget, hnamed⟩, hrest⟩ := List.forall_mem_cons.1 h
    obtain ⟨requires, hrequires, hnames⟩ := ih hrest
    cases target? with
    | none =>
      refine ⟨requires, ?_, hnames⟩
      rw [targets]
      simp only [htarget]
      rw [Logged.outcome_bind, hrequires]
      rfl
    | some target =>
      obtain ⟨targetName, hname⟩ := Option.isSome_iff_exists.1 (hnamed target rfl)
      refine ⟨(edge.specifier, targetName) :: requires, ?_,
        List.forall_mem_cons.2 ⟨⟨target, hname⟩, hnames⟩⟩
      rw [targets]
      simp only [htarget, hname]
      rw [Logged.outcome_bind, hrequires]
      rfl

theorem exists_record (file : Option String) {id name : String} {s : Source}
    (hname : table.get? id = some name) (h : Naming.Closed table s) :
    ∃ r, (s.record file table id).outcome = .ok r ∧
      ∀ pair ∈ r.requires, ∃ id, table.get? id = some pair.2 := by
  obtain ⟨requires, hrequires, hnames⟩ := exists_targets file name s.requires.line h
  refine ⟨⟨id, name, s.function, requires⟩, ?_, hnames⟩
  simp only [record, hname]
  rw [Logged.outcome_bind, hrequires]
  rfl

end Source

namespace ModuleRecord

variable {cwd : String} {r : ModuleRecord}

theorem specifier?_eq_none {source target : String}
    (h : ModuleName.specifier? cwd source target = none) :
    ModuleName.stripExtension target = "" := by
  rw [ModuleName.specifier?, Option.map_eq_none_iff, Path.relative?] at h
  split_ifs at h with hempty
  rw [ModuleName.stripExtension, hempty]

theorem program_cases (cwd : String) (r : ModuleRecord) :
    (∃ body, r.program cwd = .ok body) ∨
      r.program cwd = .error .namelessTarget ∧
        ∃ pair ∈ r.requires, ModuleName.stripExtension pair.2 = "" := by
  rw [program]
  split_ifs with hnameless
  · refine .inr ⟨rfl, ?_⟩
    obtain ⟨statement, -, hnameless⟩ := List.any_eq_true.1 hnameless
    obtain ⟨n, -, hn⟩ := List.any_eq_true.1 hnameless
    unfold requiresNameless at hn
    split at hn
    · rename_i target htarget
      obtain ⟨specifier, -, htarget⟩ := Option.bind_eq_some_iff.1 htarget
      unfold ownTarget? at htarget
      split at htarget
      · cases htarget
      · rename_i found hfound
        split_ifs at htarget
        cases htarget
        have hmem := List.mem_reverse.1 (Ordered.mem_of_get? hfound)
        exact ⟨_, hmem, specifier?_eq_none (Option.isNone_iff_eq_none.1 hn)⟩
    · cases hn
  · exact .inl ⟨_, rfl⟩

end ModuleRecord

/-! ## Assembly -/

namespace Bundle

variable {file file' : Option String} {b : Bundle}

theorem source_anyFile {property : Node} {p : String × Source} (h : source file property = .ok p) :
    source file' property = .ok p := by
  unfold source at h ⊢
  split at h
  · dsimp only at h ⊢
    split at h
    · split at h
      · exact h
      · cases h
      · cases h
    · cases h
  · cases h

theorem mapM_source_eq_ok {properties : List Node} {pairs : List (String × Source)}
    (h : properties.mapM (source file) = .ok pairs) :
    properties.mapM (source file') = .ok pairs := by
  induction properties generalizing pairs with
  | nil => exact h
  | cons property properties ih =>
    rw [List.mapM_cons] at h ⊢
    cases hp : source file property with
    | error problem => rw [hp] at h; cases h
    | ok p =>
      cases hrest : properties.mapM (source file) with
      | error problem => rw [hp, hrest] at h; cases h
      | ok rest =>
        rw [hp, hrest] at h
        rw [source_anyFile hp, ih hrest]
        exact h

theorem sources_eq_ok {sources : Naming.Sources} (h : b.sources file = .ok sources) :
    b.sources file' = .ok sources := by
  unfold Bundle.sources at h ⊢
  cases hpairs : b.modules.mapM (source file) with
  | error problem => rw [hpairs] at h; cases h
  | ok pairs =>
    rw [hpairs] at h
    rw [mapM_source_eq_ok hpairs]
    exact h

end Bundle

namespace Assembly

variable (cwd : String) (file : Option String) {table : NameTable} (a : Assembly)

theorem add_cases_of_closed {p : String × Source}
    (h : (table.get? p.1).isSome = true → Naming.Closed table p.2) :
    (∃ a', (add cwd file table a p).outcome = .ok a') ∨
      (add cwd file table a p).outcome = .error .namelessTarget ∧
        ∃ id name, table.get? id = some name ∧ ModuleName.stripExtension name = "" := by
  obtain ⟨id, source⟩ := p
  cases hname : table.get? id with
  | none => exact .inl ⟨a, by simp only [add, hname]; rfl⟩
  | some name =>
    cases hkind : ModuleName.classify name with
    | builtin => exact .inl ⟨a, by simp only [add, hname, hkind]; rfl⟩
    | dependency => exact .inl ⟨_, by simp only [add, hname, hkind]; rfl⟩
    | own =>
      obtain ⟨r, hr, hnames⟩ := Source.exists_record file (s := source) hname
        (h (Option.isSome_of_mem hname))
      have hrun : (add cwd file table a (id, source)).outcome =
          (r.program cwd).bind fun body => .ok (a.append r.name body) := by
        simp only [add, hname, hkind, Logged.outcome_bind, hr, Logged.outcome_ofExcept]
        rfl
      obtain ⟨body, hbody⟩ | ⟨herror, pair, hpair, hempty⟩ := r.program_cases cwd
      · exact .inl ⟨_, by rw [hrun, hbody]; rfl⟩
      · obtain ⟨other, hother⟩ := hnames pair hpair
        exact .inr ⟨by rw [hrun, herror]; rfl, other, pair.2, hother, hempty⟩

theorem foldlM_cases_of_closed {sources : Naming.Sources}
    (h : ∀ p ∈ sources, (table.get? p.1).isSome = true → Naming.Closed table p.2) :
    (∃ a', (sources.foldlM (add cwd file table) a).outcome = .ok a') ∨
      (sources.foldlM (add cwd file table) a).outcome = .error .namelessTarget ∧
        ∃ id name, table.get? id = some name ∧ ModuleName.stripExtension name = "" := by
  induction sources generalizing a with
  | nil => exact .inl ⟨a, rfl⟩
  | cons p sources ih =>
    obtain ⟨hp, hrest⟩ := List.forall_mem_cons.1 h
    rw [List.foldlM_cons, Logged.outcome_bind]
    obtain ⟨a', ha'⟩ | ⟨herror, hempty⟩ := add_cases_of_closed cwd file a hp
    · rw [ha']
      exact ih a' hrest
    · rw [herror]
      exact .inr ⟨rfl, hempty⟩

/-- A bundle is assembled under the names that were found for it without any problem to report. It
is assembled in full unless a module has a name that is only an extension, and a call requires that
module. -/
theorem ofBundle_of_resolve {file' : Option String} {names known : List String} {b : Bundle}
    (h : (Naming.resolve file' names b).outcome = .ok table) :
    (∀ problem, (ofBundle cwd file table b known).outcome ≠ .error (.problem problem)) ∧
      ((∃ a, (ofBundle cwd file table b known).outcome = .ok a) ∨
        (ofBundle cwd file table b known).outcome = .error .namelessTarget ∧
          ∃ id name, table.get? id = some name ∧ ModuleName.stripExtension name = "") := by
  obtain ⟨sources, ids, hs, -⟩ := Naming.exists_ids_of_resolve h
  have hrun : (ofBundle cwd file table b known).outcome =
      (sources.foldlM (add cwd file table) (start table known)).outcome := by
    rw [ofBundle, Bundle.sources_eq_ok hs]
    rfl
  rw [hrun]
  have hcases := foldlM_cases_of_closed cwd file (start table known)
    fun p hp => Naming.closed_of_resolve hs h hp
  refine ⟨fun problem heq => ?_, hcases⟩
  obtain ⟨a, ha⟩ | ⟨herror, -⟩ := hcases
  · rw [ha] at heq
    cases heq
  · rw [herror] at heq
    cases heq

/-- The modules of `Naming.cyclic` require each other, and one that no module requires has an edge that
dangles. -/
theorem ofBundle_of_resolve_cyclic :
    ∃ table, (Naming.resolve none ModuleName.entryNames Naming.cyclic).outcome = .ok table ∧
      table.get? "3" = none ∧
      (∀ problem, (ofBundle "/" none table Naming.cyclic).outcome ≠ .error (.problem problem)) ∧
      ∃ a, (ofBundle "/" none table Naming.cyclic).outcome = .ok a := by
  obtain ⟨table, hrun, hthree, hnames⟩ :
      ∃ table, (Naming.resolve none ModuleName.entryNames Naming.cyclic).outcome = .ok table ∧
        table.get? "3" = none ∧ table.names = [("1", "main"), ("2", "b")] := ⟨_, rfl, rfl, rfl⟩
  obtain ⟨hproblem, hok | ⟨-, id, name, hname, hempty⟩⟩ :=
    ofBundle_of_resolve "/" none hrun
  · exact ⟨table, hrun, hthree, hproblem, hok⟩
  · have hmem := Ordered.mem_of_get? hname
    rw [hnames] at hmem
    simp only [List.mem_cons, Prod.mk.injEq, List.not_mem_nil, or_false] at hmem
    have hnot : ModuleName.stripExtension "main" ≠ "" ∧ ModuleName.stripExtension "b" ≠ "" := by
      decide
    obtain ⟨-, rfl⟩ | ⟨-, rfl⟩ := hmem
    · exact absurd hempty hnot.1
    · exact absurd hempty hnot.2

end Assembly

end Debundle
