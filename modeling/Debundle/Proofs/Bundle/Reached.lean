import Debundle.Proofs.Bundle.Visits

/-!
# Modules that the entries reach

A module is reached if it is an entry, or if a module that is reached requires it. Naming succeeds
exactly if every edge of a reached module leads to a module of the bundle, and then the modules with
a name are exactly the reached ones (`resolve_reached`), in whatever order the modules stand and
whatever cycles they form.
-/
namespace Debundle

namespace Naming

/-- The edges of the module with an id. -/
def EdgeOf (sources : Sources) (id : String) (edge : Edge) : Prop :=
  ∃ source, Ordered.get? id sources = some source ∧ edge ∈ source.edges

/-- The ids that can be reached from the entries along the edges of modules. -/
inductive Reached (sources : Sources) (entries : List String) : String → Prop
  | entry {id : String} (h : id ∈ entries) : Reached sources entries id
  | edge {id target : String} {edge : Edge} (h : Reached sources entries id)
      (he : EdgeOf sources id edge) (ht : edge.target = .ok (some target)) :
      Reached sources entries target

/-- An edge to an id that no module has. -/
def Dangles (sources : Sources) (edge : Edge) : Prop :=
  ∃ target, edge.target = .ok (some target) ∧ Ordered.get? target sources = none

/-- An edge whose target is a number too large to be written as an id. -/
def IsUnreadable (edge : Edge) : Prop :=
  edge.target = .error .oversizedId

/-! ## Seeding -/

/-- Gives the entries their names; the first of them has a given place. -/
def seedAll (names : List String) : Nat → List String → NameTable → NameTable
  | _, [], t => t
  | place, id :: ids, t =>
    seedAll names (place + 1) ids (t.seed id (ModuleName.entryAt names place))

/-- The table that has only the entries. -/
def seeded (names ids : List String) : NameTable :=
  seedAll names 0 ids {}

theorem get?_seed (t : NameTable) (id name other : String) :
    (t.seed id name).get? other = (t.get? other).or (if id = other then some name else none) := by
  unfold NameTable.seed
  cases hid : t.get? id with
  | some existing =>
    dsimp only
    split_ifs with heq
    · rw [← heq, hid, Option.some_or]
    · rw [Option.or_none]
  | none =>
    have hput : (NameTable.mk (Ordered.put id name t.names) (t.entries ++ [name])
        t.warnings).get? other = if id = other then some name else t.get? other :=
      Ordered.get?_put ..
    dsimp only
    rw [hput]
    split_ifs with heq
    · rw [← heq, hid, Option.none_or]
    · rw [Option.or_none]

theorem get?_seedAll (names : List String) (place : Nat) (ids : List String) (t : NameTable)
    (id : String) :
    (seedAll names place ids t).get? id = (t.get? id).or
      (if id ∈ ids then some (ModuleName.entryAt names (place + ids.idxOf id)) else none) := by
  induction ids generalizing place t with
  | nil => simp [seedAll]
  | cons first ids ih =>
    rw [seedAll, ih, get?_seed, Option.or_assoc]
    by_cases heq : first = id
    · subst heq
      simp
    · have hmem : id ∈ first :: ids ↔ id ∈ ids := by simp [Ne.symm heq]
      simp only [heq, if_false, Option.none_or, hmem, List.idxOf_cons_ne ids heq]
      rw [Nat.add_right_comm, Nat.add_assoc]

theorem get?_seeded (names ids : List String) (id : String) :
    (seeded names ids).get? id =
      if id ∈ ids then some (ModuleName.entryAt names (ids.idxOf id)) else none := by
  rw [seeded, get?_seedAll]
  simp [NameTable.get?, Ordered.get?]

theorem warnings_seedAll (names : List String) (place : Nat) (ids : List String) (t : NameTable) :
    (seedAll names place ids t).warnings = t.warnings := by
  induction ids generalizing place t with
  | nil => rfl
  | cons id ids ih =>
    rw [seedAll, ih]
    unfold NameTable.seed
    split <;> rfl

theorem seedEntries_eq {file : Option String} {names : List String} {entries : List Node}
    {ids : List String} (h : entries.map Bundle.id? = ids.map fun id => .ok (some id))
    (place : Nat) (t : NameTable) :
    seedEntries file names place entries t = .ok (seedAll names place ids t) := by
  induction entries generalizing ids place t with
  | nil =>
    cases ids with
    | nil => rfl
    | cons id ids => cases h
  | cons entry entries ih =>
    cases ids with
    | nil => cases h
    | cons id ids =>
      obtain ⟨hid, hrest⟩ := List.cons.inj h
      rw [seedEntries, hid]
      exact ih hrest (place + 1) _

/-! ## Runs from the entries -/

variable {file : Option String} {names ids : List String} {b : Bundle} {sources : Sources}
variable {t : NameTable} {fault : BundleFault}

theorem nodup_keys_sources (hs : b.sources file = .ok sources) :
    (sources.map Prod.fst).Nodup := by
  unfold Bundle.sources at hs
  cases hpairs : b.modules.mapM (Bundle.source file) with
  | error e => rw [hpairs] at hs; cases hs
  | ok pairs =>
    rw [hpairs] at hs
    cases hs
    exact Ordered.nodup_keys_ofList pairs

theorem outcome_resolve (hs : b.sources file = .ok sources)
    (hids : b.entries.map Bundle.id? = ids.map fun id => .ok (some id)) :
    (resolve file names b).outcome =
      (passes ⟨file, sources⟩ sources.length sources (seeded names ids)).outcome := by
  rw [resolve, Logged.outcome_bind, Logged.outcome_ofExcept, hs]
  change (Logged.ofExcept (seedEntries file names 0 b.entries {}) >>= _).outcome = _
  rw [Logged.outcome_bind, Logged.outcome_ofExcept, seedEntries_eq hids]
  rfl

theorem reached_of_visits {vs : List Visit} (hd : (sources.map Prod.fst).Nodup)
    (h : Visits ⟨file, sources⟩ (seeded names ids) vs t) (hvs : ∀ v ∈ vs, v.entry ∈ sources)
    {id : String} (hid : (t.get? id).isSome = true) : Reached sources ids id := by
  refine h.invariant (I := fun t => ∀ id, (t.get? id).isSome = true → Reached sources ids id)
    (fun id hid => ?_) (fun v hv => ?_) id hid
  · rw [get?_seeded] at hid
    split_ifs at hid with hmem
    · exact .entry hmem
    · cases hid
  · rintro ⟨u, hu, hname⟩ ⟨target, candidate⟩ hp u' hu' other hother
    obtain ⟨edge, he, ht, -⟩ := mem_proposals.1 hp
    have hv : Reached sources ids v.id := hu v.id (by rw [hname]; rfl)
    rw [NameTable.get?_propose] at hother
    split_ifs at hother with heq
    · subst heq
      exact .edge hv ⟨v.source, (Ordered.get?_eq_some_iff hd).2 (hvs v ‹_›), he⟩ ht
    · exact hu' other hother

theorem Ends.complete (h : Ends ⟨file, sources⟩ sources (seeded names ids) t) {id : String}
    (hr : Reached sources ids id) : (t.get? id).isSome = true := by
  obtain ⟨vs, deferred, hvs, hperm, hnone⟩ := h
  induction hr with
  | entry hmem => exact hvs.isSome_get? (.inl (by rw [get?_seeded, if_pos hmem]; rfl))
  | edge _ he ht ih =>
    obtain ⟨source, hsource, hedge⟩ := he
    have hmem := hperm.symm.subset (Ordered.mem_of_get? hsource)
    obtain hmem | hmem := List.mem_append.1 hmem
    · obtain ⟨v, hv, heq⟩ := List.mem_map.1 hmem
      cases heq
      have hp := mem_proposals.2 ⟨_, hedge, ht, rfl⟩
      exact hvs.isSome_get? (.inr ⟨v, hv, List.mem_map_of_mem (f := Prod.fst) hp⟩)
    · rw [hnone _ hmem] at ih
      cases ih

theorem Ends.clean {ctx : Context} {pending : Sources} {t₀ : NameTable}
    (h : Ends ctx pending t₀ t) {id : String} {source : Source} (hmem : (id, source) ∈ pending)
    (hid : (t.get? id).isSome = true) :
    ∃ name, ∀ edge ∈ source.edges, fault? ctx source.requires.line name edge = none := by
  obtain ⟨vs, deferred, hvs, hperm, hnone⟩ := h
  obtain hmem | hmem := List.mem_append.1 (hperm.symm.subset hmem)
  · obtain ⟨v, hv, heq⟩ := List.mem_map.1 hmem
    cases heq
    exact ⟨v.name, List.findSome?_eq_none_iff.1 (hvs.clean v hv)⟩
  · rw [hnone _ hmem] at hid
    cases hid

/-! ## Edges at fault -/

theorem id?_eq_error {n : Node} (h : Bundle.id? n = .error fault) : fault = .oversizedId := by
  unfold Bundle.id? at h
  dsimp only at h
  split at h
  · cases h
  · split at h <;> cases h
    rfl
  · split at h
    · split at h <;> cases h
      rfl
    · split at h <;> cases h
      rfl
  · cases h

theorem eq_oversizedId_of_mem {source : Source} {edge : Edge} (he : edge ∈ source.edges)
    (h : edge.target = .error fault) : fault = .oversizedId := by
  unfold Source.edges at he
  split at he
  · obtain ⟨property, -, rfl⟩ := List.mem_map.1 he
    split at h
    · exact id?_eq_error h
    · cases h
  · cases he

theorem fault?_eq_some {ctx : Context} {line : Option Nat} {name : String} {source : Source}
    {edge : Edge} (he : edge ∈ source.edges) (h : fault? ctx line name edge = some fault) :
    (Dangles ctx.sources edge ∧ ∃ target, fault = .problem
        { cause := .absentModule name edge.specifier target, file := ctx.file, line := line }) ∨
      IsUnreadable edge ∧ fault = .oversizedId := by
  unfold fault? at h
  split at h
  · rename_i htarget
    cases h
    cases eq_oversizedId_of_mem he htarget
    exact .inr ⟨htarget, rfl⟩
  · cases h
  · rename_i target htarget
    split_ifs at h with hkey
    cases h
    exact .inl ⟨⟨target, htarget, by simpa using hkey⟩, target, rfl⟩

theorem fault?_eq_none {ctx : Context} {line : Option Nat} {name : String} {edge : Edge}
    (h : fault? ctx line name edge = none) :
    ¬ Dangles ctx.sources edge ∧ ¬ IsUnreadable edge := by
  constructor
  · rintro ⟨target, htarget, hnone⟩
    simp [fault?, htarget, hnone] at h
  · intro hu
    rw [IsUnreadable] at hu
    simp [fault?, hu] at h

/-- How naming ends. It gives names to exactly the reached modules if no edge of theirs is at fault,
and otherwise it stops at such an edge. -/
theorem resolve_cases (names : List String) (hs : b.sources file = .ok sources)
    (hids : b.entries.map Bundle.id? = ids.map fun id => .ok (some id)) :
    (∃ table, (resolve file names b).outcome = .ok table ∧
      Ends ⟨file, sources⟩ sources (seeded names ids) table ∧
      (∀ id, (table.get? id).isSome = true ↔ Reached sources ids id) ∧
      ∀ id edge, Reached sources ids id → EdgeOf sources id edge →
        ¬ Dangles sources edge ∧ ¬ IsUnreadable edge) ∨
    ∃ id edge fault, (resolve file names b).outcome = .error fault ∧ Reached sources ids id ∧
      EdgeOf sources id edge ∧
      ((Dangles sources edge ∧ ∃ name target line, fault = .problem
        { cause := .absentModule name edge.specifier target, file := file, line := line }) ∨
      IsUnreadable edge ∧ fault = .oversizedId) := by
  have hd := nodup_keys_sources hs
  rw [outcome_resolve hs hids]
  cases hrun : (passes ⟨file, sources⟩ sources.length sources (seeded names ids)).outcome with
  | ok table =>
    have hends := passes_ok (Nat.le_refl _) hrun
    refine .inl ⟨table, rfl, hends, fun id => ⟨fun hid => ?_, hends.complete⟩,
      fun id edge hr he => ?_⟩
    · obtain ⟨vs, deferred, hvs, hperm, -⟩ := hends
      exact reached_of_visits hd hvs (fun v hv =>
        hperm.subset (List.mem_append_left _ (List.mem_map_of_mem hv))) hid
    · obtain ⟨source, hsource, he⟩ := he
      obtain ⟨name, hclean⟩ := hends.clean (Ordered.mem_of_get? hsource) (hends.complete hr)
      exact fault?_eq_none (hclean edge he)
  | error fault =>
    obtain ⟨vs, v, t, hvs, hmem, hname, hfault⟩ := passes_error hrun
    rw [List.forall_mem_cons] at hmem
    obtain ⟨edge, he, hfault⟩ := List.exists_of_findSome?_eq_some hfault
    have hr : Reached sources ids v.id := reached_of_visits hd hvs hmem.2 (by rw [hname]; rfl)
    refine .inr ⟨v.id, edge, fault, rfl, hr,
      ⟨v.source, (Ordered.get?_eq_some_iff hd).2 hmem.1, he⟩, ?_⟩
    obtain ⟨hdangles, target, hf⟩ | hu := fault?_eq_some he hfault
    · exact .inl ⟨hdangles, v.name, target, v.source.requires.line, hf⟩
    · exact .inr hu

/-- Naming succeeds exactly if every edge of a reached module leads to a module of the bundle, and
then the reached modules are the ones with a name. If all ids of reached modules can be read, naming
reports an unresolved module exactly if an edge of a reached module dangles; it fails in no other
way, except for an id that cannot be read. -/
theorem resolve_reached (hs : b.sources file = .ok sources)
    (hids : b.entries.map Bundle.id? = ids.map fun id => .ok (some id)) :
    ((∃ table, (resolve file names b).outcome = .ok table) ↔
      ∀ id edge, Reached sources ids id → EdgeOf sources id edge →
        ¬ Dangles sources edge ∧ ¬ IsUnreadable edge) ∧
    (∀ table, (resolve file names b).outcome = .ok table →
      ∀ id, (table.get? id).isSome = true ↔ Reached sources ids id) ∧
    ((∀ id edge, Reached sources ids id → EdgeOf sources id edge → ¬ IsUnreadable edge) →
      ((∃ p, (resolve file names b).outcome = .error (.problem p) ∧ p.cause.kind = .unresolved) ↔
        ∃ id edge, Reached sources ids id ∧ EdgeOf sources id edge ∧ Dangles sources edge)) ∧
    ∀ fault, (resolve file names b).outcome = .error fault →
      (∃ p, fault = .problem p ∧ p.cause.kind = .unresolved) ∨ fault = .oversizedId := by
  obtain ⟨table, heq, -, hnamed, hclean⟩ | ⟨id, edge, fault, heq, hr, he, hcause⟩ :=
    resolve_cases names hs hids
  · rw [heq]
    refine ⟨⟨fun _ => hclean, fun _ => ⟨table, rfl⟩⟩, ?_, fun _ => ⟨?_, ?_⟩, nofun⟩
    · rintro _ ⟨⟩
      exact hnamed
    · rintro ⟨p, ⟨⟩, -⟩
    · rintro ⟨id, edge, hr, he, hdangles⟩
      exact absurd hdangles (hclean id edge hr he).1
  · rw [heq]
    refine ⟨⟨nofun, fun hclean => ?_⟩, nofun, fun hreadable => ?_, ?_⟩
    · obtain ⟨hdangles, -⟩ | ⟨hu, -⟩ := hcause
      · exact absurd hdangles (hclean id edge hr he).1
      · exact absurd hu (hclean id edge hr he).2
    · obtain ⟨hdangles, name, target, line, rfl⟩ | ⟨hu, -⟩ := hcause
      · exact ⟨fun _ => ⟨id, edge, hr, he, hdangles⟩, fun _ => ⟨_, rfl, rfl⟩⟩
      · exact absurd hu (hreadable id edge hr he)
    · rintro _ ⟨⟩
      exact hcause.imp (fun ⟨_, name, target, line, hf⟩ => ⟨_, hf, rfl⟩) And.right

/-- A bundle given by what its modules require, where numbers are ids. The only statement of a module
is its key. -/
def sketch (modules : List (String × List (String × Int))) (entries : List Int) : Bundle :=
  let id := fun n => Node.mk none (.number (.whole n))
  let property := fun key value => Node.mk none (.property .keyValue key value)
  let function := fun key => Node.mk none
    (.function .expression none [] [.mk none (.simple (.mk none (.string key)))])
  let edges := fun requires => requires.map fun (specifier, n) => property specifier (id n)
  ⟨modules.map fun (key, requires) =>
      property key (.mk none (.array [function key, .mk none (.object (edges requires))])),
    entries.map id⟩

/-- Two modules that require each other, one of them also itself, and one that nothing requires; it
has an edge that dangles. -/
def cyclic : Bundle :=
  sketch [("3", [("./gone", 9)]), ("2", [("./main", 1), ("./b", 2)]), ("1", [("./b", 2)])] [1]

theorem resolve_reached_cyclic :
    ∃ sources, cyclic.sources none = .ok sources ∧
      (∃ table, (resolve none ModuleName.entryNames cyclic).outcome = .ok table) ∧
      ∀ table, (resolve none ModuleName.entryNames cyclic).outcome = .ok table →
        ∀ id, (table.get? id).isSome = true ↔ Reached sources ["1"] id :=
  ⟨_, rfl, ⟨_, rfl⟩, (resolve_reached rfl rfl).2.1⟩

/-- A bundle whose only module requires a module by a number of more than `Numeral.maxDigits`
digits. -/
def oversized : Bundle :=
  sketch [("1", [("./a", 10 ^ Numeral.maxDigits)])] [1]

/-- Naming fails, but not because of an unresolved module. -/
theorem resolve_oversized :
    (∃ sources, oversized.sources none = .ok sources) ∧
      oversized.entries.map Bundle.id? = ["1"].map (fun id => .ok (some id)) ∧
      (∀ table, (resolve none ModuleName.entryNames oversized).outcome ≠ .ok table) ∧
      ∀ p, (resolve none ModuleName.entryNames oversized).outcome ≠ .error (.problem p) := by
  have hrun : (match (resolve none ModuleName.entryNames oversized).outcome with
      | .error .oversizedId => true
      | _ => false) = true := by decide +kernel
  refine ⟨⟨_, rfl⟩, rfl, fun table heq => ?_, fun p heq => ?_⟩
  · rw [heq] at hrun
    cases hrun
  · rw [heq] at hrun
    cases hrun

end Naming

end Debundle
