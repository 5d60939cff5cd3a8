import Debundle.Proofs.Bundle.Reached
import Debundle.Proofs.Numeral.Digits
import Debundle.Bundle.Assembly

/-!
# Names and programs of entries

An entry loses the name that it was given if a visited module proposes a shorter one for it, and
only then. As long as it has its name, its program holds the statements of its module as one block
(`resolve_entry`).
-/
namespace Debundle

/-! ## Names without slashes -/

theorem splitOn_eq_singleton {separator : Char} {cs : List Char} (h : separator ∉ cs) :
    Text.splitOn separator cs = [cs] := by
  induction cs with
  | nil => rfl
  | cons c cs ih =>
    rw [List.mem_cons, not_or] at h
    rw [Text.splitOn, if_neg (Ne.symm h.1), ih h.2]

namespace ModuleName

theorem classify_of_slash_notMem {name : String} (h : '/' ∉ name.toList) : classify name = .own := by
  have hpackage : package? name = none := by
    rw [package?, packageChars?, Path.components, splitOn_eq_singleton h]
    rfl
  rw [classify, hpackage]

theorem slash_notMem_entryAt (place : Nat) : '/' ∉ (entryAt entryNames place).toList := by
  match place with
  | 0 => decide
  | 1 => decide
  | place + 2 =>
    have hname : entryAt entryNames (place + 2) = "entry" ++ toString (place + 2) := rfl
    obtain ⟨ds, hds, hlt, -⟩ := Numeral.exists_digits (b := 10) (by omega) (place + 2)
    have hdigits : (toString (place + 2)).toList = ds.map Nat.digitChar := by
      rw [← hds]
      exact String.toList_ofList
    rw [hname, String.toList_append, hdigits, List.mem_append, not_or]
    refine ⟨by decide, fun hmem => ?_⟩
    obtain ⟨d, hd, heq⟩ := List.mem_map.1 hmem
    have hne : ∀ d < 10, Nat.digitChar d ≠ '/' := by decide
    exact hne d (hlt d hd) heq

end ModuleName

/-! ## Names that are kept -/

namespace NameTable

/-- Proposed names that do not move a module which has a name without a slash: they differ only in
capitals, or they are not shorter. -/
def Spares (name candidate : String) : Prop :=
  Text.lower name = Text.lower candidate ∨ name.length ≤ candidate.length

instance (name candidate : String) : Decidable (Spares name candidate) :=
  inferInstanceAs (Decidable (_ ∨ _))

variable {name candidate : String}

theorem ne_indexOf (h : '/' ∉ name.toList) (candidate : String) : name ≠ indexOf candidate := by
  rintro rfl
  exact h (by simp [indexOf])

theorem renamed_eq_iff (h : '/' ∉ name.toList) (existing : String) :
    renamed (some existing) candidate = name ↔ existing = name ∧ Spares name candidate := by
  have hindex := ne_indexOf h candidate
  by_cases hname : existing = name
  · subst hname
    simp only [renamed, Spares, hindex, true_and]
    grind
  · simp only [renamed, hname, false_and, iff_false]
    grind

theorem entries_proposeAll (t : NameTable) (proposals : List (String × String)) :
    (t.proposeAll proposals).entries = t.entries :=
  proposeAll_invariant (I := fun u => u.entries = t.entries)
    (fun _ _ _ h => (entries_propose ..).trans h) rfl

/-- A name without a slash is never given anew, and it is kept if all proposals spare it. -/
theorem get?_proposeAll_eq_some_iff (h : '/' ∉ name.toList) {id : String}
    {proposals : List (String × String)} {t : NameTable} (hid : (t.get? id).isSome = true) :
    (t.proposeAll proposals).get? id = some name ↔
      t.get? id = some name ∧ ∀ candidate, (id, candidate) ∈ proposals → Spares name candidate := by
  induction proposals generalizing t with
  | nil => simp
  | cons p proposals ih =>
    obtain ⟨target, candidate⟩ := p
    obtain ⟨existing, hexisting⟩ := Option.isSome_iff_exists.1 hid
    rw [proposeAll_cons, ih (isSome_get?_propose (.inl hid)), get?_propose]
    split_ifs with heq
    · subst heq
      rw [hexisting, Option.some_inj, renamed_eq_iff h]
      grind
    · grind

end NameTable

/-! ## Programs of modules -/

theorem Source.record_ok {file : Option String} {table : NameTable} {id name : String} {s : Source}
    {r : ModuleRecord} (hname : table.get? id = some name)
    (h : (s.record file table id).outcome = .ok r) : r.name = name ∧ r.function = s.function := by
  simp only [record, hname] at h
  obtain ⟨requires, -, h⟩ := Logged.bind_eq_ok h
  cases h
  exact ⟨rfl, rfl⟩

theorem ModuleRecord.program_ok {cwd : String} {r : ModuleRecord} {body : List Node}
    (h : r.program cwd = .ok body) : body = (unwrap r.function).map (Node.relink (r.link cwd)) := by
  unfold program at h
  dsimp only at h
  split_ifs at h
  cases h
  rfl

namespace Assembly

variable {cwd : String} {file : Option String} {table : NameTable} {a a' : Assembly}
variable {name : String} {block : List Node}

/-- Statements that stand one after the other in the program with a name. -/
def Holds (a : Assembly) (name : String) (block : List Node) : Prop :=
  ∃ body, Ordered.get? name a.modules = some body ∧ block <:+: body

theorem get?_append (a : Assembly) (name other : String) (body : List Node) :
    Ordered.get? other (a.append name body).modules =
      if name = other then some ((Ordered.get? name a.modules).getD [] ++ body)
      else Ordered.get? other a.modules :=
  Ordered.get?_put ..

theorem holds_append (a : Assembly) (name : String) (body : List Node) :
    (a.append name body).Holds name body := by
  refine ⟨_, by rw [get?_append, if_pos rfl], ?_⟩
  exact (List.suffix_append _ body).isInfix

theorem Holds.append (h : a.Holds name block) (other : String) (body : List Node) :
    (a.append other body).Holds name block := by
  obtain ⟨whole, hget, hblock⟩ := h
  rw [Holds, get?_append]
  split_ifs with heq
  · subst heq
    rw [hget]
    exact ⟨_, rfl, hblock.trans (List.prefix_append whole body).isInfix⟩
  · exact ⟨whole, hget, hblock⟩

theorem add_cases {id : String} {source : Source}
    (h : (add cwd file table a (id, source)).outcome = .ok a') :
    (a'.modules = a.modules ∧ ∀ name, table.get? id = some name → ModuleName.classify name ≠ .own) ∨
    ∃ name r, table.get? id = some name ∧ (source.record file table id).outcome = .ok r ∧
      a' = a.append name ((ModuleRecord.unwrap source.function).map (Node.relink (r.link cwd))) := by
  rw [add] at h
  cases hname : table.get? id with
  | none =>
    simp only [hname] at h
    obtain ⟨_, -, h⟩ := Logged.bind_eq_ok h
    cases h
    exact .inl ⟨rfl, nofun⟩
  | some name =>
    simp only [hname] at h
    split at h
    · rename_i hkind
      obtain ⟨_, -, h⟩ := Logged.bind_eq_ok h
      cases h
      exact .inl ⟨rfl, by rintro _ ⟨⟩; rw [hkind]; exact nofun⟩
    · rename_i hkind
      obtain ⟨_, -, h⟩ := Logged.bind_eq_ok h
      cases h
      refine .inl ⟨?_, by rintro _ ⟨⟩; rw [hkind]; exact nofun⟩
      unfold depend
      split_ifs <;> rfl
    · obtain ⟨r, hr, h⟩ := Logged.bind_eq_ok h
      obtain ⟨body, hbody, h⟩ := Logged.bind_eq_ok h
      cases h
      obtain ⟨hrname, hfunction⟩ := Source.record_ok hname hr
      refine .inr ⟨name, r, rfl, hr, ?_⟩
      rw [ModuleRecord.program_ok hbody, hrname, hfunction]

theorem Holds.add {p : String × Source} (h : a.Holds name block)
    (hadd : (add cwd file table a p).outcome = .ok a') : a'.Holds name block := by
  obtain ⟨hsame, -⟩ | ⟨other, r, -, -, rfl⟩ := add_cases hadd
  · rw [Holds, hsame]
    exact h
  · exact h.append other _

theorem Holds.foldlM {sources : Naming.Sources} (h : a.Holds name block)
    (hadd : (sources.foldlM (Assembly.add cwd file table) a).outcome = .ok a') :
    a'.Holds name block := by
  induction sources generalizing a with
  | nil =>
    cases hadd
    exact h
  | cons p sources ih =>
    rw [List.foldlM_cons] at hadd
    obtain ⟨b, hb, hadd⟩ := Logged.bind_eq_ok hadd
    exact ih (h.add hb) hadd

theorem holds_of_mem {sources : Naming.Sources} {id : String} {source : Source}
    (hadd : (sources.foldlM (add cwd file table) a).outcome = .ok a') (hmem : (id, source) ∈ sources)
    (hname : table.get? id = some name) (hown : ModuleName.classify name = .own) :
    ∃ r, (source.record file table id).outcome = .ok r ∧
      a'.Holds name ((ModuleRecord.unwrap source.function).map (Node.relink (r.link cwd))) := by
  induction sources generalizing a with
  | nil => cases hmem
  | cons p sources ih =>
    rw [List.foldlM_cons] at hadd
    obtain ⟨b, hb, hadd⟩ := Logged.bind_eq_ok hadd
    obtain rfl | hmem := List.mem_cons.1 hmem
    · obtain ⟨-, hnot⟩ | ⟨_, r, hname', hr, rfl⟩ := add_cases hb
      · exact absurd hown (hnot name hname)
      · cases hname.symm.trans hname'
        exact ⟨r, hr, (holds_append a name _).foldlM hadd⟩
    · exact ih hadd hmem

end Assembly

namespace Naming

variable {cwd : String} {file : Option String} {names : List String} {b : Bundle}
variable {table : NameTable} {a : Assembly}

theorem mem_entries_seedAll {id name : String} {place : Nat} {ids : List String} {t : NameTable}
    (h : name ∈ t.entries ∨
      t.get? id = none ∧ id ∈ ids ∧ name = ModuleName.entryAt names (place + ids.idxOf id)) :
    name ∈ (seedAll names place ids t).entries := by
  induction ids generalizing place t with
  | nil => exact h.resolve_right fun h => List.not_mem_nil h.2.1
  | cons first ids ih =>
    have hkept : ∀ {x}, x ∈ t.entries →
        x ∈ (t.seed first (ModuleName.entryAt names place)).entries := by
      intro x hx
      unfold NameTable.seed
      split
      · exact hx
      · exact List.mem_append_left _ hx
    rw [seedAll]
    refine ih ?_
    obtain h | ⟨hnone, hmem, rfl⟩ := h
    · exact .inl (hkept h)
    · by_cases heq : first = id
      · subst heq
        refine .inl ?_
        simp [NameTable.seed, hnone]
      · refine .inr ⟨?_, (List.mem_cons.1 hmem).resolve_left (Ne.symm heq), ?_⟩
        · rw [get?_seed, hnone, if_neg heq]
          rfl
        · rw [List.idxOf_cons_ne ids heq, Nat.add_right_comm, Nat.add_assoc]

theorem exists_ids_of_seedEntries {entries : List Node} {place : Nat} {t t' : NameTable}
    (h : seedEntries file names place entries t = .ok t') :
    ∃ ids : List String, entries.map Bundle.id? = ids.map fun id => .ok (some id) := by
  induction entries generalizing place t with
  | nil => exact ⟨[], rfl⟩
  | cons entry entries ih =>
    rw [seedEntries] at h
    cases hid : Bundle.id? entry with
    | error fault => rw [hid] at h; cases h
    | ok id? =>
      rw [hid] at h
      cases id? with
      | none => cases h
      | some id =>
        obtain ⟨ids, hids⟩ := ih h
        exact ⟨id :: ids, by rw [List.map_cons, List.map_cons, hid, hids]⟩

theorem exists_ids_of_resolve (h : (resolve file names b).outcome = .ok table) :
    ∃ (sources : Sources) (ids : List String), b.sources file = .ok sources ∧
      b.entries.map Bundle.id? = ids.map fun id => .ok (some id) := by
  obtain ⟨sources, hs, h⟩ := Logged.bind_eq_ok h
  obtain ⟨t, ht, -⟩ := Logged.bind_eq_ok h
  obtain ⟨ids, hids⟩ := exists_ids_of_seedEntries ht
  refine ⟨sources, ids, ?_, hids⟩
  cases hsources : b.sources file with
  | error p => rw [hsources] at hs; cases hs
  | ok sources' => rw [hsources] at hs; cases hs; rfl

/-- The module with an entry's id is named by the first place of the entry, unless a visited module
proposed a shorter name that differs in more than capitals. As long as it is, its statements stand
as one block in the program with that name, which is one of the entry names. -/
theorem resolve_entry (hrun : (resolve file ModuleName.entryNames b).outcome = .ok table)
    (hassembled : (Assembly.ofBundle cwd file table b).outcome = .ok a) :
    ∃ (sources : Sources) (ids : List String) (vs : List Visit) (deferred : Sources),
      b.sources file = .ok sources ∧
      b.entries.map Bundle.id? = ids.map (fun id => .ok (some id)) ∧
      Visits ⟨file, sources⟩ (seeded ModuleName.entryNames ids) vs table ∧
      (vs.map Visit.entry ++ deferred).Perm sources ∧
      ∀ id ∈ ids, ∀ source, Ordered.get? id sources = some source →
        ∀ name, name = ModuleName.entryAt ModuleName.entryNames (ids.idxOf id) →
          name ∈ table.entries ∧
          (table.get? id = some name ↔ ∀ v ∈ vs, ∀ candidate,
            (id, candidate) ∈ v.proposals → NameTable.Spares name candidate) ∧
          (table.get? id = some name → ∃ r, (source.record file table id).outcome = .ok r ∧
            a.Holds name
              ((ModuleRecord.unwrap source.function).map (Node.relink (r.link cwd)))) := by
  obtain ⟨sources, ids, hs, hids⟩ := exists_ids_of_resolve hrun
  obtain ⟨_, heq, ⟨vs, deferred, hvs, hperm, -⟩, -⟩ | ⟨_, _, _, herror, -⟩ :=
    resolve_cases ModuleName.entryNames hs hids
  · cases hrun.symm.trans heq
    refine ⟨sources, ids, vs, deferred, hs, hids, hvs, hperm, ?_⟩
    rintro id hid source hsource name rfl
    have hslash := ModuleName.slash_notMem_entryAt (ids.idxOf id)
    have hseeded : (seeded ModuleName.entryNames ids).get? id =
        some (ModuleName.entryAt ModuleName.entryNames (ids.idxOf id)) := by
      rw [get?_seeded, if_pos hid]
    refine ⟨?_, ?_, fun hname => ?_⟩
    · rw [hvs.eq_proposeAll, NameTable.entries_proposeAll]
      exact mem_entries_seedAll (.inr ⟨rfl, hid, by rw [Nat.zero_add]⟩)
    · rw [hvs.eq_proposeAll,
        NameTable.get?_proposeAll_eq_some_iff hslash (by rw [hseeded]; rfl)]
      simp only [hseeded, true_and, List.mem_flatMap]
      grind
    · rw [Assembly.ofBundle, Logged.outcome_bind, Logged.outcome_ofExcept, hs] at hassembled
      exact Assembly.holds_of_mem hassembled (Ordered.mem_of_get? hsource) hname
        (ModuleName.classify_of_slash_notMem hslash)
  · rw [hrun] at herror
    cases herror

theorem resolve_entry_cyclic :
    ∃ table a, (resolve none ModuleName.entryNames cyclic).outcome = .ok table ∧
      (Assembly.ofBundle "/" none table cyclic).outcome = .ok a ∧
      table.get? "1" = some "main" ∧
      a.Holds "main" [.mk none (.simple (.mk none (.string "1")))] := by
  obtain ⟨table, a, hrun, hassembled, hname⟩ :
      ∃ table a, (resolve none ModuleName.entryNames cyclic).outcome = .ok table ∧
        (Assembly.ofBundle "/" none table cyclic).outcome = .ok a ∧
        table.get? "1" = some "main" := ⟨_, _, rfl, rfl, rfl⟩
  refine ⟨table, a, hrun, hassembled, hname, ?_⟩
  obtain ⟨sources, ids, vs, deferred, hs, hids, -, -, h⟩ := resolve_entry hrun hassembled
  have hinjective : Function.Injective
      fun id : String => (.ok (some id) : Except BundleFault (Option String)) :=
    fun _ _ heq => Option.some_inj.1 (Except.ok.inj heq)
  have hone : ["1"] = ids := List.map_injective_iff.2 hinjective hids
  subst hone
  cases hs
  obtain ⟨-, -, hblock⟩ := h "1" (.head _) _ rfl "main" rfl
  obtain ⟨r, -, hholds⟩ := hblock hname
  exact hholds

/-- A module that the entry requires requires the entry by a short name. -/
def shortened : Bundle :=
  sketch [("1", [("./b", 2)]), ("2", [("./a", 1)])] [1]

/-- The entry has lost its name, and the program with the entry's name is empty. -/
theorem resolve_shortened :
    ∃ table a, (resolve none ModuleName.entryNames shortened).outcome = .ok table ∧
      (Assembly.ofBundle "/" none table shortened).outcome = .ok a ∧
      table.get? "1" = some "a/index" ∧ table.entries = ["main"] ∧
      Ordered.get? "main" a.modules = some [] :=
  ⟨_, _, rfl, rfl, rfl, rfl, rfl⟩

end Naming

end Debundle
