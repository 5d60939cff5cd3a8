import Debundle.Proofs.Bundle.Files

/-!
# What a run writes

A run that ends with a problem leaves the store as it was, and a run that succeeds has written every
module, and the descriptor exactly if one was asked for (`unbundle_writes`). Writing a file makes the
directories on the way to it and changes nothing else (`Store.Saves`).
-/
namespace Debundle

/-! ## Directories -/

namespace Store

/-- The second store has more directories than the first one, and the same files. -/
structure Grows (s s' : Store) : Prop where
  directories : ∀ place, s.entry? place = some .directory → s'.entry? place = some .directory
  files : ∀ place text, s'.entry? place = some (.file text) ↔ s.entry? place = some (.file text)

section

variable {s s' s'' : Store} {cwd p : List Char} {place other : Location} {text : String}

theorem Grows.refl (s : Store) : Grows s s :=
  ⟨fun _ h => h, fun _ _ => Iff.rfl⟩

theorem Grows.trans (h : Grows s s') (h' : Grows s' s'') : Grows s s'' where
  directories q hq := h'.directories q (h.directories q hq)
  files q t := (h'.files q t).trans (h.files q t)

theorem entry?_root (s : Store) : s.entry? [] = some .directory := rfl

theorem entry?_put (s : Store) (entry : StoreEntry) (hplace : place ≠ []) :
    Store.entry? (s.put place entry) other = if place = other then some entry else s.entry? other := by
  unfold entry? put
  by_cases hother : other = []
  · rw [if_pos hother, if_pos hother, if_neg fun h => hplace (h.trans hother)]
  · rw [if_neg hother, if_neg hother, Ordered.get?_put]

theorem grows_put (h : s.entry? place = none) : Grows s (s.put place .directory) := by
  have hplace : place ≠ [] := by
    rintro rfl
    cases h
  constructor
  · intro q hq
    rw [entry?_put s _ hplace]
    split_ifs
    · rfl
    · exact hq
  · intro q t
    rw [entry?_put s _ hplace]
    split_ifs with heq
    · subst heq
      simp [h]
    · rfl

theorem grows_ensureDirectory (s : Store) (cwd p : List Char) :
    Grows s (s.ensureDirectory cwd p).1 := by
  unfold ensureDirectory makeDirectory
  split
  · rename_i s' h
    split at h
    · cases h
    · split at h
      · cases h
      · cases h
        exact grows_put ‹_›
  · exact .refl s

theorem grows_makeDirectories (cwd : List Char) (bound : Nat) (p : List Char) (s : Store) :
    Grows s (makeDirectories cwd bound p s).1 := by
  induction bound generalizing p s with
  | zero => exact .refl s
  | succ bound ih =>
    rw [makeDirectories]
    dsimp only
    split
    · have hrest := ih (splitLast p).1 s
      split
      · rename_i s' e heq
        rw [heq] at hrest
        split_ifs
        · exact hrest
        · exact hrest
        · exact hrest.trans (grows_ensureDirectory s' cwd p)
      · rename_i s' heq
        rw [heq] at hrest
        split_ifs
        · exact hrest
        · exact hrest.trans (grows_ensureDirectory s' cwd p)
    · exact grows_ensureDirectory s cwd p

/-! ## Paths -/

theorem step_of_directories (h : ∀ q, s.entry? q = some .directory → s'.entry? q = some .directory)
    {part : List Char} (hstep : s.step place part = .ok other) : s'.step place part = .ok other := by
  unfold step at hstep ⊢
  split at hstep
  · cases hstep
  · cases hstep
  · rename_i hd
    rw [h _ hd]
    exact hstep

theorem locate_of_directories (h : ∀ q, s.entry? q = some .directory → s'.entry? q = some .directory)
    (hp : s.locate cwd p = .ok place) : s'.locate cwd p = .ok place := by
  have walk : ∀ (parts : List (List Char)) (start : Location),
      parts.foldlM s.step start = .ok place → parts.foldlM s'.step start = .ok place := by
    intro parts
    induction parts with
    | nil => exact fun _ hw => hw
    | cons part parts ih =>
      intro start hw
      rw [List.foldlM_cons] at hw ⊢
      obtain ⟨next, hnext, hw⟩ := bind_eq_ok_iff.1 hw
      exact bind_eq_ok_iff.2 ⟨next, step_of_directories h hnext, ih next hw⟩
  unfold locate at hp ⊢
  split_ifs at hp ⊢
  · exact walk _ _ hp
  · exact walk _ _ hp

theorem read_eq_ok_iff : s.read cwd p = .ok text ↔
    ∃ place, s.locate cwd p = .ok place ∧ s.entry? place = some (.file text) := by
  unfold read
  constructor
  · intro h
    split at h
    · cases h
    · rename_i place hplace
      split at h
      · cases h
      · cases h
      · cases h
        exact ⟨place, hplace, ‹_›⟩
  · rintro ⟨place, hplace, hentry⟩
    rw [hplace]
    dsimp only
    rw [hentry]

/-! ## Files -/

/-- The second store is the first one after a text was written to a path: the file holds the text,
all other files are as before, and there may be more directories. -/
structure Saves (cwd p : List Char) (text : String) (s s' : Store) : Prop where
  directories : ∀ place, s.entry? place = some .directory → s'.entry? place = some .directory
  target : ∃ place, s'.locate cwd p = .ok place ∧ ∀ other t, s'.entry? other = some (.file t) ↔
    if other = place then t = text else s.entry? other = some (.file t)

theorem saves_of_write (h : s.write cwd p text = .ok s') : Saves cwd p text s s' := by
  unfold write at h
  split at h
  · cases h
  · rename_i place hplace
    split at h
    · cases h
    · rename_i hno
      cases h
      have hroot : place ≠ [] := by
        rintro rfl
        exact hno (entry?_root s)
      have hdirectories : ∀ q, s.entry? q = some .directory →
          Store.entry? (s.put place (.file text)) q = some .directory := by
        intro q hq
        rw [entry?_put s _ hroot, if_neg]
        · exact hq
        · rintro rfl
          exact hno hq
      refine ⟨hdirectories, place, locate_of_directories hdirectories hplace, fun other t => ?_⟩
      rw [entry?_put s _ hroot]
      by_cases heq : place = other
      · rw [if_pos heq, if_pos heq.symm]
        simp [eq_comm]
      · rw [if_neg heq, if_neg (Ne.symm heq)]

theorem Grows.saves (h : Grows s s') (h' : Saves cwd p text s' s'') : Saves cwd p text s s'' where
  directories q hq := h'.directories q (h.directories q hq)
  target := by
    obtain ⟨place, hplace, hfiles⟩ := h'.target
    refine ⟨place, hplace, fun other t => ?_⟩
    rw [hfiles, h.files]

theorem saves_of_save (h : s.save cwd p text = (s', none)) : Saves cwd p text s s' := by
  unfold save at h
  dsimp only at h
  have hgrows : Grows s (if Path.directory p = [] then (s, none)
      else makeDirectories cwd ((Path.directory p).length + 1) (Path.directory p) s).1 := by
    split_ifs
    · exact .refl s
    · exact grows_makeDirectories cwd _ _ s
  split at h
  · cases h
  · split at h
    · rename_i hwrite
      cases h
      exact hgrows.saves (saves_of_write hwrite)
    · cases h

/-- After some files were written: every path leads to the text that was written there last, and all
other files and all directories are as before. -/
structure Wrote (cwd : List Char) (files : List (List Char × String)) (s s' : Store) : Prop where
  directories : ∀ place, s.entry? place = some .directory → s'.entry? place = some .directory
  located : ∀ f ∈ files, ∃ place, s'.locate cwd f.1 = .ok place
  holds : ∀ earlier p text later, files = earlier ++ (p, text) :: later →
    (∀ f ∈ later, s'.locate cwd f.1 ≠ s'.locate cwd p) → s'.read cwd p = .ok text
  others : ∀ place text, (∀ f ∈ files, s'.locate cwd f.1 ≠ .ok place) →
    ( s'.entry? place = some (.file text) ↔ s.entry? place = some (.file text))

theorem Wrote.nil (cwd : List Char) (s : Store) : Wrote cwd [] s s where
  directories _ h := h
  located := nofun
  holds earlier p text later h := by simp at h
  others _ _ _ := Iff.rfl

theorem Wrote.concat {files : List (List Char × String)} (h : Wrote cwd files s s')
    (h' : Saves cwd p text s' s'') : Wrote cwd (files ++ [(p, text)]) s s'' := by
  obtain ⟨place, hplace, hfiles⟩ := h'.target
  have hstay : ∀ f ∈ files, s''.locate cwd f.1 = s'.locate cwd f.1 := by
    intro f hf
    obtain ⟨q, hq⟩ := h.located f hf
    rw [hq, locate_of_directories h'.directories hq]
  constructor
  · exact fun q hq => h'.directories q (h.directories q hq)
  · intro f hf
    obtain hf | hf := List.mem_append.1 hf
    · rw [hstay f hf]
      exact h.located f hf
    · cases List.mem_singleton.1 hf
      exact ⟨place, hplace⟩
  · intro earlier p' text' later hsplit hlater
    obtain rfl | ⟨later, last, rfl⟩ := List.eq_nil_or_concat later
    · obtain ⟨-, hlast⟩ := List.append_inj' hsplit rfl
      cases hlast
      exact read_eq_ok_iff.2 ⟨place, hplace, (hfiles place text).2 (by rw [if_pos rfl])⟩
    · have hsplit : files ++ [(p, text)] = (earlier ++ (p', text') :: later) ++ [last] := by
        simpa using hsplit
      obtain ⟨hinit, hlast⟩ := List.append_inj' hsplit rfl
      cases hlast
      have hmem : ∀ f ∈ (p', text') :: later, f ∈ files := by
        intro f hf
        rw [hinit]
        exact List.mem_append_right earlier hf
      have hread := h.holds earlier p' text' later hinit fun f hf => by
        rw [← hstay f (hmem f (.tail _ hf)), ← hstay _ (hmem _ (.head _))]
        exact hlater f (by simp [hf])
      obtain ⟨q, hq, hentry⟩ := read_eq_ok_iff.1 hread
      have hq' := (hstay _ (hmem _ (.head _))).trans hq
      have hne : q ≠ place := by
        rintro rfl
        exact hlater (p, text) (by simp) (hplace.trans hq'.symm)
      exact read_eq_ok_iff.2 ⟨q, hq', (hfiles q text').2 (by rwa [if_neg hne])⟩
  · intro q t hq
    have hne : q ≠ place := by
      rintro rfl
      exact hq (p, text) (by simp) hplace
    rw [hfiles, if_neg hne]
    refine h.others q t fun f hf => ?_
    rw [← hstay f hf]
    exact hq f (List.mem_append_left _ hf)

end

end Store

/-! ## Runs -/

/-- The problem with which a run ended. Other failures are not about the bundle. -/
def Outcome.problem? {α : Type} (o : Outcome α) : Option Problem :=
  match o.result with
  | .error failure => failure.problem?
  | .ok _ => none

namespace Run

section

variable {cwd : String} {style : Style} {store store' : Store} {programs : List (String × Node)}

/-- The files of some programs that are written to paths, with the texts they get. -/
def filesOf (style : Style) (programs : List (String × Node)) :
    Except Defect (List (List Char × String)) :=
  programs.mapM fun p => do return (p.1.toList, (← p.2.print style) ++ "\n")

theorem problem?_saveProgram {path : String} {n : Node} {failure : Failure}
    (h : (saveProgram cwd style store path n).2 = some failure) : failure.problem? = none := by
  unfold saveProgram at h
  split at h
  · cases h
    rfl
  · obtain ⟨e, -, rfl⟩ := Option.map_eq_some_iff.1 h
    rfl

theorem problem?_saveAll {failure : Failure}
    (h : (saveAll cwd style store programs).2 = some failure) : failure.problem? = none := by
  induction programs generalizing store with
  | nil => cases h
  | cons p programs ih =>
    unfold saveAll at h
    dsimp only at h
    cases hfirst : (saveProgram cwd style store p.1 p.2).2 with
    | some first =>
      rw [hfirst] at h
      cases h
      exact problem?_saveProgram hfirst
    | none =>
      rw [hfirst] at h
      exact ih h

theorem wrote_of_saveProgram {files : List (List Char × String)} {path : String} {n : Node}
    {before : Store} (hw : Store.Wrote cwd.toList files before store)
    (h : (saveProgram cwd style store path n).2 = none) :
    ∃ code, n.print style = .ok code ∧
      Store.Wrote cwd.toList (files ++ [(path.toList, code ++ "\n")]) before
        (saveProgram cwd style store path n).1 := by
  unfold saveProgram at h ⊢
  split at h
  · cases h
  · rename_i code hcode
    dsimp only at h ⊢
    exact ⟨code, hcode, hw.concat (Store.saves_of_save (Prod.ext rfl (Option.map_eq_none_iff.1 h)))⟩

theorem wrote_of_saveAll {files : List (List Char × String)} {before : Store}
    (hw : Store.Wrote cwd.toList files before store)
    (h : (saveAll cwd style store programs).2 = none) :
    ∃ more, filesOf style programs = .ok more ∧
      Store.Wrote cwd.toList (files ++ more) before (saveAll cwd style store programs).1 := by
  induction programs generalizing store files with
  | nil => exact ⟨[], rfl, by rwa [List.append_nil]⟩
  | cons p programs ih =>
    unfold saveAll at h ⊢
    dsimp only at h ⊢
    have hfirst : (saveProgram cwd style store p.1 p.2).2 = none := by
      cases hfirst : (saveProgram cwd style store p.1 p.2).2 with
      | none => rfl
      | some failure =>
        rw [hfirst] at h
        cases h
    rw [hfirst] at h
    obtain ⟨code, hcode, hw⟩ := wrote_of_saveProgram hw hfirst
    obtain ⟨more, hmore, hw⟩ := ih hw h
    refine ⟨(p.1.toList, code ++ "\n") :: more, ?_, by rwa [List.append_assoc] at hw⟩
    rw [filesOf] at hmore ⊢
    rw [List.mapM_cons, hcode]
    exact bind_eq_ok_iff.2 ⟨_, rfl, bind_eq_ok_iff.2 ⟨more, hmore, rfl⟩⟩

/-- The programs of a plan with the paths to which they are written. -/
def placed (directory : Option String) (programs : List (String × Node)) : List (String × Node) :=
  programs.map fun p => (modulePath (directory.getD "") p.1, p.2)

theorem saveModulesIn_cases (cwd : String) (directory : Option String) (style : Style) (store : Store)
    (programs : List (String × Node)) :
    (∃ failure, (saveModulesIn cwd directory style store programs).result = .error failure ∧
        failure.problem? = none) ∨
      ∃ files, filesOf style (placed directory programs) = .ok files ∧
        (saveModulesIn cwd directory style store programs).result =
          .ok ((placed directory programs).map Prod.fst) ∧
        Store.Wrote cwd.toList files store (saveModulesIn cwd directory style store programs).store := by
  unfold saveModulesIn
  split
  · rename_i directory
    unfold saveModules
    dsimp only
    split
    · rename_i failure heq
      exact .inl ⟨failure, rfl, problem?_saveAll (congrArg Prod.snd heq)⟩
    · rename_i store' heq
      obtain ⟨files, hfiles, hw⟩ := wrote_of_saveAll (.nil cwd.toList store) (congrArg Prod.snd heq)
      refine .inr ⟨files, hfiles, rfl, ?_⟩
      rwa [List.nil_append, heq] at hw
  · exact .inr ⟨[], rfl, rfl, .nil _ _⟩
  · exact .inl ⟨.noPath, rfl, rfl⟩

theorem saveDescriptor_cases (cwd : String) (store : Store) (path : String) (d : Descriptor) :
    (∃ e, saveDescriptor cwd store path d = (store, .error (.file e))) ∨
      ∃ store', saveDescriptor cwd store path d = (store', .ok path) ∧
        Store.Saves cwd.toList path.toList d.text store store' := by
  unfold saveDescriptor
  cases h : store.write cwd.toList path.toList d.text with
  | error e => exact .inl ⟨e, rfl⟩
  | ok store' => exact .inr ⟨store', rfl, Store.saves_of_write h⟩

end

/-- The descriptor that a run writes: none, unless one is asked for. -/
inductive Describes (w : World) (options : Options) (file : String) (directory : Option String)
    (plan : Plan) : Option String → List (List Char × String) → Prop
  | none (off : options.writePackage = false) : Describes w options file directory plan none []
  | some {versions : List (String × String)} {d : Descriptor} {path : String}
      (on : options.writePackage = true)
      (looked : (Registry.versions ⟨options.registry, options.timeout, w.answer⟩
        plan.dependencies).outcome = .ok versions)
      (built : Descriptor.of? (String.ofList (Path.base file.toList))
        (plan.entries.map (modulePath (directory.getD ""))) versions = some d)
      (there : path = String.ofList (Path.absolute w.cwd.toList options.packagePath.toList)) :
      Describes w options file directory plan (some path) [(path.toList, d.text)]

end Run

open Run

/-- How a run ends: before anything was written, with a failure that is no problem of the bundle, or
with all that it was asked for. -/
theorem unbundle_cases (w : World) (options : Options) (store : Store) (file : String)
    (directory : Option String) {o : Outcome Summary}
    (ho : unbundle w options store file directory = o) :
    (∃ failure, o.result = .error failure ∧ (failure.problem? = none ∨ o.store = store)) ∨
      ∃ text plan modules descriptor summary, readProgram w.cwd store file = .ok text ∧
        (Run.plan w.cwd file text options).outcome = .ok plan ∧
        filesOf options.style (placed directory plan.programs) = .ok modules ∧
        Describes w options file directory plan summary.package descriptor ∧
        o.result = .ok summary ∧ summary.modules = plan.programs.map Prod.fst ∧
        summary.written = (placed directory plan.programs).map Prod.fst ∧
        Store.Wrote w.cwd.toList (modules ++ descriptor) store o.store := by
  subst ho
  unfold unbundle
  split
  · exact .inl ⟨_, rfl, .inr rfl⟩
  · rename_i text htext
    dsimp only
    split
    · exact .inl ⟨_, rfl, .inr rfl⟩
    · rename_i plan hplan
      split
      · exact .inl ⟨_, rfl, .inr rfl⟩
      · rename_i versions hversions
        obtain ⟨failure, hsaved, hnone⟩ | ⟨modules, hmodules, hsaved, hwrote⟩ :=
          saveModulesIn_cases w.cwd directory options.style store plan.programs
        · rw [hsaved]
          exact .inl ⟨failure, rfl, .inl hnone⟩
        · rw [hsaved]
          dsimp only
          split_ifs with hpackage
          · rw [if_pos hpackage] at hversions
            split
            · exact .inl ⟨.noEntries, rfl, .inl rfl⟩
            · rename_i d hd
              obtain ⟨e, hsave⟩ | ⟨store', hsave, hstore⟩ := saveDescriptor_cases w.cwd
                (saveModulesIn w.cwd directory options.style store plan.programs).store
                (String.ofList (Path.absolute w.cwd.toList options.packagePath.toList)) d
              · rw [hsave]
                exact .inl ⟨.file e, rfl, .inl rfl⟩
              · rw [hsave]
                exact .inr ⟨text, plan, modules, _, _, htext, hplan, hmodules,
                  .some hpackage hversions hd rfl, rfl, rfl, rfl, hwrote.concat hstore⟩
          · refine .inr ⟨text, plan, modules, [], _, htext, hplan, hmodules, ?_, rfl, rfl, rfl, ?_⟩
            · exact .none (by simpa using hpackage)
            · rwa [List.append_nil]

namespace Run

/-- A bundle whose entry requires a package, beside a descriptor. -/
def dependent : Store :=
  Store.ofFiles "/w".toList [("b.js",
    "e(\x7b1:[function()\x7b\x7d,\x7bp:2\x7d],2:[function()\x7b\x7d,\x7b\x7d]\x7d,0,[1])"),
    ("package.json", "\x7b\x7d")]

def offline : World :=
  ⟨"/w", fun _ => .disconnected⟩

def online : World :=
  ⟨"/w", fun _ => .document 200 "\x7b\"dist-tags\": \x7b\"latest\": \"1.2.3\"\x7d\x7d"⟩

theorem outcomes_dependent :
    (unbundle offline {} dependent "b.js" (some "out")).problem?.map Problem.cause =
        some (.unreachable "https://registry.npmjs.org") ∧
      (unbundle online {} dependent "b.js" (some "out")).result.toOption.map Summary.modules =
        some ["main"] := by
  decide +kernel

end Run

end Debundle
