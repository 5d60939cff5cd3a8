import Debundle.Proofs.Bundle.Reached

/-!
# Consistent names

Where all that is known of the names of modules agrees, the order in which modules are visited does
not matter: every visit proposes the names that the modules have anyway. A bundle whose modules and
require maps stand in another order is then named in the same way (`resolve_of_isConsistent`).
-/
namespace Debundle

namespace Ordered

variable {α β : Type} [DecidableEq α]

theorem put_of_notMem {key : α} (value : β) {table : List (α × β)}
    (h : key ∉ table.map Prod.fst) : put key value table = table ++ [(key, value)] := by
  induction table with
  | nil => rfl
  | cons pair rest ih =>
    rw [List.map_cons, List.mem_cons, not_or] at h
    rw [put, if_neg (Ne.symm h.1), ih h.2, List.cons_append]

theorem ofList_eq_self {pairs : List (α × β)} (h : (pairs.map Prod.fst).Nodup) :
    ofList pairs = pairs := by
  have run : ∀ table : List (α × β), ((table ++ pairs).map Prod.fst).Nodup →
      pairs.foldl (fun table pair => put pair.1 pair.2 table) table = table ++ pairs := by
    induction pairs with
    | nil => exact fun table _ => (List.append_nil table).symm
    | cons pair rest ih =>
      intro table hd
      have hnew : pair.1 ∉ table.map Prod.fst := by
        rw [List.map_append, List.map_cons, List.nodup_append] at hd
        exact fun hmem => hd.2.2 _ hmem _ (.head _) rfl
      have hassoc : table ++ [pair] ++ rest = table ++ pair :: rest := by simp
      rw [List.foldl_cons, put_of_notMem _ hnew,
        ih (List.nodup_cons.1 h).2 (table ++ [pair]) (hassoc ▸ hd), hassoc]
  exact run [] h

end Ordered

/-! ## Names that agree -/

namespace NameTable

variable {t : NameTable} {id candidate : String}

/-- A name is proposed that the module has already, or it has none. -/
def Agrees (t : NameTable) (id candidate : String) : Prop :=
  ∀ name, t.get? id = some name → name = candidate

theorem renamed_of_agrees (h : t.Agrees id candidate) :
    renamed (t.get? id) candidate = candidate := by
  cases hid : t.get? id with
  | none => rfl
  | some name =>
    cases h name hid
    simp [renamed]

theorem warnings_propose_of_agrees (h : t.Agrees id candidate) :
    (t.propose id candidate).warnings = t.warnings := by
  cases hid : t.get? id with
  | none => simp only [propose, judge, hid]
  | some name =>
    cases h name hid
    simp [propose, judge, hid]

end NameTable

namespace Naming

/-- A naming of all modules that is borne out by the entries and by every edge of a reached
module. -/
structure IsConsistent (sources : Sources) (names ids : List String) (naming : String → String) :
    Prop where
  entry : ∀ id ∈ ids, naming id = ModuleName.entryAt names (ids.idxOf id)
  edge : ∀ id edge target, Reached sources ids id → EdgeOf sources id edge →
    edge.target = .ok (some target) →
    ModuleName.candidate (naming id) edge.specifier = naming target

variable {file : Option String} {names ids : List String} {sources : Sources} {t : NameTable}
variable {naming : String → String}

/-- What a table looks like as long as only consistent names are proposed. -/
structure Follows (names ids : List String) (naming : String → String) (t : NameTable) : Prop where
  named : ∀ id name, t.get? id = some name → name = naming id
  warnings : t.warnings = []
  entries : t.entries = (seeded names ids).entries

theorem Follows.propose (h : Follows names ids naming t) (id : String) :
    Follows names ids naming (t.propose id (naming id)) := by
  have hagrees : t.Agrees id (naming id) := h.named id
  refine ⟨fun other name hname => ?_, ?_, ?_⟩
  · rw [NameTable.get?_propose, NameTable.renamed_of_agrees hagrees] at hname
    split_ifs at hname with heq
    · cases hname
      rw [heq]
    · exact h.named other name hname
  · rw [NameTable.warnings_propose_of_agrees hagrees, h.warnings]
  · rw [NameTable.entries_propose, h.entries]

theorem follows_seeded (h : IsConsistent sources names ids naming) :
    Follows names ids naming (seeded names ids) := by
  refine ⟨fun id name hname => ?_, warnings_seedAll names 0 ids {}, rfl⟩
  rw [get?_seeded] at hname
  split_ifs at hname with hmem
  · cases hname
    exact (h.entry id hmem).symm

theorem follows_of_visits {vs : List Visit} (hd : (sources.map Prod.fst).Nodup)
    (hc : IsConsistent sources names ids naming)
    (h : Visits ⟨file, sources⟩ (seeded names ids) vs t)
    (hvs : ∀ v ∈ vs, v.entry ∈ sources ∧ Reached sources ids v.id) :
    Follows names ids naming t := by
  refine h.invariant (follows_seeded hc) fun v hv => ?_
  rintro ⟨u, hu, hname⟩ ⟨target, candidate⟩ hp u' hu'
  obtain ⟨edge, he, ht, rfl⟩ := mem_proposals.1 hp
  obtain ⟨hentry, hreached⟩ := hvs v hv
  have hof : EdgeOf sources v.id edge := ⟨v.source, (Ordered.get?_eq_some_iff hd).2 hentry, he⟩
  rw [hu.named v.id v.name hname, hc.edge v.id edge target hreached hof ht]
  exact hu'.propose target

/-! ## Bundles in another order -/

/-- Entries of a module map that differ in the order of their require maps. -/
inductive Reordered : Node → Node → Prop
  | mk {line pair map : Option Nat} {key : String} {function : Node}
      {requires requires' others : List Node} (h : requires.Perm requires') :
      Reordered
        (.mk line (.property .keyValue key (.mk pair
          (.array (function :: .mk map (.object requires) :: others)))))
        (.mk line (.property .keyValue key (.mk pair
          (.array (function :: .mk map (.object requires') :: others)))))

/-- Bundles that differ in the order of their modules and of what these require. -/
structure Shuffles (b b' : Bundle) : Prop where
  entries : b'.entries = b.entries
  modules : ∃ modules, modules.Perm b.modules ∧ List.Forall₂ Reordered modules b'.modules

/-- Modules that require the same, in whatever order. -/
def Alike (p q : String × Source) : Prop :=
  p.1 = q.1 ∧ p.2.edges.Perm q.2.edges

theorem exists_source_of_reordered {n n' : Node} {p : String × Source} (h : Reordered n n')
    (hp : Bundle.source file n = .ok p) : ∃ q, Bundle.source file n' = .ok q ∧ Alike p q := by
  obtain @⟨line, pair, map, key, ⟨_, form⟩, requires, requires', others, hperm⟩ := h
  simp only [Bundle.source, Node.form] at hp ⊢
  split at hp
  · cases hp
    exact ⟨_, rfl, rfl, hperm.map _⟩
  · rename_i hno
    exact absurd rfl (hno _)
  · cases hp

theorem mapM_eq_ok_iff {ε α β : Type} {f : α → Except ε β} {xs : List α} {ys : List β} :
    xs.mapM f = .ok ys ↔ List.Forall₂ (fun x y => f x = .ok y) xs ys := by
  induction xs generalizing ys with
  | nil =>
    rw [List.mapM_nil, List.forall₂_nil_left_iff]
    exact ⟨fun h => by cases h; rfl, fun h => by cases h; rfl⟩
  | cons x xs ih =>
    rw [List.mapM_cons, List.forall₂_cons_left_iff]
    cases hx : f x with
    | error e => exact ⟨nofun, fun ⟨_, _, h, _⟩ => nomatch h⟩
    | ok y =>
      cases hxs : xs.mapM f with
      | error e =>
        refine ⟨nofun, fun ⟨_, _, _, h, _⟩ => ?_⟩
        rw [← ih, hxs] at h
        cases h
      | ok ys' =>
        refine ⟨fun h => ⟨y, ys', rfl, ih.1 hxs, by cases h; rfl⟩, ?_⟩
        rintro ⟨_, _, ⟨⟩, h, rfl⟩
        rw [← ih, hxs] at h
        cases h
        rfl

theorem fst_of_source {n : Node} {p : String × Source} (h : Bundle.source file n = .ok p) :
    p.1 = Bundle.key n := by
  unfold Bundle.source at h
  unfold Bundle.key
  split at h
  · rename_i key value hn
    rw [hn]
    dsimp only at h
    split at h
    · split at h <;> cases h
      rfl
    · cases h
  · cases h

theorem keys_of_forall₂ {modules : List Node} {pairs : Sources}
    (h : List.Forall₂ (fun n p => Bundle.source file n = .ok p) modules pairs) :
    pairs.map Prod.fst = modules.map Bundle.key := by
  induction h with
  | nil => rfl
  | cons hp _ ih => rw [List.map_cons, List.map_cons, fst_of_source hp, ih]

theorem sources_eq_ok_iff {b : Bundle} (hd : (b.modules.map Bundle.key).Nodup) :
    b.sources file = .ok sources ↔
      List.Forall₂ (fun n p => Bundle.source file n = .ok p) b.modules sources := by
  rw [← mapM_eq_ok_iff, Bundle.sources]
  cases hpairs : b.modules.mapM (Bundle.source file) with
  | error e => exact ⟨nofun, nofun⟩
  | ok pairs =>
    have hkeys : (pairs.map Prod.fst).Nodup := by rwa [keys_of_forall₂ (mapM_eq_ok_iff.1 hpairs)]
    rw [Except.map, Ordered.ofList_eq_self hkeys]

theorem exists_sources_of_reordered {modules modules' : List Node} {pairs : Sources}
    (h : List.Forall₂ Reordered modules modules')
    (hp : List.Forall₂ (fun n p => Bundle.source file n = .ok p) modules pairs) :
    ∃ pairs', List.Forall₂ (fun n p => Bundle.source file n = .ok p) modules' pairs' ∧
      List.Forall₂ Alike pairs pairs' := by
  induction h generalizing pairs with
  | nil =>
    cases hp
    exact ⟨[], .nil, .nil⟩
  | cons hn _ ih =>
    obtain ⟨p, pairs, hsource, hps, rfl⟩ := List.forall₂_cons_left_iff.1 hp
    obtain ⟨q, hq, halike⟩ := exists_source_of_reordered hn hsource
    obtain ⟨qs, hqs, halikes⟩ := ih hps
    exact ⟨q :: qs, .cons hq hqs, .cons halike halikes⟩

theorem exists_mem_of_forall₂ {α β : Type} {R : α → β → Prop} {xs : List α} {ys : List β}
    (h : List.Forall₂ R xs ys) : (∀ x ∈ xs, ∃ y ∈ ys, R x y) ∧ ∀ y ∈ ys, ∃ x ∈ xs, R x y := by
  induction h with
  | nil => exact ⟨nofun, nofun⟩
  | cons hr _ ih => grind

theorem Shuffles.exists_sources {b b' : Bundle} (h : Shuffles b b')
    (hd : (b.modules.map Bundle.key).Nodup) (hs : b.sources file = .ok sources) :
    ∃ sources', b'.sources file = .ok sources' ∧
      (∀ p ∈ sources, ∃ q ∈ sources', Alike p q) ∧ ∀ q ∈ sources', ∃ p ∈ sources, Alike p q := by
  obtain ⟨modules, hperm, hreordered⟩ := h.modules
  obtain ⟨pairs, hpairs, hsame⟩ := List.perm_comp_forall₂ hperm ((sources_eq_ok_iff hd).1 hs)
  obtain ⟨pairs', hpairs', halike⟩ := exists_sources_of_reordered hreordered hpairs
  have hkeys : pairs.map Prod.fst = pairs'.map Prod.fst := by
    clear hpairs hpairs' hsame
    induction halike with
    | nil => rfl
    | cons h _ ih => rw [List.map_cons, List.map_cons, h.1, ih]
  have hd' : (b'.modules.map Bundle.key).Nodup := by
    rw [← keys_of_forall₂ hpairs', ← hkeys, keys_of_forall₂ hpairs]
    exact (hperm.map _).nodup_iff.2 hd
  obtain ⟨hto, hfrom⟩ := exists_mem_of_forall₂ halike
  refine ⟨pairs', (sources_eq_ok_iff hd').2 hpairs', fun p hp => hto p (hsame.mem_iff.2 hp),
    fun q hq => ?_⟩
  obtain ⟨p, hp, hpq⟩ := hfrom q hq
  exact ⟨p, hsame.mem_iff.1 hp, hpq⟩

/-- Modules that the sources of two bundles have in common, with the same edges. -/
structure SameEdges (sources sources' : Sources) : Prop where
  edge : ∀ id edge, EdgeOf sources' id edge ↔ EdgeOf sources id edge
  absent : ∀ id, Ordered.get? id sources' = none ↔ Ordered.get? id sources = none

theorem Shuffles.sameEdges {b b' : Bundle} (h : Shuffles b b')
    (hd : (b.modules.map Bundle.key).Nodup) (hs : b.sources file = .ok sources) :
    ∃ sources', b'.sources file = .ok sources' ∧ SameEdges sources sources' := by
  obtain ⟨sources', hs', hto, hfrom⟩ := h.exists_sources hd hs
  have hedge : ∀ {s : Sources} {id edge}, (s.map Prod.fst).Nodup →
      (EdgeOf s id edge ↔ ∃ p ∈ s, p.1 = id ∧ edge ∈ p.2.edges) := by
    intro s id edge hd
    refine ⟨fun ⟨source, hsource, he⟩ => ⟨_, Ordered.mem_of_get? hsource, rfl, he⟩, ?_⟩
    rintro ⟨p, hp, rfl, he⟩
    exact ⟨p.2, (Ordered.get?_eq_some_iff hd).2 hp, he⟩
  refine ⟨sources', hs', fun id edge => ?_, fun id => ?_⟩
  · rw [hedge (nodup_keys_sources hs'), hedge (nodup_keys_sources hs)]
    constructor
    · rintro ⟨q, hq, rfl, he⟩
      obtain ⟨p, hp, hkey, hperm⟩ := hfrom q hq
      exact ⟨p, hp, hkey, hperm.mem_iff.2 he⟩
    · rintro ⟨p, hp, rfl, he⟩
      obtain ⟨q, hq, hkey, hperm⟩ := hto p hp
      exact ⟨q, hq, hkey.symm, hperm.mem_iff.1 he⟩
  · rw [Ordered.get?_eq_none_iff, Ordered.get?_eq_none_iff, not_iff_not, List.mem_map, List.mem_map]
    constructor
    · rintro ⟨q, hq, rfl⟩
      obtain ⟨p, hp, hkey, -⟩ := hfrom q hq
      exact ⟨p, hp, hkey⟩
    · rintro ⟨p, hp, rfl⟩
      obtain ⟨q, hq, hkey, -⟩ := hto p hp
      exact ⟨q, hq, hkey.symm⟩

theorem SameEdges.reached_iff {sources' : Sources} (h : SameEdges sources sources') {id : String} :
    Reached sources' ids id ↔ Reached sources ids id := by
  constructor
  · intro hr
    induction hr with
    | entry hmem => exact .entry hmem
    | edge _ he ht ih => exact .edge ih ((h.edge _ _).1 he) ht
  · intro hr
    induction hr with
    | entry hmem => exact .entry hmem
    | edge _ he ht ih => exact .edge ih ((h.edge _ _).2 he) ht

theorem SameEdges.isConsistent {sources' : Sources} (h : SameEdges sources sources')
    (hc : IsConsistent sources names ids naming) : IsConsistent sources' names ids naming :=
  ⟨hc.entry, fun id edge target hr he =>
    hc.edge id edge target (h.reached_iff.1 hr) ((h.edge id edge).1 he)⟩

theorem SameEdges.dangles_iff {sources' : Sources} (h : SameEdges sources sources') {edge : Edge} :
    Dangles sources' edge ↔ Dangles sources edge :=
  exists_congr fun target => and_congr_right fun _ => h.absent target

/-- If a naming is borne out by the entries and by all edges of reached modules, and all of these
edges lead to modules of the bundle, naming ends with it, without a warning, in whatever order the
modules and their require maps stand. -/
theorem resolve_of_isConsistent {b b' : Bundle} (hs : b.sources file = .ok sources)
    (hids : b.entries.map Bundle.id? = ids.map fun id => .ok (some id))
    (hd : (b.modules.map Bundle.key).Nodup) (hc : IsConsistent sources names ids naming)
    (hclean : ∀ id edge, Reached sources ids id → EdgeOf sources id edge →
      ¬ Dangles sources edge ∧ ¬ IsUnreadable edge) (hb : Shuffles b b') :
    ∃ table, (resolve file names b').outcome = .ok table ∧
      (∀ id, Reached sources ids id → table.get? id = some (naming id)) ∧
      (∀ id, ¬ Reached sources ids id → table.get? id = none) ∧
      table.warnings = [] ∧ table.entries = (seeded names ids).entries := by
  obtain ⟨sources', hs', hsame⟩ := hb.sameEdges hd hs
  obtain ⟨table, heq, hends, hnamed, -⟩ | ⟨id, edge, fault, -, hr, he, hcause⟩ :=
    resolve_cases names hs' (hb.entries ▸ hids)
  · simp only [hsame.reached_iff] at hnamed
    have hd' := nodup_keys_sources hs'
    obtain ⟨vs, deferred, hvs, hperm, -⟩ := hends
    have hfollows : Follows names ids naming table := by
      refine follows_of_visits hd' (hsame.isConsistent hc) hvs fun v hv => ⟨?_, ?_⟩
      · exact hperm.subset (List.mem_append_left _ (List.mem_map_of_mem hv))
      · exact hsame.reached_iff.2 ((hnamed v.id).1 (hvs.isSome_get?_of_mem v hv))
    refine ⟨table, heq, fun id hr => ?_, fun id hr => ?_, hfollows.warnings, hfollows.entries⟩
    · obtain ⟨name, hname⟩ := Option.isSome_iff_exists.1 ((hnamed id).2 hr)
      rw [hname, hfollows.named id name hname]
    · rw [← Option.not_isSome_iff_eq_none, hnamed]
      exact hr
  · rw [hsame.dangles_iff] at hcause
    obtain ⟨hno, hreadable⟩ := hclean id edge (hsame.reached_iff.1 hr) ((hsame.edge id edge).1 he)
    exact (hcause.elim (fun h => hno h.1) fun h => hreadable h.1).elim

/-- All edges of all modules. -/
def allEdges (sources : Sources) : List (String × Edge) :=
  sources.flatMap fun p => p.2.edges.map (p.1, ·)

theorem EdgeOf.mem_allEdges {id : String} {edge : Edge} (h : EdgeOf sources id edge) :
    (id, edge) ∈ allEdges sources := by
  obtain ⟨source, hsource, he⟩ := h
  exact List.mem_flatMap.2 ⟨_, Ordered.mem_of_get? hsource, List.mem_map_of_mem he⟩

/-- The names of the modules of `cyclic`. -/
def cyclicName (id : String) : String :=
  if id = "1" then "main" else "b"

/-- The modules of `cyclic` from the last to the first; the second requires in another order. -/
def cyclicShuffled : Bundle :=
  sketch [("1", [("./b", 2)]), ("2", [("./b", 2), ("./main", 1)]), ("3", [("./gone", 9)])] [1]

theorem shuffles_cyclic : Shuffles cyclic cyclicShuffled := by
  refine ⟨rfl, cyclic.modules.reverse, List.reverse_perm _, ?_⟩
  exact .cons (.mk (.refl _)) (.cons (.mk (.swap ..)) (.cons (.mk (.refl _)) .nil))

theorem edges_cyclic (hs : cyclic.sources none = .ok sources) {id : String}
    (hr : Reached sources ["1"] id) {edge : Edge} (he : EdgeOf sources id edge) :
    (id = "1" ∧ edge = ⟨"./b", .ok (some "2")⟩) ∨
      (id = "2" ∧ edge = ⟨"./main", .ok (some "1")⟩) ∨
      (id = "2" ∧ edge = ⟨"./b", .ok (some "2")⟩) := by
  have hall : allEdges sources = [("3", ⟨"./gone", .ok (some "9")⟩),
      ("2", ⟨"./main", .ok (some "1")⟩), ("2", ⟨"./b", .ok (some "2")⟩),
      ("1", ⟨"./b", .ok (some "2")⟩)] := by
    cases hs
    rfl
  have hedges := fun {id edge} (h : EdgeOf sources id edge) => hall ▸ h.mem_allEdges
  have hid : id ≠ "3" := by
    clear he
    induction hr with
    | entry hmem => simp_all
    | edge hr he ht ih =>
      have := hedges he
      grind
  have := hedges he
  grind

theorem isConsistent_cyclic (hs : cyclic.sources none = .ok sources) :
    IsConsistent sources ModuleName.entryNames ["1"] cyclicName := by
  refine ⟨fun id hid => ?_, fun id edge target hr he ht => ?_⟩
  · cases List.mem_singleton.1 hid
    rfl
  · obtain ⟨rfl, rfl⟩ | ⟨rfl, rfl⟩ | ⟨rfl, rfl⟩ := edges_cyclic hs hr he
    all_goals
      cases ht
      decide

theorem resolve_of_isConsistent_cyclic :
    ∃ sources, cyclic.sources none = .ok sources ∧
      IsConsistent sources ModuleName.entryNames ["1"] cyclicName ∧
      Shuffles cyclic cyclicShuffled ∧
      ∃ table, (resolve none ModuleName.entryNames cyclicShuffled).outcome = .ok table ∧
        (∀ id, Reached sources ["1"] id → table.get? id = some (cyclicName id)) ∧
        (∀ id, ¬ Reached sources ["1"] id → table.get? id = none) ∧
        table.warnings = [] ∧ table.entries = ["main"] := by
  have hs : ∃ sources, cyclic.sources none = .ok sources := ⟨_, rfl⟩
  obtain ⟨sources, hs⟩ := hs
  refine ⟨sources, hs, isConsistent_cyclic hs, shuffles_cyclic, ?_⟩
  refine resolve_of_isConsistent hs rfl (by decide) (isConsistent_cyclic hs) ?_ shuffles_cyclic
  intro id edge hr he
  have hkeys : ∀ key ∈ ["1", "2"], (Ordered.get? key sources).isSome = true := by
    cases hs
    decide
  obtain ⟨rfl, rfl⟩ | ⟨rfl, rfl⟩ | ⟨rfl, rfl⟩ := edges_cyclic hs hr he
  all_goals
    refine ⟨?_, by rintro ⟨⟩⟩
    rintro ⟨_, ⟨⟩, hnone⟩
    simp [hnone] at hkeys

/-- The power of ten that has one digit too many. -/
def tooLarge : String :=
  String.ofList ('1' :: List.replicate Numeral.maxDigits '0')

/-- A bundle in which a module is required by a number that has too many digits to be written. The
number is the id of the other module. -/
def oversizedKey : Bundle :=
  sketch [("1", [("./a", 10 ^ Numeral.maxDigits)]), (tooLarge, [])] [1]

theorem nodup_keys_oversizedKey : (oversizedKey.modules.map Bundle.key).Nodup := by
  have hne : "1" ≠ tooLarge := by
    intro heq
    have hlength : 1 = (String.ofList ('1' :: List.replicate Numeral.maxDigits '0')).length :=
      congrArg String.length heq
    rw [String.length_ofList, List.length_cons, List.length_replicate] at hlength
    cases hlength
  have hkeys : oversizedKey.modules.map Bundle.key = ["1", tooLarge] := rfl
  simp [hkeys, hne]

theorem id?_tooLarge :
    Bundle.id? (.mk none (.number (.whole (10 ^ Numeral.maxDigits)))) = .error .oversizedId := by
  have htext : Numeral.wholeText? (10 ^ Numeral.maxDigits) = none := by decide +kernel
  simp only [Bundle.id?, Node.form, htext]

/-- All that is known of the names agrees, and no edge dangles, but naming fails. -/
theorem resolve_oversizedKey :
    ∃ sources, oversizedKey.sources none = .ok sources ∧
      (oversizedKey.modules.map Bundle.key).Nodup ∧
      IsConsistent sources ModuleName.entryNames ["1"]
        (fun id => if id = "1" then "main" else "a") ∧
      (∀ id edge, EdgeOf sources id edge → ¬ Dangles sources edge) ∧
      ∀ table, (resolve none ModuleName.entryNames oversizedKey).outcome ≠ .ok table := by
  have hs : oversizedKey.sources none = .ok _ :=
    (sources_eq_ok_iff nodup_keys_oversizedKey).2 (.cons rfl (.cons rfl .nil))
  refine ⟨_, hs, nodup_keys_oversizedKey, ?_⟩
  generalize hsources : [_, _] = sources at hs ⊢
  have hall : allEdges sources = [("1", ⟨"./a", .error .oversizedId⟩)] := by
    rw [← hsources, ← id?_tooLarge]
    rfl
  have hone : ∀ {id edge}, EdgeOf sources id edge → edge.target = .error .oversizedId := by
    intro id edge he
    have hmem := he.mem_allEdges
    rw [hall] at hmem
    cases List.mem_singleton.1 hmem
    rfl
  have hedge : EdgeOf sources "1" ⟨"./a", .error .oversizedId⟩ := by
    rw [← hsources, ← id?_tooLarge]
    exact ⟨_, rfl, .head _⟩
  refine ⟨⟨?_, ?_⟩, ?_, fun table heq => ?_⟩
  · intro id hid
    cases List.mem_singleton.1 hid
    rfl
  · intro id edge target _ he ht
    rw [hone he] at ht
    cases ht
  · rintro id edge he ⟨target, ht, -⟩
    rw [hone he] at ht
    cases ht
  · have hids : oversizedKey.entries.map Bundle.id? = ["1"].map fun id => .ok (some id) := rfl
    obtain ⟨_, -, -, -, hclean⟩ | ⟨_, _, _, herror, -⟩ :=
      resolve_cases ModuleName.entryNames hs hids
    · exact (hclean "1" _ (.entry (.head _)) hedge).2 rfl
    · rw [heq] at herror
      cases herror

end Naming

end Debundle
