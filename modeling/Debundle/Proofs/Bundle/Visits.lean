import Mathlib
import Debundle.Bundle.Naming

/-!
# Runs of the naming procedure

A module is visited once it has a name; then it proposes names for what it requires. Whatever the
passes do, a run is a list of visits (`Visits`): it ends when no module that was not visited has a
name (`passes_ok`), or at a visit that meets an edge at fault (`passes_error`). What holds of name
tables is proved along the visits (`Visits.invariant`).
-/
namespace Debundle

/-! ## Tables -/

namespace Ordered

variable {α β : Type} [DecidableEq α]

theorem get?_eq_none_iff {key : α} {table : List (α × β)} :
    get? key table = none ↔ key ∉ table.map Prod.fst := by
  induction table with
  | nil => simp [get?]
  | cons pair rest ih => grind [get?]

theorem mem_of_get? {key : α} {value : β} {table : List (α × β)}
    (h : get? key table = some value) : (key, value) ∈ table := by
  induction table with
  | nil => cases h
  | cons pair rest ih => grind [get?]

theorem get?_eq_some_iff {key : α} {value : β} {table : List (α × β)}
    (hd : (table.map Prod.fst).Nodup) : get? key table = some value ↔ (key, value) ∈ table := by
  refine ⟨mem_of_get?, fun h => ?_⟩
  induction table with
  | nil => cases h
  | cons pair rest ih =>
    obtain ⟨hnew, hrest⟩ := List.nodup_cons.1 hd
    obtain rfl | h := List.mem_cons.1 h
    · simp [get?]
    · have hne : pair.1 ≠ key := fun heq => hnew (heq ▸ List.mem_map_of_mem (f := Prod.fst) h)
      rw [get?, if_neg hne, ih hrest h]

theorem mem_keys_put {key other : α} {value : β} {table : List (α × β)} :
    other ∈ (put key value table).map Prod.fst ↔ other = key ∨ other ∈ table.map Prod.fst := by
  induction table with
  | nil => simp [put]
  | cons pair rest ih => grind [put]

theorem nodup_keys_put (key : α) (value : β) {table : List (α × β)}
    (h : (table.map Prod.fst).Nodup) : ((put key value table).map Prod.fst).Nodup := by
  induction table with
  | nil => simp [put]
  | cons pair rest ih =>
    obtain ⟨hnew, hrest⟩ := List.nodup_cons.1 h
    rw [put]
    split_ifs with heq
    · exact h
    · refine List.nodup_cons.2 ⟨fun hmem => ?_, ih hrest⟩
      obtain heq' | hmem := mem_keys_put.1 hmem
      · exact heq heq'
      · exact hnew hmem

theorem nodup_keys_ofList (pairs : List (α × β)) : ((ofList pairs).map Prod.fst).Nodup := by
  have run : ∀ table : List (α × β), (table.map Prod.fst).Nodup →
      ((pairs.foldl (fun table pair => put pair.1 pair.2 table) table).map Prod.fst).Nodup := by
    induction pairs with
    | nil => exact fun _ h => h
    | cons pair rest ih => exact fun table h => ih _ (nodup_keys_put _ _ h)
  exact run [] List.nodup_nil

end Ordered

/-! ## Logged computations -/

namespace Logged

variable {ε α β : Type}

@[simp] theorem outcome_pure (a : α) : (pure a : Logged ε α).outcome = .ok a := rfl

@[simp] theorem outcome_ofExcept (r : Except ε α) : (ofExcept r).outcome = r := rfl

@[simp] theorem outcome_bind (m : Logged ε α) (f : α → Logged ε β) :
    (m >>= f).outcome = m.outcome >>= fun a => (f a).outcome := by
  change (m.bind f).outcome = _
  unfold bind
  cases m.outcome <;> rfl

theorem bind_eq_ok {m : Logged ε α} {f : α → Logged ε β} {b : β} (h : (m >>= f).outcome = .ok b) :
    ∃ a, m.outcome = .ok a ∧ (f a).outcome = .ok b := by
  rw [outcome_bind] at h
  cases hm : m.outcome with
  | error e => rw [hm] at h; cases h
  | ok a => exact ⟨a, rfl, by rwa [hm] at h⟩

theorem bind_eq_error {m : Logged ε α} {f : α → Logged ε β} {e : ε}
    (h : (m >>= f).outcome = .error e) :
    m.outcome = .error e ∨ ∃ a, m.outcome = .ok a ∧ (f a).outcome = .error e := by
  rw [outcome_bind] at h
  cases hm : m.outcome with
  | error e' => rw [hm] at h; cases h; exact .inl rfl
  | ok a => exact .inr ⟨a, rfl, by rwa [hm] at h⟩

theorem outcome_foldlM (f : β → α → Logged ε β) (b : β) (xs : List α) :
    (xs.foldlM f b).outcome = xs.foldlM (fun b x => (f b x).outcome) b := by
  induction xs generalizing b with
  | nil => rfl
  | cons x xs ih =>
    rw [List.foldlM_cons, List.foldlM_cons, outcome_bind]
    exact congrArg _ (funext fun b => ih b)

end Logged

/-! ## Name tables -/

namespace NameTable

/-- The name of a module after a name was proposed for it. -/
def renamed (existing : Option String) (candidate : String) : String :=
  match existing with
  | none => candidate
  | some existing =>
    if Text.lower existing = Text.lower candidate || existing = indexOf candidate then existing
    else if existing.length ≤ candidate.length then existing
    else indexOf candidate

theorem get?_propose (t : NameTable) (id candidate other : String) :
    (t.propose id candidate).get? other =
      if id = other then some (renamed (t.get? id) candidate) else t.get? other := by
  have hget : ∀ name, Ordered.get? other (Ordered.put id name t.names) =
      if id = other then some name else t.get? other := fun name => Ordered.get?_put ..
  have hkept : ∀ {name}, t.get? id = some name →
      t.get? other = if id = other then some name else t.get? other := by
    intro name hname
    split_ifs with heq
    · rw [← heq, hname]
    · rfl
  cases hid : t.get? id with
  | none =>
    have hjudge : t.judge id candidate = .fresh := by rw [judge, hid]
    simp only [propose, hjudge]
    exact hget candidate
  | some existing =>
    have hjudge : t.judge id candidate =
        if Text.lower existing = Text.lower candidate || existing = indexOf candidate then .agrees
        else if existing.length ≤ candidate.length then .kept existing
        else .moved existing := by rw [judge, hid]
    simp only [propose, hjudge, renamed]
    by_cases hagree : (Text.lower existing = Text.lower candidate ||
        existing = indexOf candidate) = true
    · rw [if_pos hagree, if_pos hagree]
      exact hkept hid
    · rw [if_neg hagree, if_neg hagree]
      by_cases hle : existing.length ≤ candidate.length
      · rw [if_pos hle, if_pos hle]
        exact hkept hid
      · rw [if_neg hle, if_neg hle]
        exact hget (indexOf candidate)

@[simp] theorem entries_propose (t : NameTable) (id candidate : String) :
    (t.propose id candidate).entries = t.entries := by
  unfold propose
  dsimp only
  split <;> rfl

theorem isSome_get?_propose {t : NameTable} {id candidate other : String}
    (h : (t.get? other).isSome = true ∨ other = id) :
    ((t.propose id candidate).get? other).isSome = true := by
  rw [get?_propose]
  split_ifs with heq
  · rfl
  · exact h.resolve_right fun hother => heq hother.symm

/-- Takes note of several proposed names. -/
def proposeAll (t : NameTable) (proposals : List (String × String)) : NameTable :=
  proposals.foldl (fun t p => t.propose p.1 p.2) t

@[simp] theorem proposeAll_nil (t : NameTable) : t.proposeAll [] = t := rfl

@[simp] theorem proposeAll_cons (t : NameTable) (p : String × String)
    (proposals : List (String × String)) :
    t.proposeAll (p :: proposals) = (t.propose p.1 p.2).proposeAll proposals := rfl

theorem proposeAll_append (t : NameTable) (ps qs : List (String × String)) :
    t.proposeAll (ps ++ qs) = (t.proposeAll ps).proposeAll qs :=
  List.foldl_append

theorem proposeAll_invariant {I : NameTable → Prop} {proposals : List (String × String)}
    (step : ∀ p ∈ proposals, ∀ t, I t → I (t.propose p.1 p.2)) {t : NameTable} (h : I t) :
    I (t.proposeAll proposals) := by
  induction proposals generalizing t with
  | nil => exact h
  | cons p proposals ih =>
    exact ih (fun q hq => step q (.tail _ hq)) (step p (.head _) t h)

theorem isSome_get?_proposeAll {t : NameTable} {proposals : List (String × String)} {id : String}
    (h : (t.get? id).isSome = true ∨ id ∈ proposals.map Prod.fst) :
    ((t.proposeAll proposals).get? id).isSome = true := by
  induction proposals generalizing t with
  | nil => exact h.resolve_right List.not_mem_nil
  | cons p proposals ih =>
    refine ih ?_
    obtain h | h := h
    · exact .inl (isSome_get?_propose (.inl h))
    · obtain rfl | h := List.mem_cons.1 h
      · exact .inl (isSome_get?_propose (.inr rfl))
      · exact .inr h

end NameTable

/-! ## Visits -/

namespace Naming

/-- The edges that do not lead to a module of the bundle stop a visit: an id that cannot be read,
or one that is not in the map. -/
def fault? (ctx : Context) (line : Option Nat) (name : String) (edge : Edge) :
    Option BundleFault :=
  match edge.target with
  | .error fault => some fault
  | .ok none => none
  | .ok (some target) =>
    if (Ordered.get? target ctx.sources).isSome then none
    else some (.problem
      { cause := .absentModule name edge.specifier target, file := ctx.file, line := line })

/-- What a module named `name` proposes because of an edge. -/
def proposal? (name : String) (edge : Edge) : Option (String × String) :=
  match edge.target with
  | .ok (some target) => some (target, ModuleName.candidate name edge.specifier)
  | _ => none

/-- A module with the name that it has when its turn comes. -/
structure Visit where
  id : String
  name : String
  source : Source

namespace Visit

/-- The entry of the module map that is visited. -/
def entry (v : Visit) : String × Source := (v.id, v.source)

/-- The names that the module proposes. -/
def proposals (v : Visit) : List (String × String) :=
  v.source.edges.filterMap (proposal? v.name)

/-- What stops the visit. -/
def fault? (ctx : Context) (v : Visit) : Option BundleFault :=
  v.source.edges.findSome? (Naming.fault? ctx v.source.requires.line v.name)

end Visit

theorem mem_proposals {v : Visit} {target candidate : String} :
    (target, candidate) ∈ v.proposals ↔ ∃ edge ∈ v.source.edges,
      edge.target = .ok (some target) ∧ candidate = ModuleName.candidate v.name edge.specifier := by
  simp only [Visit.proposals, List.mem_filterMap]
  refine exists_congr fun edge => and_congr_right fun _ => ?_
  unfold proposal?
  split <;> simp_all [eq_comm]

theorem outcome_follow (ctx : Context) (line : Option Nat) (name : String) (t : NameTable)
    (edge : Edge) :
    (follow ctx line name t edge).outcome =
      match fault? ctx line name edge with
      | some fault => .error fault
      | none => .ok (t.proposeAll (proposal? name edge).toList) := by
  unfold follow fault? proposal?
  split
  · rename_i fault htarget
    simp only [htarget]
    rfl
  · rename_i htarget
    simp only [htarget]
    rfl
  · rename_i target htarget
    simp only [htarget]
    split_ifs <;> rfl

theorem outcome_visit (ctx : Context) (t : NameTable) (v : Visit) :
    (visit ctx v.name t v.source).outcome =
      match v.fault? ctx with
      | some fault => .error fault
      | none => .ok (t.proposeAll v.proposals) := by
  rw [visit, Logged.outcome_foldlM, Visit.fault?, Visit.proposals]
  induction v.source.edges generalizing t with
  | nil => rfl
  | cons edge edges ih =>
    rw [List.foldlM_cons, outcome_follow, List.findSome?_cons]
    cases fault? ctx v.source.requires.line v.name edge with
    | some fault => rfl
    | none =>
      refine (ih _).trans ?_
      cases hp : proposal? v.name edge <;> simp [hp]

/-- A run from one table to another: modules that have names are visited one after the other. -/
inductive Visits (ctx : Context) : NameTable → List Visit → NameTable → Prop
  | nil (t : NameTable) : Visits ctx t [] t
  | cons {t t' : NameTable} {v : Visit} {vs : List Visit} (named : t.get? v.id = some v.name)
      (clean : v.fault? ctx = none) (rest : Visits ctx (t.proposeAll v.proposals) vs t') :
      Visits ctx t (v :: vs) t'

namespace Visits

variable {ctx : Context} {t t' t'' : NameTable} {vs ws : List Visit}

theorem append (h : Visits ctx t vs t') (h' : Visits ctx t' ws t'') :
    Visits ctx t (vs ++ ws) t'' := by
  induction h with
  | nil t => exact h'
  | cons named clean _ ih => exact .cons named clean (ih h')

theorem clean (h : Visits ctx t vs t') : ∀ v ∈ vs, v.fault? ctx = none := by
  induction h with
  | nil t => exact nofun
  | cons _ clean _ ih => exact List.forall_mem_cons.2 ⟨clean, ih⟩

theorem eq_proposeAll (h : Visits ctx t vs t') :
    t' = t.proposeAll (vs.flatMap Visit.proposals) := by
  induction h with
  | nil t => rfl
  | cons _ _ _ ih => rw [ih, List.flatMap_cons, NameTable.proposeAll_append]

theorem invariant {I : NameTable → Prop} (h : Visits ctx t vs t') (h0 : I t)
    (step : ∀ v ∈ vs, (∃ u, I u ∧ u.get? v.id = some v.name) →
      ∀ p ∈ v.proposals, ∀ u, I u → I (u.propose p.1 p.2)) : I t' := by
  induction h with
  | nil t => exact h0
  | cons named _ _ ih =>
    refine ih ?_ fun v hv => step v (.tail _ hv)
    exact NameTable.proposeAll_invariant (step _ (.head _) ⟨_, h0, named⟩) h0

theorem isSome_get? (h : Visits ctx t vs t') {id : String}
    (hid : (t.get? id).isSome = true ∨ ∃ v ∈ vs, id ∈ v.proposals.map Prod.fst) :
    (t'.get? id).isSome = true := by
  rw [h.eq_proposeAll]
  refine NameTable.isSome_get?_proposeAll (hid.imp_right fun ⟨v, hv, hmem⟩ => ?_)
  rw [List.map_flatMap]
  exact List.mem_flatMap.2 ⟨v, hv, hmem⟩

theorem isSome_get?_of_mem (h : Visits ctx t vs t') : ∀ v ∈ vs, (t'.get? v.id).isSome = true := by
  induction h with
  | nil t => exact nofun
  | cons named clean rest ih =>
    refine List.forall_mem_cons.2 ⟨?_, ih⟩
    exact (cons named clean rest).isSome_get? (.inl (by rw [named]; rfl))

end Visits

/-! ## Passes -/

variable {ctx : Context} {pending deferred : Sources} {t t' : NameTable} {fault : BundleFault}

/-- What a pass does: it visits some of the modules and puts off the others. If it visits none,
none of them has a name. -/
theorem pass_ok (h : (pass ctx pending t).outcome = .ok (t', deferred)) :
    ∃ vs, Visits ctx t vs t' ∧ (vs.map Visit.entry ++ deferred).Perm pending ∧
      (vs = [] → ∀ p ∈ deferred, t.get? p.1 = none) := by
  induction pending generalizing t t' deferred with
  | nil =>
    cases h
    exact ⟨[], .nil t, .nil, nofun⟩
  | cons p pending ih =>
    obtain ⟨id, source⟩ := p
    rw [pass] at h
    cases hname : t.get? id with
    | none =>
      simp only [hname] at h
      obtain ⟨⟨u, others⟩, hpass, h⟩ := Logged.bind_eq_ok h
      cases h
      obtain ⟨vs, hvs, hperm, hnone⟩ := ih hpass
      exact ⟨vs, hvs, List.perm_middle.trans (hperm.cons _),
        fun h0 => List.forall_mem_cons.2 ⟨hname, hnone h0⟩⟩
    | some name =>
      simp only [hname] at h
      obtain ⟨u, hvisit, hpass⟩ := Logged.bind_eq_ok h
      have hv := outcome_visit ctx t ⟨id, name, source⟩
      rw [hvisit] at hv
      split at hv
      · cases hv
      · rename_i hclean
        cases hv
        obtain ⟨vs, hvs, hperm, -⟩ := ih hpass
        exact ⟨⟨id, name, source⟩ :: vs, .cons hname hclean hvs, hperm.cons _, nofun⟩

/-- A run from a table that is stopped by the visit of a module of `pending`. -/
def Stops (ctx : Context) (pending : Sources) (t : NameTable) (fault : BundleFault) : Prop :=
  ∃ vs v t', Visits ctx t vs t' ∧ (∀ w ∈ v :: vs, w.entry ∈ pending) ∧
    t'.get? v.id = some v.name ∧ v.fault? ctx = some fault

theorem Stops.after {vs : List Visit} {rest : Sources} (h : Visits ctx t vs t')
    (hs : Stops ctx rest t' fault) (hvs : ∀ v ∈ vs, v.entry ∈ pending)
    (hrest : ∀ p ∈ rest, p ∈ pending) : Stops ctx pending t fault := by
  obtain ⟨ws, v, u, hws, hmem, hname, hfault⟩ := hs
  rw [List.forall_mem_cons] at hmem
  refine ⟨vs ++ ws, v, u, h.append hws, ?_, hname, hfault⟩
  rw [List.forall_mem_cons, List.forall_mem_append]
  exact ⟨hrest _ hmem.1, hvs, fun w hw => hrest _ (hmem.2 w hw)⟩

theorem pass_error (h : (pass ctx pending t).outcome = .error fault) :
    Stops ctx pending t fault := by
  induction pending generalizing t with
  | nil => cases h
  | cons p pending ih =>
    obtain ⟨id, source⟩ := p
    rw [pass] at h
    cases hname : t.get? id with
    | none =>
      simp only [hname] at h
      obtain h | ⟨_, -, h⟩ := Logged.bind_eq_error h
      · exact .after (.nil t) (ih h) nofun fun _ => .tail _
      · cases h
    | some name =>
      simp only [hname] at h
      have hv := outcome_visit ctx t ⟨id, name, source⟩
      obtain h | ⟨u, hvisit, hpass⟩ := Logged.bind_eq_error h
      · rw [h] at hv
        split at hv
        · rename_i fault hfault
          cases hv
          exact ⟨[], ⟨id, name, source⟩, t, .nil t, by simp [Visit.entry], hname, hfault⟩
        · cases hv
      · rw [hvisit] at hv
        split at hv
        · cases hv
        · rename_i hclean
          cases hv
          exact .after (.cons hname hclean (.nil _)) (ih hpass) (by simp [Visit.entry])
            fun _ => .tail _

/-- A run that ends has visited all modules of `pending` that have a name in the end. -/
def Ends (ctx : Context) (pending : Sources) (t t' : NameTable) : Prop :=
  ∃ vs deferred, Visits ctx t vs t' ∧ (vs.map Visit.entry ++ deferred).Perm pending ∧
    ∀ p ∈ deferred, t'.get? p.1 = none

theorem Ends.of_isEmpty (h : pending.isEmpty = true) : Ends ctx pending t t := by
  cases List.isEmpty_iff.1 h
  exact ⟨[], [], .nil t, .nil, nofun⟩

/-- As many passes as there are modules are enough. -/
theorem passes_ok {fuel : Nat} (hf : pending.length ≤ fuel)
    (h : (passes ctx fuel pending t).outcome = .ok t') : Ends ctx pending t t' := by
  induction fuel generalizing pending t with
  | zero =>
    cases h
    exact .of_isEmpty (by simpa using hf)
  | succ fuel ih =>
    rw [passes] at h
    split_ifs at h with hempty
    · cases h
      exact .of_isEmpty hempty
    · obtain ⟨⟨u, deferred⟩, hpass, h⟩ := Logged.bind_eq_ok h
      obtain ⟨vs, hvs, hperm, hnone⟩ := pass_ok hpass
      have hlen : vs.length + deferred.length = pending.length := by
        simpa using hperm.length_eq
      dsimp only at h
      split_ifs at h with hstay
      · -- Nothing was visited, so the table is the one from before.
        obtain ⟨_, -, h⟩ := Logged.bind_eq_ok h
        cases h
        cases List.eq_nil_of_length_eq_zero (by omega : vs.length = 0)
        cases hvs
        exact ⟨[], deferred, .nil _, hperm, hnone rfl⟩
      · obtain ⟨ws, others, hws, hperm', hnone'⟩ := ih (by omega) h
        refine ⟨vs ++ ws, others, hvs.append hws, ?_, hnone'⟩
        rw [List.map_append, List.append_assoc]
        exact (hperm'.append_left _).trans hperm

theorem outcome_unnamed {ε : Type} (sources : Sources) :
    (unnamed sources : Logged ε Unit).outcome = .ok () := by
  induction sources with
  | nil => rfl
  | cons p sources ih =>
    rw [unnamed, List.forM, Logged.outcome_bind]
    exact ih

theorem passes_error {fuel : Nat} (h : (passes ctx fuel pending t).outcome = .error fault) :
    Stops ctx pending t fault := by
  induction fuel generalizing pending t with
  | zero => cases h
  | succ fuel ih =>
    rw [passes] at h
    split_ifs at h
    · cases h
    · obtain h | ⟨⟨u, deferred⟩, hpass, h⟩ := Logged.bind_eq_error h
      · exact pass_error h
      · obtain ⟨vs, hvs, hperm, -⟩ := pass_ok hpass
        dsimp only at h
        split_ifs at h
        · rw [Logged.outcome_bind, outcome_unnamed] at h
          cases h
        · refine .after hvs (ih h) (fun v hv => ?_) fun p hp => ?_
          · exact hperm.subset (List.mem_append_left _ (List.mem_map_of_mem hv))
          · exact hperm.subset (List.mem_append_right _ hp)

end Naming

end Debundle
