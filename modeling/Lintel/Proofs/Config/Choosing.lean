import Lintel.Proofs.Config.Export

/-!
# Choosing rules by name

Rules are chosen on the command line by the names of groups, by full names and by bare names, which
share one space of names. `Catalog.Resolves` says what a name stands for, without the functions that
look it up. All rules are disabled, those with a name in one list are enabled, and those with a name
in another are disabled again; afterwards exactly the rules are enabled that the first list names
and the second does not, whatever was enabled before (`Invocation.adjust_chooses`).

Each of the three changes is one function over all rules: a change by a name switches one rule
(`Config.Lawful.updateRule_eq`), and one change after the other switches those that are named
(`Config.Lawful.updateEach_eq`). Names may be repeated and overlap. An obligatory rule is switched
as any other and takes no notice.

The names of groups must have no slash in them. All rules are disabled by their full names, and a
group with the full name of a rule would be taken for the rule.
-/

namespace Lintel

variable {σ : Type}

theorem find?_of_nodup {α : Type} {name : α → String} {xs : List α} (hnodup : (xs.map name).Nodup)
    {x : α} (hx : x ∈ xs) : xs.find? (name · == name x) = some x := by
  cases hfind : xs.find? (name · == name x) with
  | none => exact absurd (beq_self_eq_true _) (List.find?_eq_none.mp hfind x hx)
  | some y =>
    have hname := List.find?_some hfind
    rw [List.inj_on_of_nodup_map hnodup (List.mem_of_find?_eq_some hfind) hx (beq_iff_eq.mp hname)]

/-! ### What names stand for -/

namespace Catalog

/-- What a name stands for: the kinds of the group with this name; or else the kind with this full
name; or else the first kind with this bare name. -/
inductive Resolves (c : Catalog σ) (name : String) : RuleKind σ → Prop where
  | group {k : RuleKind σ} (hk : k ∈ c.kinds) (hname : k.profile.group = name) : Resolves c name k
  | full {k : RuleKind σ} (hgroup : ∀ k' ∈ c.kinds, k'.profile.group ≠ name) (hk : k ∈ c.kinds)
      (hname : k.fullName = name) : Resolves c name k
  | bare {k : RuleKind σ} {before after : List (RuleKind σ)}
      (hgroup : ∀ k' ∈ c.kinds, k'.profile.group ≠ name) (hfull : ∀ k' ∈ c.kinds, k'.fullName ≠ name)
      (hkinds : c.kinds = before ++ k :: after) (hfirst : ∀ k' ∈ before, k'.profile.name ≠ name)
      (hname : k.profile.name = name) : Resolves c name k

def Names (c : Catalog σ) (names : List String) (k : RuleKind σ) : Prop :=
  ∃ name ∈ names, c.Resolves name k

variable {c : Catalog σ} {name : String} {k : RuleKind σ}

theorem mem_groups : name ∈ c.groups ↔ ∃ k ∈ c.kinds, k.profile.group = name := by
  -- the groups that were met before the kinds that are left
  have hfold : ∀ (ks : List (RuleKind σ)) (gs : List String),
      name ∈ ks.foldl (fun gs k => if gs.contains k.profile.group then gs
        else gs ++ [k.profile.group]) gs ↔ name ∈ gs ∨ ∃ k ∈ ks, k.profile.group = name := by
    intro ks
    induction ks with
    | nil => simp
    | cons k ks ih =>
      intro gs
      rw [List.foldl_cons, ih, List.exists_mem_cons_iff, ← or_assoc]
      by_cases hmem : k.profile.group ∈ gs
      · rw [if_pos (List.contains_iff_mem.mpr hmem)]
        exact or_congr_left ⟨.inl, fun h => h.elim id (· ▸ hmem)⟩
      · rw [if_neg (fun h => hmem (List.contains_iff_mem.mp h)), List.mem_append,
          List.mem_singleton, eq_comm (a := name)]
  exact (hfold c.kinds []).trans (or_iff_right List.not_mem_nil)

theorem resolves_iff_of_group (hgroup : name ∈ c.groups) :
    c.Resolves name k ↔ k ∈ c.kinds ∧ k.profile.group = name := by
  obtain ⟨k', hk', hname'⟩ := mem_groups.mp hgroup
  constructor
  · intro h
    cases h with
    | group hk hname => exact ⟨hk, hname⟩
    -- the other two ways ask that no kind has the name for its group
    | full hgroups => exact absurd hname' (hgroups k' hk')
    | bare hgroups => exact absurd hname' (hgroups k' hk')
  · exact fun ⟨hk, hname⟩ => .group hk hname

theorem find?_of_fullName (hdistinct : c.Distinct) (hk : k ∈ c.kinds) :
    c.find? k.fullName = some k := by
  unfold find?
  rw [find?_of_nodup hdistinct hk]

theorem mem_of_find? (h : c.find? name = some k) : k ∈ c.kinds := by
  unfold find? at h
  split at h
  · next hfind => exact Option.some.inj h ▸ List.mem_of_find?_eq_some hfind
  · exact List.mem_of_find?_eq_some h

/-- **Looking up a name that is no group's** finds what it stands for. -/
theorem find?_eq_some_iff (hdistinct : c.Distinct) (hgroup : name ∉ c.groups) :
    c.find? name = some k ↔ c.Resolves name k := by
  have hgroups : ∀ k ∈ c.kinds, k.profile.group ≠ name :=
    fun k hk heq => hgroup (mem_groups.mpr ⟨k, hk, heq⟩)
  constructor
  · intro h
    unfold find? at h
    split at h
    · -- found by its full name
      next k' hfind =>
      cases h
      have hname := List.find?_some hfind
      exact .full hgroups (List.mem_of_find?_eq_some hfind) (beq_iff_eq.mp hname)
    · -- no full name: the first kind of this bare name
      next hnone =>
      have hfull : ∀ k' ∈ c.kinds, k'.fullName ≠ name := fun k' hk' heq =>
        List.find?_eq_none.mp hnone k' hk' (beq_iff_eq.mpr heq)
      obtain ⟨hname, before, after, hkinds, hfirst⟩ := List.find?_eq_some_iff_append.mp h
      refine .bare hgroups hfull hkinds (fun k' hk' heq => ?_) (beq_iff_eq.mp hname)
      have := hfirst k' hk'
      rw [beq_iff_eq.mpr heq] at this
      cases this
  · intro h
    cases h with
    | group hk hname => exact absurd hname (hgroups _ hk)
    | full _ hk hname => exact hname ▸ find?_of_fullName hdistinct hk
    | bare _ hfull hkinds hfirst hname =>
      -- A bare name is looked at only after no full name was found.
      have hnone : c.kinds.find? (·.fullName == name) = none :=
        List.find?_eq_none.mpr fun k' hk' heq => hfull k' hk' (beq_iff_eq.mp heq)
      unfold find?
      rw [hnone]
      refine List.find?_eq_some_iff_append.mpr
        ⟨beq_iff_eq.mpr hname, _, _, hkinds, fun k' hk' => ?_⟩
      rw [beq_eq_false_iff_ne.mpr (hfirst k' hk')]
      rfl

end Catalog

/-! ### Switching rules -/

namespace Rule

variable {r : Rule σ}

/-- The rule switched on or off. It excludes nothing any more. -/
def switched (b : Bool) (r : Rule σ) : Rule σ :=
  ⟨r.kind, { r.config with enabled := b, excluded := none }⟩

/-- **An update that switches a rule** keeps its severity and its options: all fields are read again
from the values they have. -/
theorem update_enabled {v : Validation} (hv : v.Lawful) (hfits : r.Fits) (b : Bool) :
    r.update (Config.RuleUpdate.entries { enabled := .bool b }) v = .ok (r.switched b) := by
  -- the two fields are put in their places; the others are not touched
  have hentries : (Config.RuleUpdate.entries { enabled := .bool b }).foldl
      (fun es e => Data.put e.1 e.2 es) (v.dump r.config.values)
      = v.dump (r.switched b).config.values := by
    rw [hv.dump_eq, hv.dump_eq]
    rfl
  have hread : RuleConfig.ofEntries r.kind.defaults (v.dump (r.switched b).config.values) v
      = .ok (r.switched b).config := RuleConfig.ofEntries_dump hv hfits
  rw [Rule.update, hentries, Rule.ofSection, hread]
  rfl

def switchIn (fullNames : List String) (b : Bool) (r : Rule σ) : Rule σ :=
  if r.fullName ∈ fullNames then r.switched b else r

theorem kind_switchIn (fullNames : List String) (b : Bool) (r : Rule σ) :
    (r.switchIn fullNames b).kind = r.kind := by
  unfold switchIn
  split <;> rfl

theorem Fits.switchIn (h : r.Fits) (fullNames : List String) (b : Bool) :
    (r.switchIn fullNames b).Fits := by
  unfold Rule.switchIn
  split
  · exact h
  · exact h

theorem switchIn_of_mem {fullNames : List String} (b : Bool) (h : r.fullName ∈ fullNames) :
    r.switchIn fullNames b = r.switched b :=
  if_pos h

theorem switchIn_of_not_mem {fullNames : List String} (b : Bool) (h : r.fullName ∉ fullNames) :
    r.switchIn fullNames b = r :=
  if_neg h

/-- Of two switches the last one counts. -/
theorem switchIn_switched (fullNames : List String) (b b' : Bool) (r : Rule σ) :
    (r.switched b').switchIn fullNames b
      = r.switched (if r.fullName ∈ fullNames then b else b') := by
  have hname : (r.switched b').fullName = r.fullName := rfl
  unfold switchIn
  rw [hname]
  split <;> rfl

theorem switchIn_switchIn (name : String) (fullNames : List String) (b : Bool) (r : Rule σ) :
    (r.switchIn [name] b).switchIn fullNames b = r.switchIn (name :: fullNames) b := by
  by_cases hname : r.fullName = name
  · rw [switchIn_of_mem b (List.mem_singleton.mpr hname),
      switchIn_of_mem b (List.mem_cons.mpr (.inl hname)), switchIn_switched, ite_self]
  · rw [switchIn_of_not_mem b (fun h => hname (List.mem_singleton.mp h))]
    unfold switchIn
    simp only [List.mem_cons, hname, false_or]

end Rule

namespace Config

variable {catalog : Catalog σ} {c : Config σ} {rs : List (Rule σ)} {name : String} {v : Validation}

theorem replaceRule_switched (hnodup : (rs.map Rule.fullName).Nodup) {r : Rule σ} (b : Bool)
    (hfind : rs.find? (·.fullName == name) = some r) :
    replaceRule (r.switched b) rs = rs.map (Rule.switchIn [name] b) := by
  have hr : r.fullName = name := by
    have := List.find?_some hfind
    exact beq_iff_eq.mp this
  induction rs with
  | nil => cases hfind
  | cons x rs ih =>
    rw [List.map_cons, List.nodup_cons] at hnodup
    rw [List.find?_cons] at hfind
    unfold replaceRule
    rw [List.map_cons, show (r.switched b).fullName = name from hr]
    cases hx : x.fullName == name with
    | true =>
      rw [hx] at hfind
      cases hfind
      -- no other rule has the name
      have hrest : rs.map (Rule.switchIn [name] b) = rs.map id :=
        List.map_congr_left fun y hy => Rule.switchIn_of_not_mem b fun h =>
          hnodup.1 (List.mem_map.mpr ⟨y, hy, (List.mem_singleton.mp h).trans hr.symm⟩)
      rw [if_pos rfl, hrest, List.map_id, Rule.switchIn_of_mem b (List.mem_singleton.mpr hr)]
    | false =>
      rw [hx] at hfind
      rw [if_neg Bool.false_ne_true, ih hnodup.2 hfind, Rule.switchIn_of_not_mem b fun h =>
        beq_eq_false_iff_ne.mp hx (List.mem_singleton.mp h)]

def switchIn (c : Config σ) (fullNames : List String) (b : Bool) : Config σ :=
  { c with rules := c.rules.map (Rule.switchIn fullNames b) }

theorem Lawful.switchIn (hc : c.Lawful catalog) (fullNames : List String) (b : Bool) :
    (c.switchIn fullNames b).Lawful catalog where
  catalog_eq := hc.catalog_eq
  kinds_eq := by
    -- The switch rewrites configurations only, so the kinds are those of the catalog as before.
    change (c.rules.map (Rule.switchIn fullNames b)).map Rule.kind = _
    rw [List.map_map, ← hc.kinds_eq]
    exact List.map_congr_left fun r _ => Rule.kind_switchIn fullNames b r
  fits := List.forall_mem_map.mpr fun r hr => (hc.fits r hr).switchIn fullNames b
  nonneg := hc.nonneg

theorem switchIn_switchIn (c : Config σ) (name : String) (fullNames : List String) (b : Bool) :
    (c.switchIn [name] b).switchIn fullNames b = c.switchIn (name :: fullNames) b := by
  unfold switchIn
  simp only [List.map_map]
  congr 1
  exact List.map_congr_left fun r _ => Rule.switchIn_switchIn name fullNames b r

theorem switchIn_nil (c : Config σ) (b : Bool) : c.switchIn [] b = c := by
  unfold switchIn
  rw [List.map_congr_left fun r _ => Rule.switchIn_of_not_mem b List.not_mem_nil, List.map_id']

theorem Lawful.exists_rule (hc : c.Lawful catalog) {k : RuleKind σ} (hk : k ∈ catalog.kinds) :
    ∃ r ∈ c.rules, r.kind = k := by
  rw [← hc.kinds_eq] at hk
  exact List.mem_map.mp hk

/-- **One change by a name** switches one rule. -/
theorem Lawful.updateRule_eq (hv : v.Lawful) (hc : c.Lawful catalog) (hdistinct : catalog.Distinct)
    {k : RuleKind σ} (hfind : catalog.find? name = some k) (b : Bool) :
    c.updateRule name { enabled := .bool b } v = .ok (c.switchIn [k.fullName] b) := by
  obtain ⟨r, hr, rfl⟩ := hc.exists_rule (Catalog.mem_of_find? hfind)
  have hrule : c.rules.find? (·.fullName == r.kind.fullName) = some r :=
    find?_of_nodup (hc.nodup_fullName hdistinct) hr
  -- the name finds a kind in the catalog, and the kind finds the one rule of its full name
  have hlookup : c.rule? name = some r := by
    rw [rule?, hc.catalog_eq, hfind]
    exact hrule
  unfold Config.updateRule
  rw [hlookup]
  simp only [Rule.update_enabled hv (hc.fits r hr)]
  rw [replaceRule_switched (hc.nodup_fullName hdistinct) b hrule]
  rfl

theorem Lawful.updateRule_unknown (hc : c.Lawful catalog) (hfind : catalog.find? name = none)
    (u : RuleUpdate) : c.updateRule name u v = .error (.unknownRule name) := by
  have hlookup : c.rule? name = none := by
    rw [rule?, hc.catalog_eq, hfind]
  unfold Config.updateRule
  rw [hlookup]

/-- **Changes by names one after the other** switch the rules that are found. -/
theorem Lawful.updateEach_eq (hv : v.Lawful) (hc : c.Lawful catalog) (hdistinct : catalog.Distinct)
    (b : Bool) {names : List String} (hfind : ∀ name ∈ names, ∃ k, catalog.find? name = some k) :
    ∃ fullNames, Config.updateEach { enabled := .bool b } v names c = ⟨c.switchIn fullNames b, none⟩ ∧
      ∀ fullName, fullName ∈ fullNames ↔
        ∃ name ∈ names, ∃ k, catalog.find? name = some k ∧ k.fullName = fullName := by
  -- on the names; the configuration after a step is as lawful as the one before
  induction names generalizing c with
  | nil => exact ⟨[], by rw [switchIn_nil]; rfl, by simp⟩
  | cons name names ih =>
    rw [List.forall_mem_cons] at hfind
    obtain ⟨⟨k, hk⟩, hrest⟩ := hfind
    obtain ⟨fullNames, heach, hmem⟩ := ih (hc.switchIn [k.fullName] b) hrest
    refine ⟨k.fullName :: fullNames, ?_, fun fullName => ?_⟩
    · unfold Config.updateEach
      simp only [hc.updateRule_eq hv hdistinct hk, heach, switchIn_switchIn]
    · rw [List.mem_cons, hmem, List.exists_mem_cons_iff, hk]
      simp [eq_comm]

/-- **Changes fail at the first name that is not found.** -/
theorem Lawful.updateEach_unknown (hv : v.Lawful) (hc : c.Lawful catalog)
    (hdistinct : catalog.Distinct) (b : Bool) {names : List String}
    (hnone : ∃ name ∈ names, catalog.find? name = none) :
    ∃ name ∈ names, catalog.find? name = none ∧
      (Config.updateEach { enabled := .bool b } v names c).error = some (.unknownRule name) := by
  induction names generalizing c with
  | nil =>
    obtain ⟨_, h, -⟩ := hnone
    cases h
  | cons name names ih =>
    unfold Config.updateEach
    cases hfind : catalog.find? name with
    | none =>
      exact ⟨name, List.mem_cons_self, hfind, by rw [hc.updateRule_unknown hfind]⟩
    | some k =>
      -- what is found is switched, and the failure comes later
      rw [List.exists_mem_cons_iff, hfind] at hnone
      obtain ⟨name', hname', hnone', herror⟩ :=
        ih (hc.switchIn [k.fullName] b) (hnone.resolve_left (Option.some_ne_none k))
      refine ⟨name', List.mem_cons_of_mem _ hname', hnone', ?_⟩
      simp only [hc.updateRule_eq hv hdistinct hfind]
      exact herror

theorem Lawful.mem_resolve_of_group (hc : c.Lawful catalog) (hgroup : name ∈ catalog.groups)
    {n : String} :
    n ∈ c.resolve name ↔ ∃ k ∈ catalog.kinds, k.profile.group = name ∧ k.fullName = n := by
  unfold Config.resolve
  -- the rules of a lawful configuration are of the kinds of the catalog, one each
  rw [hc.catalog_eq, if_pos (List.contains_iff_mem.mpr hgroup), ← hc.kinds_eq]
  constructor
  · intro h
    obtain ⟨r, hr, rfl⟩ := List.mem_map.mp h
    obtain ⟨hr, hname⟩ := List.mem_filter.mp hr
    exact ⟨r.kind, List.mem_map_of_mem hr, beq_iff_eq.mp hname, rfl⟩
  · rintro ⟨k, hk, hname, rfl⟩
    obtain ⟨r, hr, rfl⟩ := List.mem_map.mp hk
    exact List.mem_map.mpr ⟨r, List.mem_filter.mpr ⟨hr, beq_iff_eq.mpr hname⟩, rfl⟩

theorem Lawful.resolve_of_not_group (hc : c.Lawful catalog) (hgroup : name ∉ catalog.groups) :
    c.resolve name = [name] := by
  unfold Config.resolve
  rw [hc.catalog_eq]
  exact if_neg fun h => hgroup (List.contains_iff_mem.mp h)

/-- **What is changed by a name** is what the name stands for. -/
theorem Lawful.exists_resolve_iff (hc : c.Lawful catalog) (hdistinct : catalog.Distinct)
    {k : RuleKind σ} : (∃ n ∈ c.resolve name, catalog.find? n = some k) ↔ catalog.Resolves name k := by
  by_cases hgroup : name ∈ catalog.groups
  · rw [Catalog.resolves_iff_of_group hgroup]
    constructor
    · rintro ⟨n, hn, hfind⟩
      obtain ⟨k', hk', hname, rfl⟩ := (hc.mem_resolve_of_group hgroup).mp hn
      cases (Catalog.find?_of_fullName hdistinct hk').symm.trans hfind
      exact ⟨hk', hname⟩
    · rintro ⟨hk, hname⟩
      exact ⟨k.fullName, (hc.mem_resolve_of_group hgroup).mpr ⟨k, hk, hname, rfl⟩,
        Catalog.find?_of_fullName hdistinct hk⟩
  · -- a name that is no group stands for itself, and the lookup decides
    rw [hc.resolve_of_not_group hgroup]
    simp only [List.mem_singleton, exists_eq_left]
    exact Catalog.find?_eq_some_iff hdistinct hgroup

theorem Lawful.resolve_of_unknown (hc : c.Lawful catalog)
    (h : ∀ k, ¬ catalog.Resolves name k) : c.resolve name = [name] := by
  refine hc.resolve_of_not_group fun hgroup => ?_
  obtain ⟨k, hk, hname⟩ := Catalog.mem_groups.mp hgroup
  exact h k (.group hk hname)

/-- What a name that stands for something is resolved to is found. -/
theorem Lawful.find?_of_mem_resolve (hc : c.Lawful catalog) (hdistinct : catalog.Distinct)
    {k : RuleKind σ} (h : catalog.Resolves name k) {n : String} (hn : n ∈ c.resolve name) :
    ∃ k', catalog.find? n = some k' := by
  by_cases hgroup : name ∈ catalog.groups
  · obtain ⟨k', hk', -, rfl⟩ := (hc.mem_resolve_of_group hgroup).mp hn
    exact ⟨k', Catalog.find?_of_fullName hdistinct hk'⟩
  · rw [hc.resolve_of_not_group hgroup, List.mem_singleton] at hn
    exact ⟨k, hn ▸ (Catalog.find?_eq_some_iff hdistinct hgroup).mpr h⟩

/-- **Changes by names that stand for something** switch what they stand for. -/
theorem Lawful.updateRules_eq (hv : v.Lawful) (hc : c.Lawful catalog)
    (hdistinct : catalog.Distinct) (b : Bool) {names : List String}
    (hall : ∀ name ∈ names, ∃ k, catalog.Resolves name k) :
    ∃ fullNames,
      (c.updateRules names { enabled := .bool b } v).result = .ok (c.switchIn fullNames b) ∧
      ∀ k ∈ catalog.kinds, k.fullName ∈ fullNames ↔ catalog.Names names k := by
  -- Every name resolves to full names, and each of these is found.
  have hfind : ∀ n ∈ names.flatMap c.resolve, ∃ k, catalog.find? n = some k := by
    intro n hn
    obtain ⟨name, hname, hn⟩ := List.mem_flatMap.mp hn
    obtain ⟨k, hk⟩ := hall name hname
    exact hc.find?_of_mem_resolve hdistinct hk hn
  obtain ⟨fullNames, heach, hmem⟩ := hc.updateEach_eq hv hdistinct b hfind
  refine ⟨fullNames, by rw [Config.updateRules, heach]; rfl, fun k hk => ?_⟩
  rw [hmem]
  constructor
  · rintro ⟨n, hn, k', hfind', hname'⟩
    obtain ⟨name, hname, hn⟩ := List.mem_flatMap.mp hn
    -- No other kind has this full name.
    rw [hdistinct.eq_of_fullName (Catalog.mem_of_find? hfind') hk hname'] at hfind'
    exact ⟨name, hname, (hc.exists_resolve_iff hdistinct).mp ⟨n, hn, hfind'⟩⟩
  · rintro ⟨name, hname, hresolves⟩
    obtain ⟨n, hn, hfind'⟩ := (hc.exists_resolve_iff hdistinct).mpr hresolves
    exact ⟨n, List.mem_flatMap.mpr ⟨name, hname, hn⟩, k, hfind', rfl⟩

/-- **Changes fail at a name that stands for nothing.** -/
theorem Lawful.updateRules_unknown (hv : v.Lawful) (hc : c.Lawful catalog)
    (hdistinct : catalog.Distinct) (b : Bool) {names : List String}
    (hnone : ∃ name ∈ names, ∀ k, ¬ catalog.Resolves name k) :
    ∃ name ∈ names, (∀ k, ¬ catalog.Resolves name k) ∧
      (c.updateRules names { enabled := .bool b } v).result = .error (.unknownRule name) := by
  have hfind : ∃ n ∈ names.flatMap c.resolve, catalog.find? n = none := by
    obtain ⟨name, hname, hunknown⟩ := hnone
    have hself : name ∈ c.resolve name := by
      rw [hc.resolve_of_unknown hunknown]
      exact List.mem_singleton_self name
    refine ⟨name, List.mem_flatMap.mpr ⟨name, hname, hself⟩, ?_⟩
    rw [Option.eq_none_iff_forall_ne_some]
    exact fun k hk => hunknown k ((hc.exists_resolve_iff hdistinct).mp ⟨name, hself, hk⟩)
  obtain ⟨n, hn, hnone', herror⟩ := hc.updateEach_unknown hv hdistinct b hfind
  obtain ⟨name, hname, hn⟩ := List.mem_flatMap.mp hn
  -- the rules of a group are found, so that it is not a group that fails
  have hunknown : ∀ k, ¬ catalog.Resolves name k := by
    intro k hk
    obtain ⟨k', hk'⟩ := hc.find?_of_mem_resolve hdistinct hk hn
    rw [hnone'] at hk'
    cases hk'
  rw [hc.resolve_of_unknown hunknown, List.mem_singleton] at hn
  refine ⟨name, hname, hunknown, ?_⟩
  rw [Config.updateRules, Updated.result, herror, hn]

/-- All rules are disabled by their full names, if these are the names of no groups. -/
theorem Lawful.disable_all (hv : v.Lawful) (hc : c.Lawful catalog) (hdistinct : catalog.Distinct)
    (hgroups : ∀ k ∈ catalog.kinds, '/' ∉ k.profile.group.toList) :
    ∃ fullNames, c.disable (c.rules.map (·.fullName)) v = .ok (c.switchIn fullNames false) ∧
      ∀ r ∈ c.rules, r.fullName ∈ fullNames := by
  have hkind : ∀ r ∈ c.rules, r.kind ∈ catalog.kinds :=
    fun r hr => hc.kinds_eq ▸ List.mem_map_of_mem hr
  -- a full name has a slash in it
  have hself : ∀ r ∈ c.rules, catalog.Resolves r.fullName r.kind := fun r hr =>
    .full (fun k hk heq => hgroups k hk (heq ▸ mem_fullName r.kind.profile)) (hkind r hr) rfl
  have hall : ∀ name ∈ c.rules.map (·.fullName), ∃ k, catalog.Resolves name k :=
    List.forall_mem_map.mpr fun r hr => ⟨r.kind, hself r hr⟩
  obtain ⟨fullNames, hdisable, hmem⟩ := hc.updateRules_eq hv hdistinct false hall
  exact ⟨fullNames, hdisable, fun r hr =>
    (hmem r.kind (hkind r hr)).mpr ⟨r.fullName, List.mem_map_of_mem hr, hself r hr⟩⟩

end Config

/-! ### The command line -/

structure Rule.Chosen (named excepted : RuleKind σ → Prop) (r r' : Rule σ) : Prop where
  kind_eq : r'.kind = r.kind
  severity_eq : r'.config.severity = r.config.severity
  options_eq : r'.config.options = r.config.options
  excluded_eq : r'.config.excluded = none
  enabled_iff : r'.enabled = true ↔ r.kind.obligatory = true ∨ named r.kind ∧ ¬ excepted r.kind

namespace Rule

theorem chosen_of_switched {named excepted : RuleKind σ → Prop} {r : Rule σ}
    {all only without : List String} (hall : r.fullName ∈ all)
    (honly : r.fullName ∈ only ↔ named r.kind) (hwithout : r.fullName ∈ without ↔ excepted r.kind) :
    r.Chosen named excepted
      (((r.switchIn all false).switchIn only true).switchIn without false) := by
  -- of three switches only the last one that meets the rule is left
  rw [switchIn_of_mem false hall, switchIn_switched, switchIn_switched]
  refine ⟨rfl, rfl, rfl, rfl, ?_⟩
  rw [Rule.enabled, Bool.or_eq_true, ← honly, ← hwithout]
  refine or_congr_right ?_
  change (if r.fullName ∈ without then false
    else if r.fullName ∈ only then true else false) = true ↔ _
  by_cases hnamed : r.fullName ∈ only <;> by_cases hexcepted : r.fullName ∈ without <;>
    simp [hnamed, hexcepted]

end Rule

namespace Invocation

variable {v : Validation} {catalog : Catalog σ} {c : Config σ} {i : Invocation}

/-- **Rules are chosen by name.** Let the library that reads and writes settings be lawful. Whatever a
configuration was read from, and whatever is enabled in
it: if rules are chosen by names which all stand for something, the rules come out in the same
order, with their severities and their options, and nothing excluded; and those are enabled that a
name of the first list stands for and no name of the second, and the obligatory ones. If a name
stands for nothing, that is an error. -/
theorem adjust_chooses (hv : v.Lawful) {ks : List (RuleKind σ)}
    (hgroups : ∀ k ∈ ks, '/' ∉ k.profile.group.toList) {path : Option String} {root : String}
    {data : Data} (h : Config.ofData (Catalog.ofKinds ks) path root data v = .ok c)
    (honly : i.only ≠ []) :
    ((∀ name ∈ i.only ++ i.without, ∃ k, (Catalog.ofKinds ks).Resolves name k) →
      ∃ c', i.adjust c v = .ok c' ∧ List.Forall₂ (Rule.Chosen ((Catalog.ofKinds ks).Names i.only)
        ((Catalog.ofKinds ks).Names i.without)) c.rules c'.rules) ∧
    ((∃ name ∈ i.only ++ i.without, ∀ k, ¬ (Catalog.ofKinds ks).Resolves name k) →
      ∃ name ∈ i.only ++ i.without, (∀ k, ¬ (Catalog.ofKinds ks).Resolves name k) ∧
        i.adjust c v = .error (.unknownRule name)) ∧
    ∀ k ∈ (Rules.shipped : List (RuleKind σ)),
      k.obligatory = true ↔ k.fullName = Rules.parseRuleName := by
  have hdistinct := Catalog.distinct_ofKinds ks
  have hslash : ∀ k ∈ (Catalog.ofKinds ks).kinds, '/' ∉ k.profile.group.toList := fun k hk =>
    hgroups k ((Catalog.mem_of_mem_foldl hk).resolve_left List.not_mem_nil)
  have hc : (i.prepared c).Lawful (Catalog.ofKinds ks) := by
    obtain ⟨hcatalog, hkinds, hfits, hnonneg⟩ := Config.lawful_ofData hv h
    exact ⟨hcatalog, hkinds, hfits, hnonneg⟩
  -- Everything is switched off first, and the two lists then choose from that.
  obtain ⟨all, hdisable, hall⟩ := hc.disable_all hv hdistinct hslash
  have hc₁ := hc.switchIn all false
  have hchoose : i.adjust c v = ((((i.prepared c).switchIn all false).enable i.only v).bind
      (·.disable i.without v)).map i.limited := by
    rw [adjust_eq, if_neg (List.isEmpty_iff.not.mpr honly), Config.enableOnly, hdisable]
    rfl
  refine ⟨fun hresolves => ?_, fun hunknown => ?_, ?_⟩
  · -- All names stand for something: three switches in a row, each of which is known exactly.
    rw [List.forall_mem_append] at hresolves
    obtain ⟨only, henable, honly⟩ := hc₁.updateRules_eq hv hdistinct true hresolves.1
    obtain ⟨without, hwithout, hexcept⟩ :=
      (hc₁.switchIn only true).updateRules_eq hv hdistinct false hresolves.2
    refine ⟨i.limited ((((i.prepared c).switchIn all false).switchIn only true).switchIn without false),
      ?_, ?_⟩
    · rw [hchoose, Config.enable, henable]
      change (Config.disable _ i.without v).map i.limited = _
      rw [Config.disable, hwithout]
      rfl
    · change List.Forall₂ _ c.rules (((c.rules.map (Rule.switchIn all false)).map
        (Rule.switchIn only true)).map (Rule.switchIn without false))
      rw [List.map_map, List.map_map, List.forall₂_map_right_iff, List.forall₂_same]
      intro r hr
      have hkind : r.kind ∈ (Catalog.ofKinds ks).kinds := hc.kinds_eq ▸ List.mem_map_of_mem hr
      exact Rule.chosen_of_switched (hall r hr) (honly r.kind hkind) (hexcept r.kind hkind)
  · -- Some name stands for nothing: the first list is asked before the second.
    by_cases hfirst : ∃ name ∈ i.only, ∀ k, ¬ (Catalog.ofKinds ks).Resolves name k
    · obtain ⟨name, hname, hnone, herror⟩ := hc₁.updateRules_unknown hv hdistinct true hfirst
      refine ⟨name, List.mem_append_left _ hname, hnone, ?_⟩
      rw [hchoose, Config.enable, herror]
      rfl
    · -- the names of the first list stand for something, so that the second list is at fault
      push Not at hfirst
      have hsecond : ∃ name ∈ i.without, ∀ k, ¬ (Catalog.ofKinds ks).Resolves name k := by
        obtain ⟨name, hname, hnone⟩ := hunknown
        refine ⟨name, (List.mem_append.mp hname).resolve_left fun hname => ?_, hnone⟩
        obtain ⟨k, hk⟩ := hfirst name hname
        exact hnone k hk
      obtain ⟨only, henable, -⟩ := hc₁.updateRules_eq hv hdistinct true hfirst
      obtain ⟨name, hname, hnone, herror⟩ :=
        (hc₁.switchIn only true).updateRules_unknown hv hdistinct false hsecond
      refine ⟨name, List.mem_append_right _ hname, hnone, ?_⟩
      rw [hchoose, Config.enable, henable]
      change (Config.disable _ i.without v).map i.limited = _
      rw [Config.disable, herror]
      rfl
  · exact fun k hk => Rules.obligatory_iff hk

def overlapping : Invocation where
  only := ["Lint", "RedundantParentheses", "Lint/Syntax", "Style"]
  without := ["EmptyExpression", "Naming"]

def disablingData : Data := .map [(.text "Style/RedundantParentheses", .map
  [(.text "Enabled", .bool false), (.text "Severity", .text "error"), (.text "Excluded", .text "a"),
    (.text "ExcludeTernary", .bool false)])]

theorem overlapping_chosen : ∃ c c' : Config Unit,
    Config.ofData (Catalog.ofKinds Rules.shipped) none "/" disablingData = .ok c ∧
    overlapping.adjust c .builtin = .ok c' ∧
    List.Forall₂ (Rule.Chosen ((Catalog.ofKinds Rules.shipped).Names overlapping.only)
      ((Catalog.ofKinds Rules.shipped).Names overlapping.without)) c.rules c'.rules ∧
    c'.rules.map Rule.config = [⟨true, none, none, .none⟩, ⟨false, none, none, .none⟩,
      ⟨true, some .error, none, .parentheses false false⟩, ⟨false, none, none, .none⟩,
      ⟨false, none, none, .none⟩] ∧
    c'.enabledRules.map Rule.fullName = ["Lint/Syntax", "Style/RedundantParentheses"] := by
  have hgroups : ∀ k ∈ (Rules.shipped : List (RuleKind Unit)), '/' ∉ k.profile.group.toList := by
    decide
  -- The configuration read and the changed one are computed; the theorem says what they have to
  -- do with each other.
  have hread : Config.ofData (Catalog.ofKinds (Rules.shipped : List (RuleKind Unit))) none "/"
      disablingData = .ok _ := rfl
  -- The names given are a group, a bare name and full names, as each of the cases shows.
  have hresolves : ∀ name ∈ overlapping.only ++ overlapping.without,
      ∃ k, (Catalog.ofKinds (Rules.shipped : List (RuleKind Unit))).Resolves name k := by
    simp only [overlapping, List.cons_append, List.nil_append, List.forall_mem_cons]
    refine ⟨⟨Rules.unparsable, .group (.head _) rfl⟩, ⟨Rules.redundantParentheses, .bare (by decide)
      (by decide) (rfl : _ = [Rules.unparsable, Rules.emptyExpression] ++ _) (by decide) rfl⟩,
      ⟨Rules.unparsable, .full (by decide) (.head _) rfl⟩,
      ⟨Rules.redundantParentheses, .group (.tail _ (.tail _ (.head _))) rfl⟩,
      ⟨Rules.emptyExpression, .bare (by decide) (by decide) (rfl : _ = [Rules.unparsable] ++ _)
        (by decide) rfl⟩,
      ⟨Rules.asciiIdentifiers, .group (.tail _ (.tail _ (.tail _ (.head _)))) rfl⟩,
      fun name h => absurd h List.not_mem_nil⟩
  obtain ⟨c', hc', hchosen⟩ := (adjust_chooses Validation.lawful_builtin hgroups hread
    (i := overlapping) nofun).1 hresolves
  refine ⟨_, c', hread, hc', hchosen, ?_⟩
  obtain rfl := Except.ok.inj (hc'.symm.trans (rfl : _ = Except.ok _))
  exact ⟨rfl, rfl⟩

end Invocation

end Lintel
