import Lintel.Output.Todo
import Lintel.Proofs.Config.Provenance
import Lintel.Proofs.Config.Validation

/-!
# The sections of a to-do list

A to-do list has a section for each rule with open issues (`Todo.nodup_rules`), and the section has
the paths these were found in (`Todo.mem_paths_iff`).

The data of a to-do list is a mapping with one entry for each section: the name of a rule, and a
mapping that excludes paths. Read as a configuration it is accepted if all rules are in the catalog
(`Config.ofData_sections`), and then nothing is set but the paths: each rule excludes those of its
section, and a rule without a section is as it is when nothing is set (`Todo.silenced`).
-/

namespace Lintel

variable {σ : Type}

namespace Todo

/-! ### What is listed -/

/-- The report has an open issue of a rule for a path that is not blank, and the issue is no failure
of a parse. -/
def Lists (r : Report) (rule path : String) : Prop :=
  path ≠ "" ∧ rule ≠ Rules.parseRuleName ∧
    ∃ s ∈ r.sources, s.path = some path ∧ ∃ i ∈ s.issues, i.isOpen = true ∧ i.rule = rule

theorem mem_findings {s : SourceReport} {rule path : String} :
    (rule, path) ∈ findings s ↔ path ≠ "" ∧ rule ≠ Rules.parseRuleName ∧ s.path = some path ∧
      ∃ i ∈ s.issues, i.isOpen = true ∧ i.rule = rule := by
  unfold findings
  cases hpath : s.path with
  | none => simp
  | some p =>
    simp only
    by_cases hempty : p.isEmpty = true
    · -- a blank path is passed over
      rw [if_pos hempty]
      have hp : p = "" := String.isEmpty_iff.mp hempty
      constructor
      · exact fun h => absurd h List.not_mem_nil
      · rintro ⟨hne, -, heq, -⟩
        exact absurd (hp ▸ (Option.some.inj heq).symm) hne
    · rw [if_neg hempty, List.mem_map]
      have hp : p ≠ "" := fun h => hempty (String.isEmpty_iff.mpr h)
      constructor
      · rintro ⟨i, hi, heq⟩
        obtain ⟨hmem, hlisted⟩ := List.mem_filter.mp hi
        rw [isListed, Bool.and_eq_true, bne_iff_ne] at hlisted
        injection heq with hrule hpath
        subst hrule hpath
        exact ⟨hp, hlisted.2, rfl, i, hmem, hlisted.1, rfl⟩
      · rintro ⟨-, hne, heq, i, hi, hopen, hrule⟩
        refine ⟨i, List.mem_filter.mpr ⟨hi, ?_⟩, ?_⟩
        · rw [isListed, hopen, hrule, Bool.true_and, bne_iff_ne]
          exact hne
        · rw [hrule, Option.some.inj heq]

theorem mem_flatMap_findings {r : Report} {rule path : String} :
    (rule, path) ∈ r.sources.flatMap findings ↔ Lists r rule path := by
  rw [List.mem_flatMap]
  constructor
  · rintro ⟨s, hs, h⟩
    obtain ⟨hpath, hrule, hs', hi⟩ := mem_findings.mp h
    exact ⟨hpath, hrule, s, hs, hs', hi⟩
  · rintro ⟨hpath, hrule, s, hs, hs', hi⟩
    exact ⟨s, hs, mem_findings.mpr ⟨hpath, hrule, hs', hi⟩⟩

theorem exists_section {r : Report} {rule : String} :
    (∃ s ∈ sections r, s.rule = rule) ↔ ∃ path, Lists r rule path := by
  unfold sections
  constructor
  · rintro ⟨s, hs, rfl⟩
    -- a section comes from a name, and the name from a finding with a path
    obtain ⟨rule, hrule, rfl⟩ := List.mem_map.mp hs
    obtain ⟨⟨rule', path⟩, hfound, rfl⟩ := List.mem_map.mp (mem_sortedSet.mp hrule)
    exact ⟨path, mem_flatMap_findings.mp hfound⟩
  · rintro ⟨path, h⟩
    have hfound := mem_flatMap_findings.mpr h
    exact ⟨_, List.mem_map_of_mem (mem_sortedSet.mpr (List.mem_map_of_mem hfound)), rfl⟩

/-- **A section has the paths that are listed for its rule**, each once. -/
theorem mem_paths_iff {r : Report} {s : Section} (hs : s ∈ sections r) {path : String} :
    path ∈ s.paths ↔ Lists r s.rule path := by
  obtain ⟨rule, -, rfl⟩ := List.mem_map.mp hs
  rw [← mem_flatMap_findings]
  change path ∈ sortedSet _ ↔ (rule, path) ∈ _
  -- sorting drops doubles and nothing else
  rw [mem_sortedSet, List.mem_map]
  constructor
  · rintro ⟨⟨rule', path'⟩, hmem, rfl⟩
    obtain ⟨hmem, hrule⟩ := List.mem_filter.mp hmem
    rw [← beq_iff_eq.mp hrule]
    exact hmem
  · exact fun hmem => ⟨_, List.mem_filter.mpr ⟨hmem, beq_self_eq_true rule⟩, rfl⟩

theorem nodup_rules (r : Report) : ((sections r).map (·.rule)).Nodup := by
  have hself : (sections r).map (·.rule)
      = sortedSet ((r.sources.flatMap findings).map (·.1)) := by
    rw [sections, List.map_map]
    exact List.map_id _
  rw [hself]
  exact nodup_sortedSet _

/-! ### As data -/

def Section.entry (s : Section) : Data × Data :=
  (.text s.rule, .map [(.text RuleConfig.excludedField.published, RuleConfig.textsData s.paths)])

def data (ss : List Section) : Data :=
  .map (ss.map Section.entry)

def pathsOf (ss : List Section) (rule : String) : Option (List String) :=
  (ss.find? (·.rule == rule)).map (·.paths)

theorem mem_pathsOf_sections {r : Report} {rule path : String} :
    path ∈ (pathsOf (sections r) rule).getD [] ↔ Lists r rule path := by
  unfold pathsOf
  cases hfind : (sections r).find? (·.rule == rule) with
  | none =>
    -- there is no section, and nothing is listed
    refine ⟨fun h => absurd h List.not_mem_nil, fun h => ?_⟩
    obtain ⟨s, hs, hrule⟩ := exists_section.mpr ⟨path, h⟩
    exact absurd (beq_iff_eq.mpr hrule) (List.find?_eq_none.mp hfind s hs)
  | some s =>
    have hrule := List.find?_some hfind
    rw [beq_iff_eq] at hrule
    rw [← hrule]
    exact mem_paths_iff (List.mem_of_find?_eq_some hfind)

def silenced (ss : List Section) (k : RuleKind σ) : Rule σ :=
  ⟨k, { k.defaultConfig with excluded := pathsOf ss k.fullName }⟩

end Todo

namespace Rule

open RuleConfig

theorem readOptions_unset {v : Validation} {defaults : RuleOptions} {keys : Keys}
    (h : ∀ f ∈ optionFields defaults, keys.given f = none) :
    readOptions defaults keys v = .good defaults := by
  cases defaults with
  | none => rfl
  -- the values of the kind are what is taken where nothing is given
  | parentheses ternary assignments =>
    have hternary := h excludeTernaryField List.mem_cons_self
    have hassignments := h excludeAssignmentsField (List.mem_cons_of_mem _ List.mem_cons_self)
    unfold readOptions Keys.read
    simp only [hternary, hassignments]
    rfl

section Lawful

variable {v : Validation} (hv : v.Lawful)
include hv

theorem ofSection_nil (k : RuleKind σ) : ofSection k [] v = .ok (ofKind k) := by
  have hfill : Field.Fill (fields k.defaults) [] := Field.fill_nil _
  have hcommon : ∀ f ∈ commonFields, f ∈ fields k.defaults := fun f hf =>
    mem_fields_of_common hf _
  have hread : RuleConfig.ofEntries k.defaults [] v = .ok k.defaultConfig := by
    -- each field by itself: nothing is given, so the value is the one unless set
    refine ofEntries_of_read hv hfill ?_ ?_ ?_ (readOptions_unset fun f hf => ?_)
    · exact hv.read_missing hfill (hcommon enabledField (by decide)) rfl _ _
    · exact hv.read_missing hfill (hcommon severityField (by decide)) rfl _ _
    · exact hv.read_missing hfill (hcommon excludedField (by decide)) rfl _ _
    · exact hv.keys_given hfill f (List.mem_append_right _ hf)
  rw [ofSection, hread]
  rfl

theorem ofSection_excluded (k : RuleKind σ) (paths : List String) :
    ofSection k [(.text excludedField.published, textsData paths)] v
      = .ok ⟨k, { k.defaultConfig with excluded := some paths }⟩ := by
  let es : List (Data × Data) := [(.text excludedField.published, textsData paths)]
  have hcommon : ∀ f ∈ commonFields, f ∈ fields k.defaults := fun f hf =>
    mem_fields_of_common hf _
  have hfill : Field.Fill (fields k.defaults) es :=
    .of_published [textsData paths] (fun _ => excludedField) id
      (fun _ _ => hcommon excludedField (by decide)) (apart_fields _).2.2
  -- of all fields only the one for paths is found
  have hmissing : ∀ f ∈ optionFields k.defaults, f.find? es = none := by
    cases k.defaults with
    | none => exact fun f hf => absurd hf List.not_mem_nil
    | parentheses ternary assignments =>
      intro f hf
      simp only [optionFields, List.mem_cons, List.not_mem_nil, or_false] at hf
      rcases hf with rfl | rfl <;> rfl
  have hread : RuleConfig.ofEntries k.defaults es v
      = .ok { k.defaultConfig with excluded := some paths } := by
    -- The other fields are unset, so each of them keeps its default.
    refine ofEntries_of_read hv hfill ?_ ?_ ?_ (readOptions_unset fun f hf => ?_)
    · exact hv.read_missing hfill (hcommon enabledField (by decide)) rfl _ _
    · exact hv.read_missing hfill (hcommon severityField (by decide)) rfl _ _
    · exact hv.read_found hfill (hcommon excludedField (by decide)) rfl
        (fun d => v.textsOrNull d.listed) (hv.textsOrNull_list paths) none
    · rw [hv.keys_given hfill f (List.mem_append_right _ hf), hmissing f hf]
  rw [ofSection, hread]
  rfl

end Lawful

end Rule

namespace Config

open Todo

variable {ss : List Section}

def unset : Settings :=
  ⟨Settings.defaultGlobs, [], Settings.defaultFormat, defaultMaxIterations⟩

theorem get?_entries (ss : List Section) (name : String) :
    Data.get? (ss.map Section.entry) name
      = (pathsOf ss name).map fun paths =>
          .map [(.text RuleConfig.excludedField.published, RuleConfig.textsData paths)] := by
  -- both sides look for the first section of the name
  induction ss with
  | nil => rfl
  | cons s ss ih =>
    unfold Data.get? pathsOf at ih ⊢
    rw [List.map_cons, List.find?_cons, List.find?_cons]
    change Option.map _ (match s.rule == name with | true => some s.entry | false => _) = _
    cases hname : s.rule == name with
    | true => rfl
    | false => exact ih

theorem readRules_entries {v : Validation} (hv : v.Lawful) (ss : List Section)
    (ks : List (RuleKind σ)) :
    readRules (ss.map Section.entry) v ks = .ok (ks.map (silenced ss)) := by
  induction ks with
  | nil => rfl
  | cons k ks ih =>
    have hget := get?_entries ss k.fullName
    rw [readRules, List.map_cons, silenced]
    cases hpaths : pathsOf ss k.fullName with
    | none =>
      -- no section is an empty one
      have hsection : sectionOf (ss.map Section.entry) k.fullName = .map [] := by
        rw [sectionOf, hget, hpaths]
        rfl
      simp only [hsection, Rule.ofSection_nil hv, ih]
      rfl
    | some paths =>
      have hsection : sectionOf (ss.map Section.entry) k.fullName
          = .map [(.text RuleConfig.excludedField.published, RuleConfig.textsData paths)] := by
        rw [sectionOf, hget, hpaths]
        rfl
      simp only [hsection, Rule.ofSection_excluded hv, ih]
      rfl

theorem settings_nil {v : Validation} (hv : v.Lawful) : Settings.ofEntries [] v = .ok unset := by
  -- of the library only this is needed: without entries no field is given
  have hread : ∀ {α : Type}, ∀ f ∈ Settings.fields, ∀ (unset : α) reader,
      (v.keys Settings.fields []).read f unset reader = .good unset := fun f hf =>
    hv.read_missing (Field.fill_nil _) hf rfl
  have hproblems := hv.keys_problems (Field.fill_nil Settings.fields)
  unfold Settings.ofEntries
  simp only [hread Settings.globsField (by decide), hread Settings.excludedField (by decide),
    hread Settings.formatField (by decide), hread Settings.maxIterationsField (by decide),
    hproblems]
  rfl

theorem checkKeys_entries (ss : List Section) : checkKeys (ss.map Section.entry) = .ok () := by
  have hnone : (ss.map Section.entry).any (fun e => e.1.holdsTooLong) = false := by
    rw [List.any_map, List.any_eq_false]
    exact fun s _ => Bool.false_ne_true
  rw [checkKeys, hnone]
  rfl

theorem isSectionKey_entry {s : Section} (h : '/' ∈ s.rule.toList) :
    isSectionKey s.entry.1 = true :=
  List.contains_iff_mem.mpr h

theorem strangeSections_eq_nil {catalog : Catalog σ} {entries : List (Data × Data)}
    (h : ∀ e ∈ entries, ∃ k ∈ catalog.kinds, e.1 = .text k.fullName) :
    strangeSections catalog entries = [] := by
  unfold strangeSections
  rw [List.filter_eq_nil_iff]
  intro key hkey
  obtain ⟨e, he, rfl⟩ := List.mem_map.mp hkey
  obtain ⟨k, hk, hname⟩ := h e he
  -- The key is the name of a kind of the catalog, so the search for that name succeeds.
  have hany : (catalog.kinds.any fun l => l.fullName == k.fullName) = true :=
    List.any_eq_true.mpr ⟨k, hk, beq_self_eq_true _⟩
  rw [hname]
  simp only [hany, Bool.not_true, Bool.false_eq_true, not_false_eq_true]

theorem strangeSections_entries {catalog : Catalog σ}
    (hcatalog : ∀ s ∈ ss, ∃ k ∈ catalog.kinds, k.fullName = s.rule) :
    strangeSections catalog (ss.map Section.entry) = [] := by
  refine strangeSections_eq_nil fun e he => ?_
  obtain ⟨s, hs, rfl⟩ := List.mem_map.mp he
  obtain ⟨k, hk, hname⟩ := hcatalog s hs
  exact ⟨k, hk, congrArg Data.text hname.symm⟩

/-- **A to-do list is a configuration**, if its rules are in the catalog and their names tell them
from settings. Nothing is set in it but the paths. -/
theorem ofData_sections {v : Validation} (hv : v.Lawful) {catalog : Catalog σ}
    (hcatalog : ∀ s ∈ ss, ∃ k ∈ catalog.kinds, k.fullName = s.rule)
    (hslash : ∀ s ∈ ss, '/' ∈ s.rule.toList) (path : Option String) (root : String) :
    Config.ofData catalog path root (data ss) v
      = .ok ⟨catalog, unset, catalog.kinds.map (silenced ss), path, root⟩ := by
  -- Every entry is a section and none of them a setting, so that the settings are unset.
  have hkeys : ∀ e ∈ ss.map Section.entry, isSectionKey e.1 = true := by
    intro e he
    obtain ⟨s, hs, rfl⟩ := List.mem_map.mp he
    exact isSectionKey_entry (hslash s hs)
  have hsections : (ss.map Section.entry).filter (fun e => isSectionKey e.1)
      = ss.map Section.entry := List.filter_eq_self.mpr hkeys
  have hsettings : (ss.map Section.entry).filter (fun e => !isSectionKey e.1) = [] := by
    rw [List.filter_eq_nil_iff]
    intro e he
    rw [hkeys e he]
    exact Bool.false_ne_true
  change Config.ofEntries catalog path root (ss.map Section.entry) v = _
  unfold Config.ofEntries
  rw [checkKeys_entries]
  simp only [hsections, hsettings, settings_nil hv, readRules_entries hv,
    strangeSections_entries hcatalog]
  rfl

end Config

end Lintel
