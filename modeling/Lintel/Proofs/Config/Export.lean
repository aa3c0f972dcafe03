import Lintel.Proofs.Config.Lawful
import Lintel.Proofs.Config.Sections
import Lintel.Proofs.Suppression.Grammar

/-!
# Configurations written and read back

A configuration can be read in many spellings, and is written in one. What is written is read back
as the configuration that it was written from, whatever that was read from and however it was
changed (`Config.ofData_toData`).

A field that is null is not written in the section of a rule, and null is what it is unless set
(`RuleConfig.ofEntries_dumpPublished`). The names of rules have a slash in them and the keys of
settings have none, so that the two are told apart again (`Config.filter_sections`,
`Config.filter_settings`); and the names are different, so that each rule finds its own section
(`Config.sectionOf_sections`).
-/

namespace Lintel

variable {σ : Type}

/-! ### Fields -/

/-- The entries give a field this value, in one of its spellings, or leave it out if it is null. -/
def Field.Holds (es : List (Data × Data)) (f : Field) (d : Data) : Prop :=
  (∃ spelling, f.find? es = some (spelling, d)) ∨ f.find? es = none ∧ d = .null

namespace Validation

section Fill

variable {v : Validation} (hv : v.Lawful) {fields : List Field} {es : List (Data × Data)}
  (hfill : Field.Fill fields es) {f : Field} (hf : f ∈ fields)
include hv hfill hf

/-- What entries give a field is read. What they leave out is null, so it has to be what the field
is unless set. -/
theorem Lawful.read_holds {α : Type} {d : Data} {a unset : α} (h : f.Holds es d)
    (reader : Data → Reading α) (hgood : reader d = .good a) (hnull : d = .null → unset = a) :
    (v.keys fields es).read f unset reader = .good a := by
  rcases h with ⟨spelling, hfind⟩ | ⟨hfind, hd⟩
  · exact hv.read_found hfill hf hfind reader hgood unset
  · rw [hv.read_missing hfill hf hfind, hnull hd]

theorem Lawful.read_truth {b : Bool} (h : f.Holds es (.bool b)) (unset : Bool) :
    (v.keys fields es).read f unset v.truth = .good b :=
  hv.read_holds hfill hf h v.truth (hv.truth_bool b) nofun

end Fill

end Validation

namespace RuleConfig

variable {v : Validation} {c : RuleConfig} {defaults : RuleOptions} {es : List (Data × Data)}

theorem readSeverity_name (s : Option Severity) :
    readSeverity (match s with | some s => .text s.name | none => .null) = .good s := by
  cases s with
  | none => rfl
  | some s =>
    have hparse : Severity.parse? s.name = some s := by cases s <;> decide
    unfold readSeverity
    simp only [hparse]

theorem textsOrNull_values (hv : v.Lawful) (xs : Option (List String)) :
    v.textsOrNull (match xs with | some xs => textsData xs | none => Data.null).listed
      = .good xs := by
  cases xs with
  | none => exact hv.textsOrNull_null
  | some xs => exact hv.textsOrNull_list xs

theorem readOptions_of_holds (hv : v.Lawful) (hfill : Field.Fill (fields defaults) es)
    {options : RuleOptions} (hfits : optionFields options = optionFields defaults)
    (hvalues : ∀ e ∈ optionValues options, e.1.Holds es e.2) :
    readOptions defaults (v.keys (fields defaults) es) v = .good options := by
  cases options with
  | none =>
    cases defaults with
    | none => rfl
    -- the fields of a kind tell which options it has, so the two are of one form
    | parentheses _ _ => cases hfits
  | parentheses ternary assignments =>
    cases defaults with
    | none => cases hfits
    | parentheses ternary' assignments' =>
      rw [optionValues, List.forall_mem_cons, List.forall_mem_singleton] at hvalues
      have hmem : ∀ f ∈ [excludeTernaryField, excludeAssignmentsField],
          f ∈ fields (.parentheses ternary' assignments') := fun f hf =>
        List.mem_append_right _ hf
      have hternary := hv.read_truth hfill (hmem excludeTernaryField (by decide)) hvalues.1 ternary'
      have hassignments :=
        hv.read_truth hfill (hmem excludeAssignmentsField (by decide)) hvalues.2 assignments'
      unfold readOptions
      simp only [hternary, hassignments]
      rfl

/-- **Entries that give all fields their values are read as the configuration.** -/
theorem ofEntries_of_holds (hv : v.Lawful) (hfill : Field.Fill (fields defaults) es)
    (hfits : optionFields c.options = optionFields defaults)
    (hvalues : ∀ e ∈ c.values, e.1.Holds es e.2) : ofEntries defaults es v = .ok c := by
  have hmem : ∀ f ∈ commonFields, f ∈ fields defaults := fun f hf => mem_fields_of_common hf _
  simp only [values, List.forall_mem_append, List.forall_mem_cons] at hvalues
  obtain ⟨⟨henabled, hseverity, hexcluded, -⟩, hoptions⟩ := hvalues
  refine ofEntries_of_read hv hfill ?_ ?_ ?_ (readOptions_of_holds hv hfill hfits hoptions)
  · exact hv.read_truth hfill (hmem enabledField (by decide)) henabled true
  -- the other two are not set if they are null
  · exact hv.read_holds hfill (hmem severityField (by decide)) hseverity readSeverity
      (readSeverity_name c.severity) (by cases c.severity <;> simp)
  · exact hv.read_holds hfill (hmem excludedField (by decide)) hexcluded
      (fun d => v.textsOrNull d.listed) (textsOrNull_values hv c.excluded)
      (by cases c.excluded <;> simp [textsData])

/-! ### Fields with their values -/

theorem fields_values (c : RuleConfig) : c.values.map (·.1) = fields c.options := by
  obtain ⟨_, _, _, options⟩ := c
  cases options <;> rfl

theorem mem_fields_of_values {e : Field × Data} (he : e ∈ c.values) : e.1 ∈ fields c.options := by
  rw [← fields_values]
  exact List.mem_map_of_mem he

theorem nodup_published (c : RuleConfig) : (c.values.map fun e => e.1.published).Nodup := by
  have hfields := (apart_fields c.options).1
  rwa [← fields_values, List.map_map] at hfields

theorem nodup_plain (c : RuleConfig) : (c.values.map fun e => e.1.plain).Nodup := by
  have hfields := (apart_fields c.options).2.1
  rwa [← fields_values, List.map_map] at hfields

theorem published_ne_plain {e e' : Field × Data} (he : e ∈ c.values) (he' : e' ∈ c.values) :
    e'.1.published ≠ e.1.plain :=
  (apart_fields c.options).2.2 _ (mem_fields_of_values he) _ (mem_fields_of_values he')

/-- **A section gives all fields their values.** -/
theorem holds_dumpPublished (hv : v.Lawful) {e : Field × Data} (he : e ∈ c.values) :
    e.1.Holds (v.dumpPublished c.values) e.2 := by
  rw [hv.dumpPublished_eq]
  unfold Field.Holds Field.find?
  cases hnull : e.2.isNull with
  | false =>
    -- the field is written, under its published name
    have hset : e ∈ c.values.filter fun e => !e.2.isNull :=
      List.mem_filter.mpr ⟨he, by rw [hnull]; rfl⟩
    have hnodup : ((c.values.filter fun e => !e.2.isNull).map fun e => e.1.published).Nodup :=
      (List.filter_sublist.map _).nodup c.nodup_published
    refine .inl ⟨e.1.published, ?_⟩
    rw [Data.get?_map hnodup hset]
  | true =>
    -- the field is left out, and no other field is found in its place
    have hunset : ∀ e' ∈ c.values.filter fun e => !e.2.isNull,
        e'.1.published ≠ e.1.published := by
      intro e' he' heq
      obtain ⟨he', hset⟩ := List.mem_filter.mp he'
      rw [List.inj_on_of_nodup_map c.nodup_published he' he heq, hnull] at hset
      cases hset
    refine .inr ⟨?_, ?_⟩
    · rw [Data.get?_map_eq_none hunset, Data.get?_map_eq_none fun e' he' =>
        published_ne_plain he (List.mem_filter.mp he').1]
      rfl
    · cases hd : e.2 with
      | null => rfl
      | _ =>
        rw [hd] at hnull
        cases hnull

/-- **The section of a rule is read as its configuration.** -/
theorem ofEntries_dumpPublished (hv : v.Lawful)
    (hfits : optionFields c.options = optionFields defaults) :
    ofEntries defaults (v.dumpPublished c.values) v = .ok c := by
  have hfill : Field.Fill (fields c.options) (v.dumpPublished c.values) := by
    rw [hv.dumpPublished_eq]
    exact .of_published _ (·.1) (·.2)
      (fun e he => mem_fields_of_values (List.mem_filter.mp he).1) (apart_fields _).2.2
  rw [fields, hfits] at hfill
  exact ofEntries_of_holds hv hfill hfits fun e he => holds_dumpPublished hv he

/-- The fields of a rule under their plain names are read as its configuration. -/
theorem ofEntries_dump (hv : v.Lawful) (hfits : optionFields c.options = optionFields defaults) :
    ofEntries defaults (v.dump c.values) v = .ok c := by
  have hfill : Field.Fill (fields c.options) (v.dump c.values) := by
    rw [hv.dump_eq]
    exact .of_plain _ (·.1) (·.2) (fun e he => mem_fields_of_values he) (apart_fields _).2.2
  rw [fields, hfits] at hfill
  -- under the plain spelling: no field has a published spelling that another has plain
  refine ofEntries_of_holds hv hfill hfits fun e he => .inl ⟨e.1.plain, ?_⟩
  rw [hv.dump_eq, Field.find?, Data.get?_map c.nodup_plain he,
    Data.get?_map_eq_none fun e' he' => (published_ne_plain he' he).symm]
  rfl

end RuleConfig

/-! ### Settings -/

theorem Settings.readFormat_name {v : Validation} (hv : v.Lawful) (name : String) :
    readFormat v (.map [(.text formatNameField.published, .text name)]) = .good name := by
  -- The section holds the one published key, so its value is found and no other key is reported.
  have hfill : Field.Fill [formatNameField] [(.text formatNameField.published, .text name)] :=
    .of_published [name] (fun _ => formatNameField) .text (fun _ _ => List.mem_cons_self) (by decide)
  have hname := hv.read_found hfill List.mem_cons_self rfl v.text (hv.text_text name) defaultFormat
  unfold readFormat
  rw [hv.entries_map]
  simp only [Reading.good, hname, hv.keys_problems hfill]
  rfl

/-- **Settings that are written are read back.** -/
theorem Settings.ofEntries_toEntries {v : Validation} (hv : v.Lawful) {s : Settings}
    (h : 0 ≤ s.maxIterations) : ofEntries s.toEntries v = .ok s := by
  have hfill : Field.Fill fields s.toEntries :=
    .of_published
      [(globsField, RuleConfig.textsData s.globs), (excludedField, RuleConfig.textsData s.excluded),
        (formatField, .map [(.text formatNameField.published, .text s.formatName)]),
        (maxIterationsField, .int s.maxIterations)] (·.1) (·.2)
      (by simp [fields]) (by decide)
  -- Each field is read where it was written, and nothing else was.
  have hglobs := hv.read_found hfill (f := globsField) (by decide) rfl (fun d => v.texts d.listed)
    (hv.texts_list s.globs) defaultGlobs
  have hexcluded := hv.read_found hfill (f := excludedField) (by decide) rfl
    (fun d => v.texts d.listed) (hv.texts_list s.excluded) []
  have hformat := hv.read_found hfill (f := formatField) (by decide) rfl (readFormat v)
    (readFormat_name hv s.formatName) defaultFormat
  have hlimit := hv.read_found hfill (f := maxIterationsField) (by decide) rfl v.count
    (hv.count_int _ h) defaultMaxIterations
  unfold ofEntries
  simp only [hglobs, hexcluded, hformat, hlimit, hv.keys_problems hfill]
  rfl

/-! ### Configurations -/

namespace Config

variable {catalog : Catalog σ} {c : Config σ} {rs : List (Rule σ)} {v : Validation}

def ruleEntry (v : Validation) (r : Rule σ) : Data × Data :=
  (.text r.fullName, .map (v.dumpPublished r.config.values))

theorem isSectionKey_ruleEntry (v : Validation) (r : Rule σ) :
    isSectionKey (ruleEntry v r).1 = true :=
  List.contains_iff_mem.mpr (mem_fullName r.kind.profile)

/-- No key of a setting is taken for the name of a rule. -/
theorem isSectionKey_settings (s : Settings) :
    ∀ e ∈ s.toEntries, isSectionKey e.1 = false := by
  unfold Settings.toEntries
  simp only [List.forall_mem_cons]
  exact ⟨rfl, rfl, rfl, rfl, fun e he => absurd he List.not_mem_nil⟩

theorem filter_sections (c : Config σ) (v : Validation) :
    (c.toEntries v).filter (fun e => isSectionKey e.1) = c.rules.map (ruleEntry v) := by
  -- The settings come first and the rules after them; the test keeps the second part whole.
  have hsettings : c.settings.toEntries.filter (fun e => isSectionKey e.1) = [] :=
    List.filter_eq_nil_iff.mpr fun e he => by
      rw [isSectionKey_settings c.settings e he]
      exact Bool.false_ne_true
  have hrules : (c.rules.map (ruleEntry v)).filter (fun e => isSectionKey e.1)
      = c.rules.map (ruleEntry v) :=
    List.filter_eq_self.mpr (List.forall_mem_map.mpr fun r _ => isSectionKey_ruleEntry v r)
  change (c.settings.toEntries ++ c.rules.map (ruleEntry v)).filter _ = _
  rw [List.filter_append, hsettings, hrules, List.nil_append]

theorem filter_settings (c : Config σ) (v : Validation) :
    (c.toEntries v).filter (fun e => !isSectionKey e.1) = c.settings.toEntries := by
  have hsettings : c.settings.toEntries.filter (fun e => !isSectionKey e.1)
      = c.settings.toEntries :=
    List.filter_eq_self.mpr fun e he => by
      rw [isSectionKey_settings c.settings e he]
      rfl
  -- The mirror image of the sections: the first part stays whole, the second goes.
  have hrules : (c.rules.map (ruleEntry v)).filter (fun e => !isSectionKey e.1) = [] :=
    List.filter_eq_nil_iff.mpr (List.forall_mem_map.mpr fun r _ => by
      rw [isSectionKey_ruleEntry v r]
      exact Bool.false_ne_true)
  change (c.settings.toEntries ++ c.rules.map (ruleEntry v)).filter _ = _
  rw [List.filter_append, hsettings, hrules, List.append_nil]

/-- A text has a spelling, however long. -/
theorem checkKeys_toEntries (c : Config σ) (v : Validation) :
    checkKeys (c.toEntries v) = .ok () := by
  have hnone : (c.toEntries v).any (fun e => e.1.holdsTooLong) = false := by
    change (c.settings.toEntries ++ c.rules.map (ruleEntry v)).any _ = _
    rw [List.any_append, List.any_map, Bool.or_eq_false_iff, List.any_eq_false (l := c.rules)]
    exact ⟨rfl, fun r _ => Bool.false_ne_true⟩
  rw [checkKeys, hnone]
  rfl

/-- **Each rule finds its own section.** A section is never empty, since it says whether the rule is
enabled. -/
theorem sectionOf_sections (hv : v.Lawful) (hnodup : (rs.map Rule.fullName).Nodup) {r : Rule σ}
    (hr : r ∈ rs) :
    sectionOf (rs.map (ruleEntry v)) r.fullName = .map (v.dumpPublished r.config.values) := by
  have hfind : Data.get? (rs.map (ruleEntry v)) r.fullName
      = some (.map (v.dumpPublished r.config.values)) := Data.get?_map hnodup hr
  rw [sectionOf, hfind, hv.dumpPublished_eq]
  rfl

/-- **Rules that are written are read back.** -/
theorem readRules_sections (hv : v.Lawful) {sections : List (Data × Data)}
    (hfits : ∀ r ∈ rs, r.Fits)
    (hsections : ∀ r ∈ rs, sectionOf sections r.fullName
      = .map (v.dumpPublished r.config.values)) :
    readRules sections v (rs.map Rule.kind) = .ok rs := by
  -- the kinds are gone through in the order in which the rules were written
  induction rs with
  | nil => rfl
  | cons r rs ih =>
    rw [List.forall_mem_cons] at hfits hsections
    have hr : Rule.ofSection r.kind (v.dumpPublished r.config.values) v = .ok r := by
      rw [Rule.ofSection, RuleConfig.ofEntries_dumpPublished hv hfits.1]
      rfl
    have hsection : sectionOf sections r.kind.fullName
        = .map (v.dumpPublished r.config.values) := hsections.1
    rw [List.map_cons, readRules]
    simp only [hsection, hr, ih hfits.2 hsections.2]
    rfl

theorem strangeSections_sections (v : Validation) (hkinds : rs.map Rule.kind = catalog.kinds) :
    strangeSections catalog (rs.map (ruleEntry v)) = [] := by
  refine strangeSections_eq_nil fun e he => ?_
  -- every section was written for a rule, and the kind of that is in the catalog
  obtain ⟨r, hr, rfl⟩ := List.mem_map.mp he
  exact ⟨r.kind, hkinds ▸ List.mem_map_of_mem hr, rfl⟩

theorem Lawful.nodup_fullName (hc : c.Lawful catalog) (hdistinct : catalog.Distinct) :
    (c.rules.map Rule.fullName).Nodup := by
  have hnames : c.rules.map Rule.fullName = catalog.kinds.map RuleKind.fullName := by
    rw [← hc.kinds_eq, List.map_map]
    rfl
  rw [hnames]
  exact hdistinct

/-- **A lawful configuration that is written is read back.** -/
theorem Lawful.read_back (hv : v.Lawful) (hc : c.Lawful catalog) (hdistinct : catalog.Distinct)
    (path : Option String) (root : String) :
    ofData catalog path root (c.toData v) v = .ok { c with path := path, root := root } := by
  have hrules : readRules (c.rules.map (ruleEntry v)) v catalog.kinds = .ok c.rules := by
    rw [← hc.kinds_eq]
    exact readRules_sections hv hc.fits fun r hr =>
      sectionOf_sections hv (hc.nodup_fullName hdistinct) hr
  change ofEntries catalog path root (c.toEntries v) v = _
  unfold ofEntries
  rw [checkKeys_toEntries]
  -- what was written is taken apart again into settings and sections
  simp only [filter_sections, filter_settings, Settings.ofEntries_toEntries hv hc.nonneg, hrules,
    strangeSections_sections v hc.kinds_eq]
  rw [← hc.catalog_eq]
  rfl

/-- **Configurations can be exported.** Let the library that reads and writes settings be lawful.
Whatever a configuration was read from, in whichever spelling, and however it was changed since, it
is read back from what it is written as: with the same settings and the same rules in the same order,
each with the configuration it had. So it is written again as the same data. -/
theorem ofData_toData (hv : v.Lawful) {ks : List (RuleKind σ)} {path : Option String}
    {root : String} {data : Data} (h : ofData (Catalog.ofKinds ks) path root data v = .ok c)
    (changes : List Change) (path' : Option String) (root' : String) :
    ∃ back, ofData (Catalog.ofKinds ks) path' root' ((changes.foldl (changed v) c).toData v) v
        = .ok back ∧
      back.settings = (changes.foldl (changed v) c).settings ∧
      back.rules = (changes.foldl (changed v) c).rules ∧
      back.toData v = (changes.foldl (changed v) c).toData v :=
  ⟨_, Lawful.read_back hv ((lawful_ofData hv h).foldl_changed changes)
    (Catalog.distinct_ofKinds ks) path' root', rfl, rfl, rfl⟩

def spelledData : Data := .map
  [(.text "globs", .text "lib/*.rb"), (.text "MaxIterations", .text " +7 "),
    (.text "Style/RedundantParentheses", .map [(.text "severity", .text "ERROR"),
      (.text "ExcludeTernary", .text "off"), (.text "enabled", .int 0)]),
    (.text "Lint/EmptyExpression", .null)]

def someChanges : List Change :=
  [.rules ["Lint", "RedundantParentheses"] { enabled := .text "Yes" },
    .rule "Syntax" { enabled := .bool false, excluded := some [.text "a"] }, .format "json"]

theorem spelled_read_back : ∃ c : Config Unit,
    ofData (Catalog.ofKinds Rules.shipped) none "/" spelledData = .ok c ∧
    ∃ back : Config Unit,
      ofData (Catalog.ofKinds Rules.shipped) none "/"
        (someChanges.foldl (changed .builtin) c).toData = .ok back ∧
      back.settings = ⟨["lib/*.rb"], [], "json", 7⟩ ∧
      back.rules.map Rule.config = [⟨false, none, some ["a"], .none⟩, ⟨true, none, none, .none⟩,
        ⟨true, some .error, none, .parentheses false false⟩, ⟨true, none, none, .none⟩,
        ⟨true, none, none, .none⟩] := by
  refine ⟨_, rfl, ?_⟩
  have hread : ofData (Catalog.ofKinds (Rules.shipped : List (RuleKind Unit))) none "/" spelledData
      = .ok _ := rfl
  -- The general round trip, at this file and these changes.
  obtain ⟨back, hback, hsettings, hrules, -⟩ :=
    ofData_toData Validation.lawful_builtin hread someChanges none "/"
  refine ⟨back, hback, hsettings.trans rfl, ?_⟩
  rw [hrules]
  rfl

end Config

end Lintel
