import Lintel.Proofs.Config.Provenance
import Lintel.Proofs.Config.Validation

/-!
# Configurations under changes

Whatever a configuration was read from and however it was changed since, it has one rule for each
kind of its catalog, in the order of the catalog; each rule has the options that its kind asks for;
and its budget is not negative. `Config.Lawful` says so. Reading a configuration makes such a one
(`Config.lawful_ofData`), and what changes it keeps it so (`Config.Lawful.changed`).

A change that fails is no change, with one exception: when rules are changed by several names, what
was done before the first name that fails stays.
-/

namespace Lintel

variable {σ : Type}

/-! ### Catalogs -/

namespace Catalog

def Distinct (c : Catalog σ) : Prop :=
  (c.kinds.map RuleKind.fullName).Nodup

theorem Distinct.register {c : Catalog σ} (h : c.Distinct) (k : RuleKind σ) :
    (c.register k).Distinct := by
  unfold Catalog.register
  split
  · exact h
  · next hnone =>
    rw [Bool.not_eq_true, List.any_eq_false] at hnone
    unfold Distinct
    rw [List.map_append, List.map_singleton, List.nodup_append]
    -- the kind is added only when no other has its name
    refine ⟨h, List.nodup_singleton _, fun name hname name' hname' heq => ?_⟩
    obtain ⟨k', hk', rfl⟩ := List.mem_map.mp hname
    rw [List.mem_singleton.mp hname'] at heq
    exact hnone k' hk' (beq_iff_eq.mpr heq)

/-- **A catalog never has two kinds with one full name.** -/
theorem distinct_ofKinds (ks : List (RuleKind σ)) : (ofKinds ks).Distinct := by
  have hfold : ∀ c : Catalog σ, c.Distinct → (ks.foldl register c).Distinct := by
    induction ks with
    | nil => exact fun c hc => hc
    | cons k ks ih => exact fun c hc => ih _ (hc.register k)
  exact hfold ⟨[]⟩ List.nodup_nil

theorem Distinct.eq_of_fullName {c : Catalog σ} (h : c.Distinct) {k k' : RuleKind σ}
    (hk : k ∈ c.kinds) (hk' : k' ∈ c.kinds) (hname : k.fullName = k'.fullName) : k = k' :=
  List.inj_on_of_nodup_map h hk hk' hname

end Catalog

/-! ### What is read -/

theorem Reading.of_result {α : Type} {r : Reading α} {a : α} (h : r.result = .ok a) :
    r.problems = [] ∧ r.value = a := by
  unfold result at h
  split at h
  · next hnone =>
    cases h
    exact ⟨List.isEmpty_iff.mp hnone, rfl⟩
  · cases h

theorem Settings.maxIterations_nonneg {v : Validation} (hv : v.Lawful)
    {entries : List (Data × Data)} {s : Settings} (h : Settings.ofEntries entries v = .ok s) :
    0 ≤ s.maxIterations := by
  obtain ⟨hnone, rfl⟩ := Reading.of_result h
  simp only [List.append_eq_nil_iff] at hnone
  have hlimit := hnone.1.2
  change 0 ≤ ((v.keys fields entries).read maxIterationsField defaultMaxIterations v.count).value
  unfold Keys.read at hlimit ⊢
  split
  · next spelling d hgiven =>
    -- a number that is given passed the bound, or there would be a problem
    rw [hgiven] at hlimit
    exact hv.count_nonneg d (List.map_eq_nil_iff.mp hlimit)
  · decide

def Rule.Fits (r : Rule σ) : Prop :=
  RuleConfig.optionFields r.config.options = RuleConfig.optionFields r.kind.defaults

/-- What a section configures are the options that the kind asks for. -/
theorem Rule.fits_of_ofSection {v : Validation} {k : RuleKind σ} {entries : List (Data × Data)}
    {r : Rule σ} (h : Rule.ofSection k entries v = .ok r) : r.Fits := by
  obtain ⟨config, hconfig, rfl⟩ := exists_of_map_eq_ok h
  obtain ⟨-, rfl⟩ := Reading.of_result hconfig
  change RuleConfig.optionFields (RuleConfig.readOptions k.defaults _ v).value = _
  cases k.defaults <;> rfl

/-! ### Configurations -/

namespace Config

variable {catalog : Catalog σ} {c c' : Config σ} {v : Validation}

/-- A configuration with one rule for each kind of a catalog, in order. -/
structure Lawful (catalog : Catalog σ) (c : Config σ) : Prop where
  catalog_eq : c.catalog = catalog
  kinds_eq : c.rules.map Rule.kind = catalog.kinds
  fits : ∀ r ∈ c.rules, r.Fits
  nonneg : 0 ≤ c.settings.maxIterations

theorem fits_of_readRules {sections : List (Data × Data)} {ks : List (RuleKind σ)}
    {rs : List (Rule σ)} (h : readRules sections v ks = .ok rs) : ∀ r ∈ rs, r.Fits := by
  have hfits := forall₂_of_readRules h
  clear h
  -- Each kind is paired with the rule read from its section, so the induction is on the pairs.
  induction hfits with
  | nil => exact fun r hr => absurd hr List.not_mem_nil
  | cons hr _ ih =>
    obtain ⟨_, hr⟩ := hr
    exact List.forall_mem_cons.mpr ⟨Rule.fits_of_ofSection hr, ih⟩

theorem lawful_ofEntries (hv : v.Lawful) {path : Option String} {root : String}
    {entries : List (Data × Data)} (h : ofEntries catalog path root entries v = .ok c) :
    c.Lawful catalog := by
  obtain ⟨settings, rules, hsettings, hrules, rfl⟩ := exists_of_ofEntries h
  exact ⟨rfl, kinds_of_readRules hrules, fits_of_readRules hrules,
    Settings.maxIterations_nonneg hv hsettings⟩

/-- **A configuration that was read is lawful.** -/
theorem lawful_ofData (hv : v.Lawful) {path : Option String} {root : String} {data : Data}
    (h : ofData catalog path root data v = .ok c) : c.Lawful catalog := by
  unfold ofData at h
  split at h
  · exact lawful_ofEntries hv h
  · exact lawful_ofEntries hv h
  · cases h

/-! ### Changes -/

theorem kinds_replaceRule {r r' : Rule σ} {rs : List (Rule σ)} {name : String}
    (hfind : rs.find? (·.fullName == name) = some r) (hkind : r'.kind = r.kind) :
    (replaceRule r' rs).map Rule.kind = rs.map Rule.kind := by
  -- Both search for the full name: the first rule of it is found, and the first of it replaced.
  have hname : r'.fullName = name := by
    have hfound := List.find?_some hfind
    rw [Rule.fullName, hkind]
    exact beq_iff_eq.mp hfound
  induction rs with
  | nil => rfl
  | cons x rs ih =>
    rw [List.find?_cons] at hfind
    unfold replaceRule
    rw [hname]
    cases hx : x.fullName == name with
    | true =>
      rw [hx] at hfind
      cases hfind
      rw [if_pos rfl, List.map_cons, List.map_cons, hkind]
    | false =>
      rw [hx] at hfind
      rw [if_neg Bool.false_ne_true, List.map_cons, List.map_cons, ih hfind]

theorem Lawful.updateRule (hc : c.Lawful catalog) {name : String} {u : RuleUpdate}
    (h : c.updateRule name u v = .ok c') : c'.Lawful catalog := by
  obtain ⟨k, r, r', -, hr, hr', rfl⟩ := exists_of_updateRule h
  refine ⟨hc.catalog_eq, (kinds_replaceRule hr (kind_of_ofSection hr')).trans hc.kinds_eq,
    fun x hx => ?_, hc.nonneg⟩
  rcases mem_of_mem_replaceRule hx with rfl | hx
  · exact Rule.fits_of_ofSection hr'
  · exact hc.fits x hx

theorem Lawful.updateEach (hc : c.Lawful catalog) (u : RuleUpdate) (names : List String) :
    (updateEach u v names c).config.Lawful catalog :=
  updateEach_induction (fun _ _ _ hc h => hc.updateRule h) hc names

theorem Lawful.setFormat (hc : c.Lawful catalog) {name : String} (h : c.setFormat name = .ok c') :
    c'.Lawful catalog := by
  unfold Config.setFormat at h
  split at h
  · cases h
    exact ⟨hc.catalog_eq, hc.kinds_eq, hc.fits, hc.nonneg⟩
  · cases h

inductive Change where
  | rule (name : String) (u : RuleUpdate)
  | rules (names : List String) (u : RuleUpdate)
  | format (name : String)

/-- A configuration after a change. A change that fails leaves what was done before it failed. -/
def changed (v : Validation) (c : Config σ) : Change → Config σ
  | .rule name u => (c.updateRule name u v).toOption.getD c
  | .rules names u => (c.updateRules names u v).config
  | .format name => (c.setFormat name).toOption.getD c

theorem Lawful.changed (hc : c.Lawful catalog) (change : Change) :
    (Config.changed v c change).Lawful catalog := by
  cases change with
  -- a change that fails leaves the configuration as it was
  | rule name u =>
    change Lawful catalog ((c.updateRule name u v).toOption.getD c)
    cases h : c.updateRule name u v with
    | error e => exact hc
    | ok c' => exact hc.updateRule h
  -- what was done before the failure stays, and is lawful as well
  | rules names u => exact hc.updateEach u _
  | format name =>
    change Lawful catalog ((c.setFormat name).toOption.getD c)
    cases h : c.setFormat name with
    | error e => exact hc
    | ok c' => exact hc.setFormat h

/-- **Lawful configurations stay lawful**, whatever is changed. -/
theorem Lawful.foldl_changed (hc : c.Lawful catalog) (changes : List Change) :
    (changes.foldl (Config.changed v) c).Lawful catalog := by
  induction changes generalizing c with
  | nil => exact hc
  | cons change changes ih => exact ih (hc.changed change)

end Config

end Lintel
