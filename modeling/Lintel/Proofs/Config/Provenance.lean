import Lintel.Session
import Mathlib.Data.List.Forall2

/-!
# Where the rules of a configuration come from

Whatever a configuration file says and whatever is changed by arguments, the rules of a
configuration are of kinds from its catalog, and it refers to the directory it was loaded for
(`Config.Of`). Reading a configuration makes such a one, and updates keep it so.

What reading and updates do is said once, for this and every other thing that they keep:
`Config.exists_of_ofEntries` for reading, `Config.exists_of_updateRule` for one update,
`Config.updateEach_induction` for several, and `Invocation.exists_of_adjust` for arguments.
-/

namespace Lintel

variable {σ α β ε ε' : Type}

/-! ### Results -/

theorem exists_of_bind_eq_ok {x : Except ε α} {f : α → Except ε β} {b : β}
    (h : (x >>= f) = .ok b) : ∃ a, x = .ok a ∧ f a = .ok b := by
  cases x with
  | error e => cases h
  | ok a => exact ⟨a, rfl, h⟩

theorem eq_ok_of_mapError {x : Except ε α} {f : ε → ε'} {a : α} (h : x.mapError f = .ok a) :
    x = .ok a := by
  cases x with
  | error e => cases h
  | ok b =>
    cases h
    rfl

theorem exists_of_map_eq_ok {x : Except ε α} {f : α → β} {b : β} (h : x.map f = .ok b) :
    ∃ a, x = .ok a ∧ f a = b := by
  cases x with
  | error e => cases h
  | ok a =>
    cases h
    exact ⟨a, rfl, rfl⟩

/-! ### Catalogs -/

theorem Catalog.mem_of_mem_register {c : Catalog σ} {k k' : RuleKind σ}
    (h : k' ∈ (c.register k).kinds) : k' ∈ c.kinds ∨ k' = k := by
  unfold register at h
  split at h
  · exact .inl h
  · rcases List.mem_append.mp h with h | h
    · exact .inl h
    · exact .inr (List.mem_singleton.mp h)

theorem Catalog.mem_of_mem_foldl {ks : List (RuleKind σ)} {c : Catalog σ} {k : RuleKind σ}
    (h : k ∈ (ks.foldl register c).kinds) : k ∈ c.kinds ∨ k ∈ ks := by
  induction ks generalizing c with
  | nil => exact .inl h
  | cons k' ks ih =>
    rcases ih h with h | h
    · rcases mem_of_mem_register h with h | rfl
      · exact .inl h
      · exact .inr List.mem_cons_self
    · exact .inr (List.mem_cons_of_mem _ h)

theorem Catalog.mem_shipped {k : RuleKind σ} (h : k ∈ (Catalog.shipped : Catalog σ).kinds) :
    k ∈ (Rules.shipped : List (RuleKind σ)) := by
  rcases mem_of_mem_foldl h with h | h
  · cases h
  · exact h

theorem Rules.obligatory_iff {k : RuleKind σ} (hk : k ∈ (Rules.shipped : List (RuleKind σ))) :
    k.obligatory = true ↔ k.fullName = Rules.parseRuleName := by
  have hall : ∀ e ∈ (Rules.shipped : List (RuleKind Unit)).map fun k => (k.obligatory, k.fullName),
      e.1 = true ↔ e.2 = Rules.parseRuleName := by decide
  have hmem : (k.obligatory, k.fullName) ∈
      (Rules.shipped : List (RuleKind σ)).map fun k => (k.obligatory, k.fullName) :=
    List.mem_map_of_mem hk
  exact hall _ hmem

/-! ### Configurations -/

structure Config.Of (catalog : Catalog σ) (root : String) (c : Config σ) : Prop where
  kinds : ∀ r ∈ c.rules, r.kind ∈ catalog.kinds
  root : c.root = root

namespace Config

variable {catalog : Catalog σ} {root : String} {c c' : Config σ} {v : Validation} {libs : Libraries}

theorem kind_of_ofSection {k : RuleKind σ} {entries : List (Data × Data)} {r : Rule σ}
    (h : Rule.ofSection k entries v = .ok r) : r.kind = k := by
  obtain ⟨config, -, rfl⟩ := exists_of_map_eq_ok h
  rfl

/-- **The rules that are read**: one for each kind, in order, each from its section. -/
theorem forall₂_of_readRules {sections : List (Data × Data)} {ks : List (RuleKind σ)}
    {rs : List (Rule σ)} (h : readRules sections v ks = .ok rs) :
    List.Forall₂ (fun k r => ∃ entries, Rule.ofSection k entries v = .ok r) ks rs := by
  -- reading stops at the first kind that fails, so here none has failed
  induction ks generalizing rs with
  | nil =>
    cases h
    exact .nil
  | cons k ks ih =>
    unfold readRules at h
    split at h
    · next entries _ =>
      split at h
      · cases h
      · next r hr =>
        obtain ⟨rest, hrest, rfl⟩ := exists_of_map_eq_ok h
        exact .cons ⟨entries, hr⟩ (ih hrest)
    · cases h

theorem kinds_of_readRules {sections : List (Data × Data)} {ks : List (RuleKind σ)}
    {rs : List (Rule σ)} (h : readRules sections v ks = .ok rs) : rs.map Rule.kind = ks := by
  have hkinds : List.Forall₂ (fun k r => k = Rule.kind r) ks rs :=
    (forall₂_of_readRules h).imp fun _ _ ⟨_, hr⟩ => (kind_of_ofSection hr).symm
  rw [← List.forall₂_map_right_iff (R := Eq), List.forall₂_eq_eq_eq] at hkinds
  exact hkinds.symm

/-- **What is read from entries**: the settings from those that are no sections, and the rules from
the sections. -/
theorem exists_of_ofEntries {path : Option String} {entries : List (Data × Data)}
    (h : ofEntries catalog path root entries v = .ok c) : ∃ settings rules,
      Settings.ofEntries (entries.filter fun e => !isSectionKey e.1) v = .ok settings ∧
      readRules (entries.filter fun e => isSectionKey e.1) v catalog.kinds = .ok rules ∧
      c = ⟨catalog, settings, rules, path, root⟩ := by
  obtain ⟨-, -, h⟩ := exists_of_bind_eq_ok h
  obtain ⟨settings, hsettings, h⟩ := exists_of_bind_eq_ok h
  obtain ⟨rules, hrules, h⟩ := exists_of_bind_eq_ok h
  obtain ⟨-, -, h⟩ := exists_of_bind_eq_ok h
  cases h
  exact ⟨settings, rules, eq_ok_of_mapError hsettings, eq_ok_of_mapError hrules, rfl⟩

theorem of_ofEntries {path : Option String} {entries : List (Data × Data)}
    (h : ofEntries catalog path root entries v = .ok c) : Of catalog root c := by
  obtain ⟨settings, rules, -, hrules, rfl⟩ := exists_of_ofEntries h
  exact ⟨fun r hr => kinds_of_readRules hrules ▸ List.mem_map_of_mem hr, rfl⟩

theorem of_ofData {path : Option String} {data : Data}
    (h : ofData catalog path root data v = .ok c) : Of catalog root c := by
  unfold ofData at h
  split at h
  · exact of_ofEntries h
  · exact of_ofEntries h
  · cases h

theorem of_ofFile {disk : Disk} {env : Environment} {path : Option String}
    (h : ofFile catalog disk env root path libs = .ok c) : Of catalog root c := by
  unfold ofFile at h
  split at h
  · obtain ⟨data, -, h⟩ := exists_of_bind_eq_ok h
    exact of_ofData h
  · obtain ⟨data, -, h⟩ := exists_of_bind_eq_ok h
    exact of_ofData h

/-- **A configuration that was loaded.** -/
theorem of_load {disk : Disk} {env : Environment} {path : Option String}
    (h : load catalog disk env root path libs = .ok c) : Of catalog root c := by
  unfold load at h
  split at h
  · exact of_ofFile h
  · split at h
    · exact of_ofFile h
    · cases h

/-! ### Updates -/

theorem mem_of_mem_replaceRule {r r' : Rule σ} {rs : List (Rule σ)}
    (h : r' ∈ replaceRule r rs) : r' = r ∨ r' ∈ rs := by
  induction rs with
  | nil => cases h
  | cons x xs ih =>
    unfold replaceRule at h
    -- A rule of the same name is replaced where it stands, any other is kept and the search goes
    -- on.
    split at h
    · rcases List.mem_cons.mp h with h | h
      · exact .inl h
      · exact .inr (List.mem_cons_of_mem _ h)
    · rcases List.mem_cons.mp h with h | h
      · exact .inr (h ▸ List.mem_cons_self)
      · rcases ih h with h | h
        · exact .inl h
        · exact .inr (List.mem_cons_of_mem _ h)

/-- **What an update of a rule does**: it finds a rule by the name, and puts the rule in its place
that is read from the values it had and those that are given. -/
theorem exists_of_updateRule {name : String} {u : RuleUpdate} (h : c.updateRule name u v = .ok c') :
    ∃ k r r', c.catalog.find? name = some k ∧ c.rules.find? (·.fullName == k.fullName) = some r ∧
      r.update u.entries v = .ok r' ∧ c' = { c with rules := replaceRule r' c.rules } := by
  unfold Config.updateRule at h
  split at h
  · cases h
  · next r hr =>
    split at h
    · cases h
    · next r' hr' =>
      cases h
      -- the lookup goes by the kind first
      unfold rule? at hr
      split at hr
      · cases hr
      · next k hk => exact ⟨k, r, r', hk, hr, hr', rfl⟩

/-- **What every update of a rule keeps** is kept by updates one after the other, also where one
fails. -/
theorem updateEach_induction {P : Config σ → Prop} {u : RuleUpdate}
    (hstep : ∀ c c' name, P c → c.updateRule name u v = .ok c' → P c') (hc : P c)
    (names : List String) : P (updateEach u v names c).config := by
  induction names generalizing c with
  | nil => exact hc
  | cons name names ih =>
    unfold Config.updateEach
    -- The first name that is refused ends the updates, and what was reached before it stays.
    split
    · exact hc
    · next c' h => exact ih (hstep c c' name hc h)

/-- **An update changes how a rule is configured**, not its kind. -/
theorem Of.updateRule (hc : Of catalog root c) {name : String} {u : RuleUpdate}
    (h : c.updateRule name u v = .ok c') : Of catalog root c' := by
  obtain ⟨k, r, r', -, hr, hr', rfl⟩ := exists_of_updateRule h
  refine ⟨fun x hx => ?_, hc.root⟩
  rcases mem_of_mem_replaceRule hx with rfl | hx
  · -- the new rule is read for the kind of the one that it replaces
    rw [kind_of_ofSection hr']
    exact hc.kinds r (List.mem_of_find?_eq_some hr)
  · exact hc.kinds x hx

theorem Of.updateEach (hc : Of catalog root c) (u : RuleUpdate) (names : List String) :
    Of catalog root (updateEach u v names c).config :=
  updateEach_induction (fun _ _ _ hc h => hc.updateRule h) hc names

theorem Of.updateRules (hc : Of catalog root c) {names : List String} {u : RuleUpdate}
    (h : (c.updateRules names u v).result = .ok c') : Of catalog root c' := by
  unfold Updated.result at h
  split at h
  · cases h
  · cases h
    exact hc.updateEach u _

theorem Of.enableOnly (hc : Of catalog root c) {names : List String}
    (h : c.enableOnly names v = .ok c') : Of catalog root c' := by
  obtain ⟨c₁, hdisabled, henabled⟩ := exists_of_bind_eq_ok h
  exact (hc.updateRules hdisabled).updateRules henabled

end Config

namespace Invocation

variable {c c' : Config σ} {i : Invocation} {v : Validation}

/-- A configuration with the globs and the format that arguments ask for. -/
def prepared (i : Invocation) (c : Config σ) : Config σ :=
  { c with settings := { c.settings with
    globs := if i.paths.isEmpty then c.settings.globs else i.paths
    formatName := match i.format with | some f => f.name | none => c.settings.formatName } }

/-- A configuration with the budget that arguments ask for. -/
def limited (i : Invocation) (c : Config σ) : Config σ :=
  { c with settings := { c.settings with
    maxIterations := match i.maxIterations with
      | .given n => n
      | .blank => 0
      | .unset => c.settings.maxIterations } }

/-- **What arguments do to a configuration**: between the settings, rules are chosen and others
dropped. -/
theorem adjust_eq (i : Invocation) (c : Config σ) (v : Validation) : i.adjust c v
    = ((if i.only.isEmpty then .ok (i.prepared c) else (i.prepared c).enableOnly i.only v).bind
        (·.disable i.without v)).map i.limited := by
  have hrest : ∀ c₁ : Config σ,
      (if i.without.isEmpty then .ok (i.limited c₁)
        else c₁.disable i.without v >>= fun c₂ => .ok (i.limited c₂))
          = (c₁.disable i.without v).map i.limited := by
    intro c₁
    cases i.without with
    -- to disable no rules changes nothing
    | nil => rfl
    | cons name names => cases c₁.disable (name :: names) v <;> rfl
  unfold adjust
  cases i.only.isEmpty with
  | true => exact hrest (i.prepared c)
  | false =>
    change ((i.prepared c).enableOnly i.only v >>= _)
      = (((i.prepared c).enableOnly i.only v).bind _).map i.limited
    cases (i.prepared c).enableOnly i.only v with
    | error e => rfl
    | ok c₁ => exact hrest c₁

theorem exists_of_adjust (h : i.adjust c v = .ok c') : ∃ c₁ c₂,
    (c₁ = i.prepared c ∨ (i.prepared c).enableOnly i.only v = .ok c₁) ∧
      c₁.disable i.without v = .ok c₂ ∧ c' = i.limited c₂ := by
  rw [adjust_eq] at h
  obtain ⟨c₂, hchosen, rfl⟩ := exists_of_map_eq_ok h
  obtain ⟨c₁, honly, hwithout⟩ := exists_of_bind_eq_ok hchosen
  refine ⟨c₁, c₂, ?_, hwithout, rfl⟩
  -- Without a list of rules to keep, nothing is chosen and the prepared configuration goes on.
  split at honly
  · exact .inl (Except.ok.inj honly).symm
  · exact .inr honly

/-- **Arguments change settings and configure rules.** -/
theorem of_adjust {catalog : Catalog σ} {root : String} (hc : c.Of catalog root)
    (h : i.adjust c v = .ok c') : c'.Of catalog root := by
  obtain ⟨c₁, c₂, hchosen, hwithout, rfl⟩ := exists_of_adjust h
  -- paths, format and budget are settings and leave kinds and root alone
  have hprepared : (i.prepared c).Of catalog root := ⟨hc.kinds, hc.root⟩
  have hc₁ : c₁.Of catalog root := by
    rcases hchosen with rfl | honly
    · exact hprepared
    · exact hprepared.enableOnly honly
  have hc₂ := hc₁.updateRules hwithout
  exact ⟨hc₂.kinds, hc₂.root⟩

theorem of_configure {catalog : Catalog σ} {disk : Disk} {env : Environment} {c : Config σ}
    {i : Invocation} {libs : Libraries} (h : i.configure catalog disk env libs = .ok c) :
    c.Of catalog env.cwd := by
  unfold configure at h
  split at h
  · cases h
  · obtain ⟨loaded, hload, h⟩ := exists_of_bind_eq_ok h
    exact of_adjust (Config.of_load hload) (eq_ok_of_mapError h)

end Invocation

end Lintel
