import Lintel.Proofs.Config.Pages
import Lintel.Proofs.Config.Provenance
import Lintel.Proofs.Libraries.Rereading
import Lintel.Proofs.Engine.Exclusion
import Lintel.Proofs.Path.Literal
import Lintel.Scripted

/-!
# What a to-do list silences

The purpose of a to-do list is that a run with it as configuration does not report again what was
open when it was made. It lists paths, but the configuration takes them as patterns. So a rule
excludes every file that is listed for it under a literal path (`Path.IsLiteral`), and the next run
has no issue of this rule for the file (`Todo.config_silences`). This holds with any lawful libraries
for documents and settings. A path with a set in brackets is listed, too, but the pattern does not
match it, and the issues come back (`bracketed_comesBack`).
-/

namespace Lintel

variable {σ : Type}

/-- **The libraries built in are lawful.** -/
theorem Libraries.lawful_builtin : Libraries.builtin.Lawful :=
  ⟨Documents.lawful_builtin, Validation.lawful_builtin⟩

def Rules.names : List String :=
  (Rules.shipped : List (RuleKind Unit)).map RuleKind.fullName

theorem Rules.slash_mem_of_mem_names : ∀ n ∈ Rules.names, '/' ∈ n.toList := by
  decide

theorem Rules.exists_kind (σ : Type) {n : String} (h : n ∈ Rules.names) :
    ∃ k ∈ (Rules.shipped : List (RuleKind σ)), k.fullName = n := by
  have hmem : n ∈ (Rules.shipped : List (RuleKind σ)).map RuleKind.fullName := h
  exact List.mem_map.mp hmem

theorem Rules.isWord_of_mem_names {n : String} (h : n ∈ Rules.names) :
    Documents.Page.IsWord n := by
  have hall : Rules.names.all Documents.Page.spellsWord = true := by decide
  exact Documents.Page.isWord_of_spellsWord (List.all_eq_true.mp hall n h)

theorem Rules.not_obligatory {k : RuleKind σ} (hk : k ∈ Rules.shipped)
    (hname : k.fullName ≠ Rules.parseRuleName) : k.obligatory = false := by
  rw [Bool.eq_false_iff]
  exact fun h => hname ((obligatory_iff hk).mp h)

def Report.OfShipped (r : Report) : Prop :=
  ∀ i ∈ r.issues, i.rule ∈ Rules.names

theorem Catalog.kinds_shipped : (Catalog.shipped : Catalog σ).kinds = Rules.shipped := rfl

namespace Todo

variable {r : Report}

/-- The configuration that a to-do list stands for. -/
def config (r : Report) (path : Option String) (root : String) : Config σ :=
  ⟨Catalog.shipped, Config.unset, Rules.shipped.map (silenced (sections r)), path, root⟩

theorem mem_names_of_lists (hr : r.OfShipped) {rule path : String} (h : Lists r rule path) :
    rule ∈ Rules.names := by
  obtain ⟨-, -, s, hs, -, i, hi, -, rfl⟩ := h
  exact hr i (List.mem_flatMap.mpr ⟨s, hs, hi⟩)

/-- The sections are of rules of the library, and none of them is empty. -/
theorem mem_names_of_mem (hr : r.OfShipped) {s : Section} (hs : s ∈ sections r) :
    s.rule ∈ Rules.names ∧ s.paths ≠ [] := by
  obtain ⟨file, hlists⟩ := exists_section.mp ⟨s, hs, rfl⟩
  exact ⟨mem_names_of_lists hr hlists, List.ne_nil_of_mem ((mem_paths_iff hs).mpr hlists)⟩

/-- **A to-do list stands for a configuration.** -/
theorem ofData_sections {v : Validation} (hv : v.Lawful) (hr : r.OfShipped) (path : Option String)
    (root : String) :
    Config.ofData (Catalog.shipped : Catalog σ) path root (data (sections r)) v
      = .ok (config r path root) := by
  have hnames : ∀ s ∈ sections r, s.rule ∈ Rules.names := fun s hs => (mem_names_of_mem hr hs).1
  refine Config.ofData_sections hv (fun s hs => ?_) (fun s hs => ?_) path root
  · rw [Catalog.kinds_shipped]
    exact Rules.exists_kind σ (hnames s hs)
  · exact Rules.slash_mem_of_mem_names s.rule (hnames s hs)

section Rules

variable {path : Option String} {root : String}

theorem mem_config_rules {q : Rule σ} :
    q ∈ (config r path root).rules ↔ ∃ k ∈ Rules.shipped, silenced (sections r) k = q :=
  List.mem_map

theorem kind_mem_of_mem_config {q : Rule σ} (hq : q ∈ (config r path root).rules) :
    q.kind ∈ Rules.shipped := by
  obtain ⟨k, hk, rfl⟩ := mem_config_rules.mp hq
  exact hk

theorem eq_of_mem_config : ∀ p ∈ (config r path root : Config σ).rules,
    ∀ q ∈ (config r path root : Config σ).rules, p.fullName = q.fullName → p = q := by
  intro p hp q hq hname
  obtain ⟨j, hj, rfl⟩ := mem_config_rules.mp hp
  obtain ⟨k, hk, rfl⟩ := mem_config_rules.mp hq
  obtain rfl : j = k := Rules.eq_of_fullName hj hk hname
  rfl

theorem enabledRules_config :
    (config r path root : Config σ).enabledRules = (config r path root).rules := by
  refine List.filter_eq_self.mpr fun q hq => ?_
  obtain ⟨k, -, rfl⟩ := mem_config_rules.mp hq
  exact Bool.or_true _

theorem mem_excluded_iff {q : Rule σ} (hq : q ∈ (config r path root).rules) {file : String} :
    file ∈ q.excluded ↔ Lists r q.fullName file := by
  obtain ⟨k, -, rfl⟩ := mem_config_rules.mp hq
  exact mem_pathsOf_sections

/-- **What a rule of a to-do list excludes**: the paths that match a path that is listed for it. -/
theorem excludes_iff (cwd : String) {q : Rule σ} (hq : q ∈ (config r path root).rules)
    {file : String} (hfile : file ≠ "") : q.excludes cwd (some file) = true ↔
      ∃ p, Lists r q.fullName p ∧ Path.patternMatches (Path.forms cwd cwd file) p = true := by
  have hempty : file.isEmpty = false := by
    rw [Bool.eq_false_iff, Ne, String.isEmpty_iff]
    exact hfile
  rw [Rule.excludes, Bool.and_eq_true, Bool.not_eq_true', Path.matchesAny, hempty]
  simp only [Bool.not_false, Bool.true_and, List.any_eq_true]
  constructor
  · rintro ⟨-, p, hp, hmatches⟩
    exact ⟨p, (mem_excluded_iff hq).mp hp, hmatches⟩
  · -- the one kind that cannot be excluded is never listed
    rintro ⟨p, hp, hmatches⟩
    exact ⟨Rules.not_obligatory (kind_mem_of_mem_config hq) hp.2.1, p,
      (mem_excluded_iff hq).mpr hp, hmatches⟩

theorem exists_rule? (σ : Type) (path : Option String) (root : String) (hr : r.OfShipped)
    {rule file : String} (h : Lists r rule file) :
    ∃ q ∈ (config r path root : Config σ).rules,
      q.fullName = rule ∧ (config r path root).rule? rule = some q := by
  obtain ⟨k, hk, rfl⟩ := Rules.exists_kind σ (mem_names_of_lists hr h)
  have hq : silenced (sections r) k ∈ (config r path root).rules :=
    mem_config_rules.mpr ⟨k, hk, rfl⟩
  refine ⟨_, hq, rfl, ?_⟩
  -- the name leads to the kind, and the kind to the rule
  have hkind : (config r path root : Config σ).catalog.find? k.fullName = some k := by
    change (Catalog.shipped : Catalog σ).find? k.fullName = some k
    unfold Catalog.find?
    rw [Catalog.kinds_shipped]
    cases hfind : Rules.shipped.find? (fun j : RuleKind σ => j.fullName == k.fullName) with
    | none => exact absurd (beq_self_eq_true _) (List.find?_eq_none.mp hfind k hk)
    | some j =>
      have hname := List.find?_some hfind
      rw [beq_iff_eq] at hname
      rw [Rules.eq_of_fullName (List.mem_of_find?_eq_some hfind) hk hname]
  unfold Config.rule?
  rw [hkind]
  simp only
  cases hfind : (config r path root).rules.find? (fun q : Rule σ => q.fullName == k.fullName) with
  | none => exact absurd (beq_self_eq_true _) (List.find?_eq_none.mp hfind _ hq)
  -- The search may end at another rule of this name, and there is none.
  | some p =>
    have hname := List.find?_some hfind
    rw [beq_iff_eq] at hname
    rw [eq_of_mem_config p (List.mem_of_find?_eq_some hfind) _ hq hname]

end Rules

def readText (libs : Libraries) (text : String) (path : Option String) (root : String) :
    Except LoadError (Config σ) :=
  Config.readFile libs.documents (Utf8.ofString text) >>= fun data =>
    Config.ofData Catalog.shipped path root data libs.validation

/-- **A to-do list is accepted as a configuration.** -/
theorem readText_render {libs : Libraries} (hlibs : libs.Lawful) (hr : r.OfShipped) (now : Moment)
    (path : Option String) (root : String) :
    readText libs (render now r libs.documents) path root
      = .ok (config r path root : Config σ) := by
  have hproper : ∀ s ∈ sections r, s.IsProper := fun s hs =>
    have h := mem_names_of_mem hr hs
    ⟨Rules.isWord_of_mem_names h.1, h.2⟩
  rw [readText, readFile_render hlibs.documents now hproper]
  exact ofData_sections hlibs.validation hr path root

/-- **A to-do list silences what it lists.** Let the libraries for documents and settings be lawful.
If all issues of a report are of the library's rules, then the to-do list made from it is accepted as
a configuration. Each rule that has an open issue for a file is in it under its name. The rule
excludes the files whose paths match a path that is listed for it; among these is the file itself, if
its path is literal.

A run with the rules of this configuration, whatever the texts are by then, whatever the parser
does and whether or not the run corrects or is disturbed, reports no issue of a rule for a file that
is listed for it under a literal path. -/
theorem config_silences {libs : Libraries} (hlibs : libs.Lawful) (hr : r.OfShipped) (now : Moment)
    (path : Option String) (root : String) :
    ∃ c : Config σ, readText libs (render now r libs.documents) path root = .ok c ∧
      (∀ rule file cwd, Lists r rule file → ∃ q, c.rule? rule = some q ∧ q.fullName = rule ∧
        (q.excludes cwd (some file) = true ↔
          ∃ p, Lists r rule p ∧ Path.patternMatches (Path.forms cwd cwd file) p = true) ∧
        (Path.IsLiteral file → q.excludes cwd (some file) = true)) ∧
      ∀ parser cwd budget e, Engine.ofRules c.enabledRules parser cwd budget = .ok e →
        ∀ ac ss w reports, e.Reports ac ss w reports → ∀ s ∈ reports,
          ∀ i ∈ s.issues, ∀ file, s.path = some file → Lists r i.rule file →
            ¬ Path.IsLiteral file := by
  refine ⟨config r path root, ?_, fun rule file cwd h => ?_, ?_⟩
  · exact readText_render hlibs hr now path root
  · obtain ⟨q, hq, rfl, hfind⟩ := exists_rule? σ path root hr h
    have hiff := excludes_iff cwd hq h.1
    exact ⟨q, hfind, rfl, hiff, fun hlit => hiff.mpr ⟨file, h, hlit.patternMatches⟩⟩
  · intro parser cwd budget e he ac ss w reports hreports s hs i hi file hfile hlists hlit
    rw [enabledRules_config] at he
    obtain ⟨source, -, w', states, t, hloops, rfl⟩ := hreports.exists_of_mem hs
    obtain ⟨q, hq, hname, -⟩ := exists_rule? σ path root hr hlists
    -- the rule would have been asked about the file
    obtain ⟨-, happlies⟩ := Engine.applies_of_reported
      (fun r hr => kind_mem_of_mem_config hr) eq_of_mem_config he hloops hi hq hname
    rw [← hname] at hlists
    have hexcludes := (excludes_iff cwd hq hlists.1).mpr
      ⟨file, hlists, hlit.patternMatches⟩
    -- the report bears the path of its source
    have hpath : source.path = some file :=
      ((hloops.origin.trans (Engine.reportAfter_origin t).1).path).symm.trans hfile
    rw [hpath, hexcludes] at happlies
    cases happlies

def look (c : Config Unit) (path : String) : Report :=
  match Engine.ofRules c.enabledRules Scripted.flatParser "/work" 10 with
  | .error _ => ⟨[], false, ⟨0⟩⟩
  | .ok e => (e.run false [Source.ofText "x \n" (some path)] ⟨(), false, []⟩).1

def firstLook (path : String) : Report :=
  look (config ⟨[], false, ⟨0⟩⟩ none "/work") path

instance (r : Report) : Decidable r.OfShipped :=
  inferInstanceAs (Decidable (∀ i ∈ r.issues, i.rule ∈ Rules.names))

def noon : Moment := ⟨⟨2000, 1, 2⟩, 12, 0, 0, 0, none⟩

/-- A file whose name is literal is silenced. -/
theorem firstLook_silenced :
    ∃ c : Config Unit, readText .builtin (render noon (firstLook "a.rb")) none "/work" = .ok c ∧
      ∃ q, c.rule? "Layout/TrailingWhitespace" = some q ∧
        q.excludes "/work" (some "a.rb") = true := by
  have hshipped : (firstLook "a.rb").OfShipped := by decide +kernel
  have hlists : Lists (firstLook "a.rb") "Layout/TrailingWhitespace" "a.rb" :=
    mem_flatMap_findings.mp (by decide +kernel)
  obtain ⟨c, hc, hrules, -⟩ := config_silences Libraries.lawful_builtin hshipped noon none "/work"
  obtain ⟨q, hq, -, -, hexcludes⟩ := hrules _ _ "/work" hlists
  exact ⟨c, hc, q, hq, hexcludes (by decide)⟩

/-- **The issues of a file whose name holds a set come back.** The file is listed, but its rule does
not exclude it, and a run with the to-do list as configuration reports the same as before. -/
theorem bracketed_comesBack :
    (firstLook "[a].rb").OfShipped ∧
      Lists (firstLook "[a].rb") "Layout/TrailingWhitespace" "[a].rb" ∧
      ∃ c : Config Unit,
        readText .builtin (render noon (firstLook "[a].rb")) none "/work" = .ok c ∧
        (c.rule? "Layout/TrailingWhitespace").map (·.excludes "/work" (some "[a].rb"))
          = some false ∧
        (look c "[a].rb").issues.map (fun i => (i.rule, i.isOpen))
          = [("Layout/TrailingWhitespace", true)] := by
  have hshipped : (firstLook "[a].rb").OfShipped := by decide +kernel
  -- Reading back is the general theorem; only the matching of the one path is computed.
  have hread : readText .builtin (render noon (firstLook "[a].rb")) none "/work"
      = .ok (config (firstLook "[a].rb") none "/work" : Config Unit) :=
    readText_render Libraries.lawful_builtin hshipped noon none "/work"
  refine ⟨hshipped, mem_flatMap_findings.mp (by decide +kernel), _, hread, ?_, ?_⟩
  · decide +kernel
  · decide +kernel

end Todo

end Lintel
