import Lintel.Proofs.Engine.Library
import Lintel.Proofs.Engine.Order
import Lintel.Proofs.Engine.Quiet
import Lintel.Proofs.Rules.Trimming

/-!
# Runs that take trailing blanks away

An engine that has nothing but the rule on blanks makes of a text what `tidy` makes of its lines, in
at most two revisions and without a conflict (`run_trims`). One revision is not enough for a line
with blanks on both sides of a carriage return.

Each revision does all that there is to be done: the runs of blanks in a text are apart from each
other, so the edits for them are all accepted (`select_of_separated`), and what they leave is the
text with its lines stripped (`correction_trimmer`). So after as many revisions as have been made
the text has been stripped as often (`Trimming.text`). A text that was stripped twice is tidy, and a
pass over it finds nothing; hence a third revision is never made, and the budget is not used up.
-/

namespace Lintel

variable {σ : Type}

/-! ### Corrections that are all accepted -/

namespace Correction

theorem map_edit_proposals {α : Type} {rules : List (Rule σ)} {v : View} {issue : α → Issue}
    {edit : α → Edit} {xs : List α}
    (h : ∀ x ∈ xs, ∃ rule, answerer rules (issue x) = some rule ∧ ∀ memory,
      verdict v.bytes.length (issue x) (rule.correct v (issue x) memory).answer
        = .ok (some (edit x))) (index : Nat) (w : World σ) :
    (gatherFrom rules v index (xs.map issue) w).proposals.map (·.edit) = xs.map edit := by
  induction xs generalizing index w with
  | nil => rfl
  | cons x xs ih =>
    obtain ⟨⟨rule, hrule, hverdict⟩, hrest⟩ := List.forall_mem_cons.mp h
    rw [List.map_cons, gatherFrom_cons_some hrule, hverdict, List.map_cons]
    change edit x :: List.map (·.edit) (gatherFrom _ _ _ _ _).proposals = _
    -- Each issue is answered whatever the memory is, so the world may change on the way.
    rw [ih hrest]

theorem selectFrom_of_separated {last : Option Nat} {ps : List Proposal}
    (h : ps.Pairwise fun a b => a.edit.stop < b.edit.start)
    (hlast : ∀ stop, last = some stop → ∀ p ∈ ps, stop < p.edit.start) :
    selectFrom last ps = (ps, []) := by
  induction ps generalizing last with
  | nil => rfl
  | cons p ps ih =>
    obtain ⟨hfirst, hrest⟩ := List.pairwise_cons.mp h
    -- the first is not touched by what was accepted before, if anything was
    have hclear : isClear last p.edit = true := by
      cases last with
      | none => rfl
      | some stop => exact decide_eq_true (hlast stop rfl p List.mem_cons_self)
    have hnext : ∀ stop, some p.edit.stop = some stop → ∀ q ∈ ps, stop < q.edit.start := by
      intro stop hstop q hq
      cases hstop
      exact hfirst q hq
    rw [selectFrom, if_pos hclear, ih hrest hnext]

/-- **Proposals that are apart from each other, from the left to the right, are all accepted.** -/
theorem select_of_separated {ps : List Proposal}
    (h : ps.Pairwise fun a b => a.edit.stop < b.edit.start) : select ps = (ps, []) := by
  -- apart from the left to the right is in order already, so the sort changes nothing
  have hsorted : inOrder ps = ps := by
    refine List.mergeSort_of_pairwise (h.imp fun {a b} hab => ?_)
    have hle := a.edit.start_le_stop
    rw [decide_eq_true_eq]
    omega
  rw [select, hsorted]
  refine selectFrom_of_separated h fun stop hstop => ?_
  cases hstop

/-- **A pass of correction all of whose proposals are accepted.** -/
theorem apply_of_separated {rules : List (Rule σ)} {source : Source} {v : View}
    {issues : List Issue} {w : World σ} {es : List Edit} {text : String}
    (hes : (gatherFrom rules v 0 issues w).proposals.map (·.edit) = es) (hne : es ≠ [])
    (hseparated : es.Pairwise fun a b => a.stop < b.start)
    (htext : applyEdits v.bytes es = Utf8.ofString text) :
    (apply rules source v issues w).source = source.setText text ∧
      (apply rules source v issues w).conflicts = [] := by
  have hsome : (gatherFrom rules v 0 issues w).proposals ≠ [] := by
    intro hnil
    rw [hnil] at hes
    exact hne hes.symm
  rw [← hes, List.pairwise_map] at hseparated
  have hselect := select_of_separated hseparated
  have hchosen : chosen rules v issues w = es := by
    rw [chosen, hselect]
    exact hes
  -- what the edits leave is the text given, so it can be decoded
  have hdecode : Utf8.decode (applyEdits v.bytes (chosen rules v issues w)) = .ok text.toList := by
    rw [hchosen, htext]
    exact Utf8.decode_encode text.toList
  rw [apply_of_ok rules source v issues w hsome hdecode, hselect, String.ofList_toList]
  exact ⟨rfl, rfl⟩

end Correction

/-- Without the word for which texts are searched first, nothing is silenced. -/
theorem silence_eq_self {text : String}
    (h : occursIn "autolint:disable".toList text.toList = false) (issues : List Issue) :
    silence text issues = issues := by
  have hnone : Suppressions.inForce text = [] := by
    unfold Suppressions.inForce
    rw [h]
    rfl
  -- no directive is in force, so no issue is silenced
  have hidle : ∀ i, Suppressions.silences [] i = false := by
    intro i
    rw [Suppressions.silences]
    exact Bool.and_false _
  unfold silence
  rw [hnone]
  simp only [hidle, Bool.false_eq_true, if_false, List.map_id']

namespace Rules.TrailingWhitespace

def issueOver (c : RuleConfig) (text : String) (range : Nat × Nat) : Issue :=
  Rule.issueAt profile c (.ofText none text (.error .noTree)) range.1 range.2 message

/-- The rule on blanks proposes to take the range of an issue away. -/
theorem proposeEdit_removal {range : Nat × Nat} (h : range.1 ≤ range.2) :
    Rule.proposeEdit (range.1 : Int) (range.2 : Int) "" = .ok (some (removal range)) := by
  obtain ⟨edit, hedit⟩ := exists_proposeEdit h ""
  obtain ⟨hstart, hstop, htext⟩ := of_proposeEdit hedit
  -- an edit is its ends and its replacement, and these are the range and nothing
  have hsame : edit = removal range := by
    cases edit with
    | mk start stop replacement hle =>
      obtain rfl : start = range.1 := Int.ofNat_inj.mp hstart
      obtain rfl : stop = max range.1 range.2 := by
        have hmax : max range.1 range.2 = range.2 := Nat.max_eq_right h
        rw [hmax]
        exact Int.ofNat_inj.mp hstop
      obtain rfl : replacement = "" := htext
      rfl
  rw [hedit, hsame]

end Rules.TrailingWhitespace

open Rules.TrailingWhitespace (strip tidy runs removal issueOver runs_separated le_of_mem_runs
  mapLines_strip_strip mapLines_strip_of_runs runs_tidy)

namespace Engine

/-! ### The engine -/

def trimmer (config : RuleConfig) (parser : Parser σ) (cwd : String) (budget : Int) : Engine σ where
  rules := [⟨Rules.trailingWhitespace, config⟩]
  parseRule := .ofKind Rules.unparsable
  parser := parser
  maxIterations := budget
  cwd := cwd

variable {config : RuleConfig} {parser : Parser σ} {cwd : String} {budget : Int}

theorem fullName_ne : (Rules.trailingWhitespace (σ := σ)).fullName ≠ Rules.parseRuleName := by
  change Rules.TrailingWhitespace.profile.fullName ≠ Rules.parseRuleName
  decide

theorem ofRules_trimmer (config : RuleConfig) (parser : Parser σ) (cwd : String) (budget : Int) :
    ofRules [⟨Rules.trailingWhitespace, config⟩] parser cwd budget
      = .ok (trimmer config parser cwd budget) := by
  have hother : ((⟨Rules.trailingWhitespace, config⟩ : Rule σ).fullName == Rules.parseRuleName)
      = false := beq_eq_false_iff_ne.mpr fullName_ne
  have htake : takeParseRule [(⟨Rules.trailingWhitespace, config⟩ : Rule σ)]
      = (Rule.ofKind Rules.unparsable, [⟨Rules.trailingWhitespace, config⟩]) := by
    rw [takeParseRule, List.find?_cons, hother, List.find?_nil]
  rw [ofRules, htake]
  rfl

/-! ### What a pass finds, and what becomes of it -/

/-- A source that the rule on blanks is asked about, in whose text nothing is silenced. -/
structure Trimmable (config : RuleConfig) (parser : Parser σ) (cwd : String) (s : Source) : Prop where
  coherent : s.Coherent
  parsed : s.ParsedBy parser
  asked : (⟨Rules.trailingWhitespace, config⟩ : Rule σ).excludes cwd s.path = false
  plain : occursIn "autolint:disable".toList s.text.toList = false

theorem Trimmable.view {s : Source} (h : Trimmable config parser cwd s) (w : World σ) :
    Trimmable config parser cwd (s.view parser w).2.1 where
  coherent := h.coherent.view parser w
  parsed := h.parsed.view w
  asked := by
    rw [Source.view_path]
    exact h.asked
  plain := by
    rw [Source.view_text]
    exact h.plain

theorem Trimmable.reparse {s : Source} (h : Trimmable config parser cwd s) (w : World σ) :
    Trimmable config parser cwd (s.reparse parser w).2.1 where
  coherent := h.coherent.reparse parser w
  parsed := h.parsed.reparse w
  asked := by
    rw [Source.reparse_path]
    exact h.asked
  plain := by
    rw [Source.reparse_text]
    exact h.plain

theorem Trimmable.strip {s : Source} (h : Trimmable config parser cwd s) :
    Trimmable config parser cwd (s.setText (mapLines strip s.text)) where
  coherent := Source.coherent_setText _ _
  parsed := Source.parsedBy_setText parser _ _
  asked := h.asked
  plain := by
    rw [Source.setText_text, Bool.eq_false_iff]
    intro hfound
    have hplain := h.plain
    -- Trimming lines brings no directive about: one in the trimmed text was there before.
    rw [Rules.TrailingWhitespace.occursIn_strip (by decide) (by decide) hfound] at hplain
    cases hplain

/-- **A pass finds the runs of blanks**, in their order. -/
theorem analyze_trimmer (henabled : config.enabled = true) {s : Source}
    (haccepts : parser.Accepts s.text) (h : Trimmable config parser cwd s) {w : World σ}
    {a : Analysis} (ha : ((trimmer config parser cwd budget).analyze s w).1 = .ok a) :
    a.issues = (runs (Utf8.ofString s.text)).map (issueOver config s.text) := by
  obtain ⟨p, hparsed, hvalid⟩ := haccepts.parse h.parsed w
  have hview : (s.view parser w).1 = .ofText s.path s.text (s.parse parser w).1 :=
    Source.view_fst h.coherent parser w
  -- the rule is the only one that is asked
  have happlicable : (trimmer config parser cwd budget).applicable s.path
      = [⟨Rules.trailingWhitespace, config⟩] := by
    refine List.filter_cons_of_pos (l := []) ?_
    change ((false || config.enabled)
      && !(⟨Rules.trailingWhitespace, config⟩ : Rule σ).excludes cwd s.path) = true
    rw [henabled, h.asked]
    rfl
  -- the text parses, so the pass asks this rule, sorts what it finds and silences it
  have hpass := analyze_of_valid (e := trimmer config parser cwd budget) (s := s) (w := w) (p := p)
    (by change (s.view parser w).1.parsed = _; rw [hview]; exact hparsed) hvalid
  rw [hpass] at ha
  cases ha
  change silence (s.view parser w).1.text (byStart ((detectAll (s.view parser w).1
    ((trimmer config parser cwd budget).applicable (s.view parser w).1.path)
    (s.view parser w).2.2).1.flatMap (·.found))) = _
  rw [hview, View.ofText_path, View.ofText_text, happlicable, detectAll_cons, List.flatMap_cons,
    detectWith_found]
  change silence s.text (byStart ((runs (Utf8.ofString s.text)).map (issueOver config s.text) ++ []))
    = _
  -- the runs come in the order of their starts, so the sort leaves them there
  have hsorted : byStart ((runs (Utf8.ofString s.text)).map (issueOver config s.text))
      = (runs (Utf8.ofString s.text)).map (issueOver config s.text) := by
    refine List.mergeSort_of_pairwise (List.pairwise_map.mpr ?_)
    have hseparated := runs_separated (Utf8.ofString s.text)
    refine hseparated.imp_of_mem fun {r q} hr _ hlt => ?_
    have hle := le_of_mem_runs hr
    change decide ((r.1 : Int) ≤ (q.1 : Int)) = true
    rw [decide_eq_true_eq]
    omega
  rw [List.append_nil, hsorted, silence_eq_self h.plain]

/-- The rule on blanks answers for its issues, and takes their ranges away. -/
theorem exists_answerer {text : String} {v : View} (hv : v.bytes = Utf8.ofString text)
    {range : Nat × Nat} (h : range ∈ runs (Utf8.ofString text)) :
    ∃ rule, Correction.answerer (trimmer config parser cwd budget).correctors
        (issueOver config text range) = some rule ∧
      ∀ memory, Correction.verdict v.bytes.length (issueOver config text range)
        (rule.correct v (issueOver config text range) memory).answer = .ok (some (removal range)) := by
  have hle := le_of_mem_runs h
  have hmax : max range.1 range.2 = range.2 := Nat.max_eq_right hle
  have hend := (Rules.boundaries_of_mem_runs (Utf8.isText_ofString text) h).2.2.1
  refine ⟨⟨Rules.trailingWhitespace, config⟩, ?_, fun memory => ?_⟩
  · -- The rule on parsing stands first, but answers for its own issues only.
    have hparse : ((Rule.ofKind Rules.unparsable : Rule σ).fullName
        == (issueOver config text range).rule) = false := by
      change (Rules.Unparsable.profile.fullName == Rules.TrailingWhitespace.profile.fullName) = false
      decide
    have hown : ((⟨Rules.trailingWhitespace, config⟩ : Rule σ).fullName
        == (issueOver config text range).rule) = true := beq_self_eq_true _
    rw [Correction.answerer_eq_some]
    refine ⟨rfl, ?_⟩
    change List.find? _ [Rule.ofKind Rules.unparsable, ⟨Rules.trailingWhitespace, config⟩] = _
    rw [List.find?_cons, hparse, List.find?_cons, hown]
  · change Correction.verdict v.bytes.length (issueOver config text range)
      (Rule.proposeEdit (range.1 : Int) (range.2 : Int) "") = _
    rw [Rules.TrailingWhitespace.proposeEdit_removal hle, Correction.verdict_eq_some_iff, hv]
    refine ⟨rfl, Int.le_refl _, ?_, ?_⟩
    · change ((max range.1 range.2 : Nat) : Int) ≤ (range.2 : Int)
      omega
    · change max range.1 range.2 ≤ _
      omega

section Correcting

variable (parser) (cwd) (budget)
variable {m : Machine} (hs : m.source.Coherent)
  (hissues : m.issues = (runs (Utf8.ofString m.source.text)).map (issueOver config m.source.text))

include hs hissues

theorem map_edit_trimmer (w : World σ) :
    (Correction.gatherFrom (trimmer config parser cwd budget).correctors
        (m.source.view parser w).1 0 m.issues (m.source.view parser w).2.2).proposals.map (·.edit)
      = (runs (Utf8.ofString m.source.text)).map removal := by
  have hbytes : (m.source.view parser w).1.bytes = Utf8.ofString m.source.text := by
    rw [Source.view_fst hs, View.ofText_bytes]
  rw [hissues]
  exact Correction.map_edit_proposals (fun r hr => exists_answerer hbytes hr) 0 _

/-- **A revision strips the lines**, and nothing is in conflict. -/
theorem correction_trimmer (hne : runs (Utf8.ofString m.source.text) ≠ []) (w : World σ) :
    ((trimmer config parser cwd budget).correction m w).source
        = (m.source.view parser w).2.1.setText (mapLines strip m.source.text) ∧
      ((trimmer config parser cwd budget).correction m w).conflicts = [] := by
  refine Correction.apply_of_separated (map_edit_trimmer parser cwd budget hs hissues w) ?_ ?_ ?_
  · rwa [ne_eq, List.map_eq_nil_iff]
  · -- Runs of blanks are maximal, so between two of them stands at least one octet.
    exact Rules.TrailingWhitespace.removals_separated (fun r hr => le_of_mem_runs hr)
      (runs_separated _)
  · change applyEdits (m.source.view parser w).1.bytes _ = _
    rw [Source.view_fst hs, View.ofText_bytes]
    exact Rules.TrailingWhitespace.applyEdits_runs m.source.text

end Correcting

/-! ### Along a run -/

/-- The machine after some revisions of a text: it has been stripped as often. -/
structure Trimming (config : RuleConfig) (parser : Parser σ) (cwd : String) (s : Source)
    (m : Machine) : Prop where
  trimmable : Trimmable config parser cwd m.source
  text : m.source.text = (mapLines strip)^[m.iterations] s.text
  iterations : m.iterations ≤ 2
  converged : m.converged = true
  conflicts : m.conflicts = []
  corrected : ∀ i ∈ m.corrected, i.status = .corrected
  /-- What was found in the present text is as it was found. -/
  reported : m.current = true → ∀ i ∈ m.issues, i.status = .reported
  /-- What is to be corrected are runs of blanks, and there are some. -/
  found : m.stage = .correcting →
    m.issues = (runs (Utf8.ofString m.source.text)).map (issueOver config m.source.text) ∧
      runs (Utf8.ofString m.source.text) ≠ []
  /-- A loop that was not aborted has ended because nothing was found. -/
  ended : m.stage = .done →
    m.aborted = true ∨ m.issues = [] ∧ runs (Utf8.ofString m.source.text) = []

variable {s : Source}

theorem Trimming.initial (h : Trimmable config parser cwd s) :
    Trimming config parser cwd s (start true s) where
  trimmable := ⟨⟨h.coherent.bytes, h.coherent.starts⟩, h.parsed, h.asked, h.plain⟩
  text := rfl
  iterations := Nat.zero_le 2
  converged := rfl
  conflicts := rfl
  corrected := fun _ hi => absurd hi List.not_mem_nil
  reported := fun _ _ hi => absurd hi List.not_mem_nil
  found := fun hs => nomatch hs
  ended := fun hs => nomatch hs

theorem iterate_strip_two (text : String) : (mapLines strip)^[2] text = mapLines tidy text := by
  rw [Function.iterate_succ_apply, Function.iterate_one,
    mapLines_strip_strip]

theorem Trimming.runs_of_two {m : Machine} (h : Trimming config parser cwd s m)
    (htwo : m.iterations = 2) : runs (Utf8.ofString m.source.text) = [] := by
  rw [h.text, htwo, iterate_strip_two]
  exact runs_tidy s.text

/-- **A text in which nothing is found is tidy**, whether it took two revisions, one or none. -/
theorem Trimming.text_eq {m : Machine} (h : Trimming config parser cwd s m)
    (hnone : runs (Utf8.ofString m.source.text) = []) : m.source.text = mapLines tidy s.text := by
  have hstays := mapLines_strip_of_runs hnone
  have hle := h.iterations
  have hcases : m.iterations = 0 ∨ m.iterations = 1 ∨ m.iterations = 2 := by omega
  have htext := h.text
  -- nothing found means that stripping changes nothing, so it may be done until it was done twice
  rcases hcases with hzero | hone | htwo
  · rw [hzero, Function.iterate_zero_apply] at htext
    rw [← mapLines_strip_strip, ← htext, hstays, hstays]
  · rw [hone, Function.iterate_one] at htext
    rw [← mapLines_strip_strip, ← htext, hstays]
  · rw [htext, htwo, iterate_strip_two]

/-- The source of a pass has been parsed, and is as it was otherwise. -/
theorem Trimming.analyzed {m : Machine} (h : Trimming config parser cwd s m) (budget : Int)
    (w : World σ) :
    Trimmable config parser cwd ((trimmer config parser cwd budget).analyze m.source w).2.1 ∧
      ((trimmer config parser cwd budget).analyze m.source w).2.1.text = m.source.text := by
  rw [analyze_source]
  exact ⟨h.trimmable.view w, Source.view_text parser m.source w⟩

theorem status_of_mem_map {text : String} {ranges : List (Nat × Nat)} {i : Issue}
    (h : i ∈ ranges.map (issueOver config text)) : i.status = .reported := by
  obtain ⟨r, -, rfl⟩ := List.mem_map.mp h
  rfl

theorem any_isPending_map (text : String) {ranges : List (Nat × Nat)} :
    (ranges.map (issueOver config text)).any (·.isPending) = false ↔ ranges = [] := by
  cases ranges with
  | nil => exact ⟨fun _ => rfl, fun _ => rfl⟩
  | cons r ranges => exact ⟨fun h => (nomatch h), fun h => (nomatch h)⟩

theorem Trimming.settle {m : Machine} (h : Trimming config parser cwd s m) {w : World σ}
    {a : Analysis}
    (hfound : a.issues
      = (runs (Utf8.ofString m.source.text)).map (issueOver config m.source.text))
    (hp : a.issues.any (·.isPending) = false) :
    Trimming config parser cwd s
      { looked m ((trimmer config parser cwd budget).analyze m.source w).2.1 a with
          stage := .done } := by
  obtain ⟨htrimmable, hsame⟩ := h.analyzed budget w
  -- an issue over a run is pending, so there are no runs
  have hnone : runs (Utf8.ofString m.source.text) = [] := by
    rw [hfound] at hp
    exact (any_isPending_map _).mp hp
  rw [hnone, List.map_nil] at hfound
  refine ⟨htrimmable, hsame.trans h.text, h.iterations, h.converged, h.conflicts, h.corrected,
    fun _ i hi => ?_, fun hs => (nomatch hs), fun _ => .inr ⟨hfound, ?_⟩⟩
  · change i ∈ a.issues at hi
    rw [hfound] at hi
    cases hi
  · rwa [← hsame] at hnone

theorem Trimming.proceed {m : Machine} (h : Trimming config parser cwd s m) {w : World σ}
    {a : Analysis}
    (hfound : a.issues
      = (runs (Utf8.ofString m.source.text)).map (issueOver config m.source.text))
    (hp : a.issues.any (·.isPending) = true) :
    Trimming config parser cwd s
      { looked m ((trimmer config parser cwd budget).analyze m.source w).2.1 a with
          stage := .correcting } := by
  obtain ⟨htrimmable, hsame⟩ := h.analyzed budget w
  -- Something is pending, so there was something to trim.
  have hne : runs (Utf8.ofString m.source.text) ≠ [] := by
    intro hnone
    rw [hfound, hnone] at hp
    cases hp
  refine ⟨htrimmable, hsame.trans h.text, h.iterations, h.converged, h.conflicts, h.corrected,
    fun _ i hi => ?_, fun _ => ?_, fun hs => (nomatch hs)⟩
  · change i ∈ a.issues at hi
    rw [hfound] at hi
    exact status_of_mem_map hi
  · rw [← hsame] at hfound hne
    exact ⟨hfound, hne⟩

/-- **A revision strips the text once more.** It is the second at most, because nothing would be
found in a text that was stripped twice. -/
theorem Trimming.revise {m : Machine} (h : Trimming config parser cwd s m) {w : World σ}
    (hs : m.stage = .correcting)
    (hr : Correction.Revised (m.source.view parser w).2.1 (m.source.view parser w).1 m.issues
      ((trimmer config parser cwd budget).correction m w)) :
    Trimming config parser cwd s (revised m ((trimmer config parser cwd budget).correction m w)) := by
  obtain ⟨hfound, hne⟩ := h.found hs
  obtain ⟨hsource, hconflicts⟩ :=
    correction_trimmer parser cwd budget h.trimmable.coherent hfound hne w
  -- After two revisions nothing would have been found.
  have hlt : m.iterations < 2 := by
    have hle := h.iterations
    have hnot : m.iterations ≠ 2 := fun htwo => hne (h.runs_of_two htwo)
    omega
  have hstrip : Trimmable config parser cwd
      ((trimmer config parser cwd budget).correction m w).source := by
    have hstripped := (h.trimmable.view w).strip
    rw [Source.view_text] at hstripped
    rwa [hsource]
  refine ⟨hstrip, ?_, hlt, h.converged, ?_, fun i hi => ?_, fun hcur => (nomatch hcur),
    fun hs => (nomatch hs), fun hs => (nomatch hs)⟩
  · change ((trimmer config parser cwd budget).correction m w).source.text
      = (mapLines strip)^[m.iterations + 1] s.text
    rw [hsource, Source.setText_text, Function.iterate_succ_apply', ← h.text]
  · change ((trimmer config parser cwd budget).correction m w).issuesAt
      ((trimmer config parser cwd budget).correction m w).conflicts = []
    rw [hconflicts]
    rfl
  · rcases List.mem_append.mp hi with hi | hi
    · exact h.corrected i hi
    · exact hr.corrected_status hi

/-- **A turn goes on stripping.** -/
theorem Trimming.step (henabled : config.enabled = true) (haccepts : ∀ text, parser.Accepts text)
    (hbudget : 2 ≤ budget) {m m' : Machine} {w w' : World σ}
    (h : Trimming config parser cwd s m)
    (hm : Moves (trimmer config parser cwd budget) true m w m' w') :
    Trimming config parser cwd s m' := by
  have hissues : ∀ {a}, ((trimmer config parser cwd budget).analyze m.source w).1 = .ok a →
      a.issues = (runs (Utf8.ofString m.source.text)).map (issueOver config m.source.text) :=
    fun ha => analyze_trimmer henabled (haccepts _) h.trimmable ha
  cases hm with
  -- only the stage changes
  | abort hc =>
    exact ⟨h.trimmable, h.text, h.iterations, h.converged, h.conflicts, h.corrected, h.reported,
      fun hs => (nomatch hs), fun _ => .inl rfl⟩
  | settle hc hs a ha hp =>
    rcases hp with hac | hp
    · cases hac
    · exact h.settle (hissues ha) hp
  | exhaust hc hs a ha hac hp hb =>
    -- two revisions are within the budget, and behind two there is nothing to be found
    have htwo : m.iterations = 2 := by
      have hle := h.iterations
      change budget ≤ _ at hb
      omega
    rw [hissues ha, h.runs_of_two htwo] at hp
    cases hp
  | proceed hc hs a ha hac hp hb => exact h.proceed (hissues ha) hp
  | rest hc hs hn =>
    -- an edit is proposed for each of the runs
    obtain ⟨hfound, hne⟩ := h.found hs
    have hproposals := map_edit_trimmer parser cwd budget h.trimmable.coherent hfound w
    change (Correction.gatherFrom _ (m.source.view parser w).1 0 _
      (m.source.view parser w).2.2).proposals = [] at hn
    rw [hn] at hproposals
    exact absurd (List.map_eq_nil_iff.mp hproposals.symm) hne
  | revise hc hs hch hr => exact h.revise hs hr
  | reparse hc hs p hp =>
    have htext : (m.source.reparse parser w).2.1.text = m.source.text :=
      Source.reparse_text parser m.source w
    exact ⟨h.trimmable.reparse w, htext.trans h.text, h.iterations, h.converged, h.conflicts,
      h.corrected, h.reported, fun hs => (nomatch hs), fun hs => (nomatch hs)⟩

/-! ### Reports -/

/-- **The report on a text that was rid of trailing blanks.** All that it lists are corrected
issues, so there is no conflict, and the rule finds nothing in the text that is left. -/
structure Trimmed (σ : Type) (config : RuleConfig) (s : Source) (r : SourceReport) : Prop where
  converged : r.converged = true
  iterations : r.iterations ≤ 2
  corrected : ∀ i ∈ r.issues, i.status = .corrected
  text : r.source.text = mapLines tidy s.text
  clean : ∀ path parsed (memory : σ), ((⟨Rules.trailingWhitespace, config⟩ : Rule σ).detect
    (.ofText path r.source.text parsed) memory).answer = .ok (some [])

theorem Trimming.trimmed {m : Machine} (h : Trimming config parser cwd s m) (hd : m.stage = .done)
    (hab : m.aborted = false) : Trimmed σ config s (reportOf m) := by
  -- At the end of a run that was not cancelled the last pass found no blanks.
  obtain ⟨hnil, hnone⟩ : m.issues = [] ∧ runs (Utf8.ofString m.source.text) = [] := by
    rcases h.ended hd with haborted | hended
    · rw [hab] at haborted
      cases haborted
    · exact hended
  refine ⟨h.converged, h.iterations, fun i hi => ?_, h.text_eq hnone, fun path parsed memory => ?_⟩
  · rcases mem_finalIssues hi with hi | hi | ⟨-, hi⟩
    · exact h.corrected i hi
    · rw [h.conflicts] at hi
      cases hi
    · rw [hnil] at hi
      cases hi
  · change Except.ok (some ((runs (Utf8.ofString m.source.text)).map _)) = _
    rw [hnone]
    rfl

theorem Trimming.no_conflict {m : Machine} (h : Trimming config parser cwd s m) :
    ∀ i ∈ (reportOf m).issues, i.status ≠ .conflict := by
  intro i hi hconflict
  -- corrected, in conflict, or found in the last pass
  rcases mem_finalIssues hi with hi | hi | ⟨hcur, hi⟩
  · rw [h.corrected i hi] at hconflict
    cases hconflict
  · rw [h.conflicts] at hi
    cases hi
  · rw [h.reported hcur i hi] at hconflict
    cases hconflict

theorem trimmer_quiet (h : ∀ text memory, (parser text memory).cancels = false) :
    (trimmer config parser cwd budget).quiet = trimmer config parser cwd budget := by
  have hparser : parser.quiet = parser := by
    funext text memory
    have hcancels := h text memory
    unfold Parser.quiet Reply.quiet
    cases hreply : parser text memory with
    | mk answer memory' cancels =>
      rw [hreply] at hcancels
      cases hcancels
      rfl
  -- the rules of the library never cancel, so the parser is all that could change
  unfold Engine.quiet trimmer
  simp only [hparser]
  rfl

theorem shipped_trimmer : (trimmer config parser cwd budget).Shipped := by
  intro r hr
  rcases mem_correctors.mp hr with hr | rfl
  · rw [List.mem_singleton.mp hr]
    simp [Rules.shipped]
  · exact List.mem_cons_self

/-- **A loop takes trailing blanks away**, unless it is aborted. -/
theorem Loops.trims (henabled : config.enabled = true) (haccepts : ∀ text, parser.Accepts text)
    (hbudget : 2 ≤ budget) (hs : Trimmable config parser cwd s) {w : World σ}
    {states : List (Machine × World σ)} {t : Turn σ}
    (h : (trimmer config parser cwd budget).Loops true (start true s) w states t) :
    t.fault = none ∧ t.machine.stage = .done ∧ Trimming config parser cwd s t.machine := by
  have hans : parser.Answers := fun text memory => by
    obtain ⟨tree, htree, -⟩ := haccepts text memory
    exact ⟨tree, htree⟩
  have hshipped : (trimmer config parser cwd budget).Shipped := shipped_trimmer
  obtain ⟨hnone, -⟩ := hshipped.ends hans rfl hs.coherent hs.parsed h
  -- a turn that is not given up is one of the moves
  have hstep : ∀ (past : List (Machine × World σ)) (m : Machine) (w : World σ),
      Trimming config parser cwd s m → m.stage ≠ .done →
      ((trimmer config parser cwd budget).step true m w).fault = none →
      Trimming config parser cwd s ((trimmer config parser cwd budget).step true m w).machine :=
    fun past m w hm hd hf => hm.step henabled haccepts hbudget (moves_step hd hf)
  exact ⟨hnone, h.stage_eq_done hnone, h.invariant hstep (Trimming.initial hs) hnone⟩

/-- **Trailing blanks are taken away completely, in at most two revisions.** An engine that has
nothing but the rule on blanks, enabled, with a parser that accepts all texts and a budget of two
revisions or more, is run with correction over sources whose paths the rule does not exclude and
whose texts do not hold the word of a suppression comment. Whatever disturbs the run, no loop is
given up, makes more than two revisions, fails to converge, or lists a conflict; and a loop that is
not aborted leaves the text with its lines tidy, in which the rule finds nothing. If no call of the
parser cancels the run, then nothing is aborted. -/
theorem run_trims (config : RuleConfig) (henabled : config.enabled = true) (parser : Parser σ)
    (haccepts : ∀ text, parser.Accepts text) (cwd : String) {budget : Int} (hbudget : 2 ≤ budget) :
    ∃ e, ofRules [⟨Rules.trailingWhitespace, config⟩] parser cwd budget = .ok e ∧
      (∀ s, Trimmable config parser cwd s →
        ∀ (w : World σ) (states : List (Machine × World σ)) (t : Turn σ),
          e.Loops true (start true s) w states t →
            (e.reportAfter t).converged = true ∧ (e.reportAfter t).iterations ≤ 2 ∧
              (∀ i ∈ (e.reportAfter t).issues, i.status ≠ .conflict) ∧
              ((e.reportAfter t).aborted = false → Trimmed σ config s (e.reportAfter t))) ∧
      ((∀ text memory, (parser text memory).cancels = false) →
        ∀ ss : List Source, (∀ s ∈ ss, Trimmable config parser cwd s) →
          ∀ (w : World σ) (k : Nat) (s : Source), ss[k]? = some s →
            ∃ r, (e.run true ss w).1.sources[k]? = some r ∧ r.aborted = false ∧
              Trimmed σ config s r) := by
  have hloop : ∀ s, Trimmable config parser cwd s → ∀ w states t,
      (trimmer config parser cwd budget).Loops true (start true s) w states t → _ :=
    fun s hs w states t h => h.trims henabled haccepts hbudget hs
  refine ⟨trimmer config parser cwd budget, ofRules_trimmer config parser cwd budget,
    fun s hs w states t h => ?_, fun hquiet ss hss w k s hk => ?_⟩
  · obtain ⟨hnone, hdone, htrimming⟩ := hloop s hs w states t h
    rw [reportAfter_of_ok hnone]
    exact ⟨htrimming.converged, htrimming.iterations, htrimming.no_conflict,
      fun hab => htrimming.trimmed hdone hab⟩
  · -- what the run is taken up with at the source is not cancelled, nor does the loop cancel it
    have htaken := takenUp_quiet (trimmer config parser cwd budget) true ss w.resume rfl k
    have hfinish := finish_quiet (trimmer config parser cwd budget) true (start true s)
      ((trimmer config parser cwd budget).takenUp true ss w.resume k)
    rw [trimmer_quiet hquiet] at htaken hfinish
    obtain ⟨hnone, hdone, htrimming⟩ := hloop s (hss s (List.mem_of_getElem? hk)) _ _ _
      (loops_finish (trimmer config parser cwd budget) true (start true s)
        ((trimmer config parser cwd budget).takenUp true ss w.resume k))
    have hab := (hfinish htaken rfl).2 hnone
    refine ⟨_, ?_, hab, htrimming.trimmed hdone hab⟩
    rw [getElem?_run_sources, hk, Option.map_some, process_fst, reportAfter_of_ok hnone]

/-! ### A specimen -/

/-- Blanks on both sides of a carriage return, in front of one alone, at the end of the text, and in
a line of nothing else. -/
def blankLines : String := "a \r \nb\t\r\n \t\n c \rd\r "

/-- The first line takes two revisions, like the last one; in the end nothing is left to be
found. -/
theorem blankLines_trimmed :
    ∃ e : Engine Tally, ofRules [Rule.ofKind Rules.trailingWhitespace] Scripted.flatParser "/work" 2
        = .ok e ∧
      mapLines tidy blankLines = "a\r\nb\r\n\n c \rd\r" ∧
      ∃ r, (e.run true [Source.ofText blankLines] ⟨{}, false, []⟩).1.sources = [r] ∧
        r.aborted = false ∧ r.source.text = "a\r\nb\r\n\n c \rd\r" ∧
        ∀ i ∈ r.issues, i.status = .corrected := by
  have htext : mapLines tidy blankLines = "a\r\nb\r\n\n c \rd\r" := by decide +kernel
  obtain ⟨e, hof, -, hrun⟩ := run_trims (σ := Tally) Rules.trailingWhitespace.defaultConfig rfl
    Scripted.flatParser flatParser_accepts "/work" (Int.le_refl 2)
  obtain ⟨r, hr, hab, htrimmed⟩ := hrun (fun _ _ => rfl) [Source.ofText blankLines]
    (fun s hs => by
      obtain rfl := List.mem_singleton.mp hs
      exact ⟨Source.coherent_ofText _ _, Source.parsedBy_ofText _ _ _, rfl, by decide +kernel⟩)
    ⟨{}, false, []⟩ 0 _ rfl
  refine ⟨e, hof, htext, r, ?_, hab, htrimmed.text.trans htext, htrimmed.corrected⟩
  rw [run_singleton] at hr ⊢
  cases hr
  rfl

end Engine

end Lintel
