import Lintel.Proofs.Engine.Comparison
import Lintel.Proofs.Engine.Marking
import Lintel.Proofs.Text.Location
import Mathlib.Data.List.Nodup

/-!
# The order of the issues in a report

The issues of a report have been sorted twice. A pass puts its findings in the order of their
starts, which are offsets of octets, and leaves those with one start as they were found: in the
order of the rules, and of discovery by one rule. In the end the issues are put in the order of
their locations. Locations are in the order of offsets (`locate_le`), so if nothing but the
findings of a single pass are to be listed, the second sort has nothing left to do.

That a sort leaves elements with equal keys as they come is `pairwise_mergeSort_stable`. The order
in which findings come is that of their numbers, `Finding`; it is the same as the order of a list
of findings that a pass goes through (`pairwise_discoveries`).

A run without correction takes a single turn (`Loops.eq_step`).
-/

namespace Lintel

/-- **Elements that are sorted by a key and have equal keys stay in the order in which they come.**
The sort is that of the elements with their positions, where no two are equal. -/
theorem pairwise_mergeSort_stable {α : Type} (le : α → α → Bool) {R : α → α → Prop}
    (htrans : ∀ a b c, le a b = true → le b c = true → le a c = true)
    (htotal : ∀ a b, (le a b || le b a) = true) {xs : List α} (h : xs.Pairwise R) :
    (xs.mergeSort le).Pairwise fun a b => le a b = true ∧ (le b a = true → R a b) := by
  rw [← List.mergeSort_zipIdx, List.pairwise_map]
  have hsorted := List.pairwise_mergeSort (List.zipIdxLE_trans htrans) (List.zipIdxLE_total htotal)
    xs.zipIdx
  have hperm := List.mergeSort_perm xs.zipIdx (List.zipIdxLE le)
  -- The positions tell all elements apart, so that the order by key and position is strict.
  have hdistinct : (xs.zipIdx.mergeSort (List.zipIdxLE le)).Pairwise fun a b => a.2 ≠ b.2 := by
    have hnodup : (xs.zipIdx.map Prod.snd).Nodup := by
      rw [List.zipIdx_map_snd]
      exact List.nodup_range'
    exact List.pairwise_map.mp ((hperm.map Prod.snd).nodup_iff.mpr hnodup)
  refine (hsorted.and hdistinct).imp_of_mem fun {a b} ha hb hab => ?_
  have hxa := List.mem_zipIdx_iff_getElem?.mp (hperm.mem_iff.mp ha)
  have hxb := List.mem_zipIdx_iff_getElem?.mp (hperm.mem_iff.mp hb)
  obtain ⟨hle, hne⟩ := hab
  unfold List.zipIdxLE at hle
  split at hle
  · next hlab =>
    refine ⟨hlab, fun hlba => ?_⟩
    rw [if_pos hlba, decide_eq_true_eq] at hle
    obtain ⟨hia, hea⟩ := List.getElem?_eq_some_iff.mp hxa
    obtain ⟨hib, heb⟩ := List.getElem?_eq_some_iff.mp hxb
    rw [← hea, ← heb]
    exact List.pairwise_iff_getElem.mp h _ _ hia hib (Nat.lt_of_le_of_ne hle hne)
  · cases hle

variable {σ : Type}

def Parser.Accepts (parser : Parser σ) (text : String) : Prop :=
  ∀ memory, ∃ tree, (parser text memory).answer = .ok tree ∧ (Parsed.ofTree tree).isValid = true

theorem Parser.Accepts.parse {parser : Parser σ} {s : Source} (h : parser.Accepts s.text)
    (hp : s.ParsedBy parser) (w : World σ) :
    ∃ p, (s.parse parser w).1 = .ok p ∧ p.isValid = true := by
  rw [Source.parse_eq]
  split
  · -- known already: it was the parser that said so, in another state
    next p hmemo =>
    obtain ⟨memory, tree, htree, rfl⟩ := hp p hmemo
    obtain ⟨tree', htree', hvalid⟩ := h memory
    rw [htree] at htree'
    cases htree'
    exact ⟨_, rfl, hvalid⟩
  · obtain ⟨tree, htree, hvalid⟩ := h w.memory
    exact ⟨Parsed.ofTree tree, by rw [Source.reparse_fst, htree]; rfl, hvalid⟩

/-- An issue that a rule found in a pass, with the number of the rule and the number that the issue
has among those the rule found. -/
structure Finding where
  rule : Nat
  discovery : Nat
  issue : Issue

namespace Finding

/-- The order in which a pass comes upon its findings. -/
def Earlier (a b : Finding) : Prop :=
  a.rule < b.rule ∨ a.rule = b.rule ∧ a.discovery < b.discovery

/-- The order of findings by start, number of the rule and number of discovery. -/
def Precedes (a b : Finding) : Prop :=
  a.issue.start < b.issue.start ∨ a.issue.start = b.issue.start ∧ Earlier a b

theorem Precedes.start_le {a b : Finding} (h : Precedes a b) : a.issue.start ≤ b.issue.start := by
  rcases h with hlt | ⟨heq, -⟩
  · exact Int.le_of_lt hlt
  · exact Int.le_of_eq heq

end Finding

namespace Engine

variable {e : Engine σ}

/-! ### The findings of a pass -/

def numbered (e : Engine σ) (path : Option String) : List (Rule σ × Nat) :=
  e.rules.zipIdx.filter fun r => r.1.enabled && !r.1.excludes e.cwd path

/-- The findings of a pass over a text that parses, in the order in which it comes upon them. -/
def discoveries (e : Engine σ) (v : View) (w : World σ) : List Finding :=
  ((e.numbered v.path).zip (detectAll v (e.applicable v.path) w).1).flatMap fun x =>
    x.2.found.zipIdx.map fun i => ⟨x.1.2, i.2, i.1⟩

/-- The findings of the pass that is made from a state. -/
def discoveriesFrom (e : Engine σ) (t : Machine × World σ) : List Finding :=
  e.discoveries (t.1.source.view e.parser t.2).1 (t.1.source.view e.parser t.2).2.2

theorem numbered_map_fst (e : Engine σ) (path : Option String) :
    (e.numbered path).map Prod.fst = e.applicable path := by
  have hall : e.rules.zipIdx.map Prod.fst = e.rules := List.zipIdx_map_fst 0 e.rules
  have hfilter := List.filter_map (f := Prod.fst) (l := e.rules.zipIdx)
    (p := fun r : Rule σ => r.enabled && !r.excludes e.cwd path)
  rw [hall] at hfilter
  exact hfilter.symm

theorem length_detectAll (v : View) (rs : List (Rule σ)) (w : World σ) :
    (detectAll v rs w).1.length = rs.length := by
  induction rs generalizing w with
  | nil => rfl
  | cons r rs ih => rw [detectAll_cons, List.length_cons, List.length_cons, ih]

theorem length_numbered (e : Engine σ) (v : View) (w : World σ) :
    (e.numbered v.path).length = (detectAll v (e.applicable v.path) w).1.length := by
  rw [length_detectAll, ← numbered_map_fst, List.length_map]

/-- The numbers aside, a pass comes upon what its rules hand over. -/
theorem discoveries_map_issue (e : Engine σ) (v : View) (w : World σ) :
    (e.discoveries v w).map (·.issue)
      = (detectAll v (e.applicable v.path) w).1.flatMap (·.found) := by
  -- The numbers that a finding carries are dropped again, which leaves the issues as found.
  have hplain : ∀ x : (Rule σ × Nat) × Detected,
      (x.2.found.zipIdx.map fun i => Finding.mk x.1.2 i.2 i.1).map (·.issue) = x.2.found := by
    intro x
    rw [List.map_map]
    exact List.zipIdx_map_fst 0 x.2.found
  have hsnd := List.map_snd_zip (Nat.le_of_eq (e.length_numbered v w).symm)
  rw [discoveries, List.map_flatMap, funext hplain, ← List.flatMap_map Prod.snd, hsnd]

/-- **A pass comes upon its findings in the order of their numbers.** -/
theorem pairwise_discoveries (e : Engine σ) (v : View) (w : World σ) :
    (e.discoveries v w).Pairwise Finding.Earlier := by
  have hrules : ((e.numbered v.path).map Prod.snd).Pairwise (· < ·) := by
    have hall : (e.rules.zipIdx.map Prod.snd).Pairwise (· < ·) := by
      rw [List.zipIdx_map_snd]
      exact List.pairwise_lt_range'
    exact List.pairwise_map.mpr ((List.pairwise_map.mp hall).filter _)
  have hzip : ((e.numbered v.path).zip (detectAll v (e.applicable v.path) w).1).Pairwise
      fun x y => x.1.2 < y.1.2 := by
    have hfst := List.map_fst_zip (Nat.le_of_eq (e.length_numbered v w))
    rw [← hfst, List.map_map] at hrules
    exact List.pairwise_map.mp hrules
  rw [discoveries, List.pairwise_flatMap]
  constructor
  · -- by one rule, in the order of discovery
    intro x _
    have hfound : (x.2.found.zipIdx.map Prod.snd).Pairwise (· < ·) := by
      rw [List.zipIdx_map_snd]
      exact List.pairwise_lt_range'
    exact List.pairwise_map.mpr ((List.pairwise_map.mp hfound).imp fun h => .inr ⟨rfl, h⟩)
  · -- by one rule before another
    refine hzip.imp fun hlt a ha b hb => ?_
    obtain ⟨i, -, rfl⟩ := List.mem_map.mp ha
    obtain ⟨j, -, rfl⟩ := List.mem_map.mp hb
    exact .inl hlt

theorem location_of_mem_discoveries (he : ∀ r ∈ e.rules, r.FindsRanges) {v : View} {w : World σ}
    {f : Finding} (h : f ∈ e.discoveries v w) : f.issue.location = v.locate f.issue.start := by
  have hmem := List.mem_map_of_mem (f := Finding.issue) h
  rw [discoveries_map_issue] at hmem
  obtain ⟨r, hr, memory, hi⟩ := exists_of_mem_detectAll hmem
  -- A rule that finds ranges takes the location from the start of the range.
  obtain ⟨start, stop, message, correctable, remedy, heq⟩ :=
    he r (List.mem_of_mem_filter hr) v memory _ (detect_of_mem_findings hi) f.issue hi
  rw [heq]
  rfl

/-! ### Sorting twice -/

/-- **The sort by start** puts findings that come in the order of their numbers in the order of
start and number. -/
theorem exists_byStart {ds : List Finding} (h : ds.Pairwise Finding.Earlier) :
    ∃ fs : List Finding, fs.Perm ds ∧ fs.Pairwise Finding.Precedes ∧
      byStart (ds.map (·.issue)) = fs.map (·.issue) := by
  -- the sort is stable, so findings that start together keep the order of their numbers
  have hsorted := pairwise_mergeSort_stable
    (fun a b : Finding => decide (a.issue.start ≤ b.issue.start))
    (fun a b c hab hbc => by simp only [decide_eq_true_eq] at hab hbc ⊢; omega)
    (fun a b => by simp only [Bool.or_eq_true, decide_eq_true_eq]; omega) h
  simp only [decide_eq_true_eq] at hsorted
  refine ⟨_, List.mergeSort_perm ds _, hsorted.imp fun {a b} hab => ?_,
    (List.map_mergeSort (f := Finding.issue) fun a _ b _ => rfl).symm⟩
  obtain ⟨hle, hearlier⟩ := hab
  rcases Int.lt_or_eq_of_le hle with hlt | heq
  · exact .inl hlt
  · exact .inr ⟨heq, hearlier (Int.le_of_eq heq.symm)⟩

/-- **The sort by location** moves no issue if the issues are sorted by start and located where they
start. That some are marked as disabled makes no difference. -/
theorem byLocation_silence {text : String} {issues : List Issue}
    (hsorted : issues.Pairwise fun a b => a.start ≤ b.start)
    (hlocation : ∀ i ∈ issues, i.location = locate (Utf8.ofString text) i.start) :
    byLocation (silence text issues) = silence text issues := by
  -- disabling leaves the location alone
  have hkeeps : ∀ i : Issue, (if (Suppressions.inForce text).silences i then
      i.withStatus .disabled else i).location = i.location := by
    intro i
    split
    · rfl
    · rfl
  unfold byLocation
  refine List.mergeSort_of_pairwise ?_
  rw [silence, List.pairwise_map]
  refine hsorted.imp_of_mem fun {a b} ha hb hle => ?_
  rw [hkeeps, hkeeps, hlocation a ha, hlocation b hb]
  exact locate_le text hle

/-- **The issues of a pass come in the order of start, rule and discovery**, and the sort by
location leaves them there. -/
theorem analyzeValid_in_order (he : ∀ r ∈ e.rules, r.FindsRanges) (path : Option String)
    (text : String) (parsed : Except Fault Parsed) (w : World σ) :
    ∃ fs : List Finding, fs.Perm (e.discoveries (View.ofText path text parsed) w) ∧
      fs.Pairwise Finding.Precedes ∧
      (e.analyzeValid (View.ofText path text parsed) w).1.issues
        = silence text (fs.map (·.issue)) ∧
      byLocation (silence text (fs.map (·.issue))) = silence text (fs.map (·.issue)) := by
  have hfound := e.discoveries_map_issue (View.ofText path text parsed) w
  -- by definition: ask the rules, sort by start, then silence
  have hissues : (e.analyzeValid (View.ofText path text parsed) w).1.issues
      = silence text (byStart ((detectAll (View.ofText path text parsed) (e.applicable path) w).1.flatMap
          (·.found))) := rfl
  rw [View.ofText_path] at hfound
  obtain ⟨fs, hperm, hsorted, hstart⟩ :=
    exists_byStart (e.pairwise_discoveries (View.ofText path text parsed) w)
  refine ⟨fs, hperm, hsorted, by rw [hissues, ← hfound, hstart], byLocation_silence ?_ ?_⟩
  · exact List.pairwise_map.mpr (hsorted.imp fun h => h.start_le)
  · intro i hi
    obtain ⟨f, hf, rfl⟩ := List.mem_map.mp hi
    have hlocated := location_of_mem_discoveries he (hperm.mem_iff.mp hf)
    exact hlocated

/-! ### Runs without correction -/

/-- **A run without correction takes a single turn**, which ends it in one way or another. -/
theorem Loops.eq_step {s : Source} {w : World σ} {states : List (Machine × World σ)} {t : Turn σ}
    (h : e.Loops false (start false s) w states t) :
    ∃ w', w.Drifts w' ∧ states = [(start false s, w')] ∧ t = e.step false (start false s) w' := by
  cases h with
  | ended hd => cases hd
  | failed hd hw hf => exact ⟨_, hw, rfl, rfl⟩
  | @turned _ _ w' states _ hd hw hf h =>
    -- Without correction a turn has two ways to go on, the end of an analysis and cancellation, and
    -- both end the run.
    have hdone : (e.step false (start false s) w').machine.stage = .done := by
      have hmoves := moves_step hd hf
      generalize (e.step false (start false s) w').machine = m at hmoves ⊢
      generalize (e.step false (start false s) w').world = w'' at hmoves
      cases hmoves with
      | abort hc => rfl
      | settle hc hs a ha hp => rfl
      | exhaust hc hs a ha hac hp hb => cases hac
      | proceed hc hs a ha hac hp hb => cases hac
      | rest hc hs hn => cases hs
      | revise hc hs hch hr => cases hs
      | reparse hc hs p hp => cases hs
    cases h with
    | ended _ =>
      refine ⟨w', hw, rfl, ?_⟩
      rw [← hf]
    | failed hnot _ _ => exact absurd hdone hnot
    | turned hnot _ _ _ => exact absurd hdone hnot

/-- **A pass over a text that the parser accepts**, and what the sort by location makes of it. -/
theorem analyze_in_order (he : ∀ r ∈ e.rules, r.FindsRanges) {s : Source} (hs : s.Coherent)
    (hp : s.ParsedBy e.parser) (h : e.parser.Accepts s.text) (w : World σ) :
    ∃ a, (e.analyze s w).1 = .ok a ∧ byLocation a.issues = a.issues ∧
      ∃ fs : List Finding,
        fs.Perm (e.discoveries (s.view e.parser w).1 (s.view e.parser w).2.2) ∧
        fs.Pairwise Finding.Precedes ∧ a.issues = silence s.text (fs.map (·.issue)) := by
  obtain ⟨p, hparsed, hvalid⟩ := h.parse hp w
  -- coherent, so what the rules are shown is the view of the text
  have hview := Source.view_fst hs e.parser w
  have ha := analyze_of_valid (p := p) (by rw [hview]; exact hparsed) hvalid
  obtain ⟨fs, hperm, hsorted, hissues, hstays⟩ :=
    analyzeValid_in_order he s.path s.text (s.parse e.parser w).1 (s.view e.parser w).2.2
  rw [← hview] at hperm hissues
  refine ⟨(e.analyzeValid (s.view e.parser w).1 (s.view e.parser w).2.2).1, by rw [ha], ?_, fs,
    hperm, hsorted, hissues⟩
  rw [hissues]
  exact hstays

/-- The only turn of a run without correction, over a text that can be analyzed. -/
theorem step_observing {s : Source} {w : World σ} {a : Analysis}
    (ha : (e.analyze (start false s).source w).1 = .ok a) :
    (w.cancelled = true ∧ e.step false (start false s) w
        = ⟨{ start false s with aborted := true, stage := .done }, none, w⟩) ∨
      (w.cancelled = false ∧ e.step false (start false s) w
        = ⟨{ looked (start false s) (e.analyze (start false s).source w).2.1 a with
              stage := .done }, none, (e.analyze (start false s).source w).2.2⟩) := by
  have hd : (start false s).stage ≠ .done := by
    intro h
    cases h
  -- it has an outcome, and a run without correction ends with it
  have hpass : e.analyze (start false s).source w
      = (.ok a, (e.analyze (start false s).source w).2) := Prod.ext ha rfl
  unfold step
  rw [if_neg hd]
  cases hc : w.cancelled with
  | true => exact .inl ⟨rfl, rfl⟩
  | false =>
    refine .inr ⟨rfl, ?_⟩
    change e.analyzeStep false (start false s) w = _
    unfold analyzeStep
    rw [hpass]
    rfl

/-- **The issues of a report are in order.** Locations are in the order of offsets, strictly so at
boundaries, and an issue over a range that is not empty does not end before it begins. A run without
correction, over rules that build their findings from ranges and over a text that the parser
accepts, never gives up the source, whatever disturbs it. Either it is aborted before its pass, and
lists nothing; or it makes a single pass and lists what this pass found, in the order of start, rule
and discovery, as the suppression comments have left it. -/
theorem report_in_order (e : Engine σ) (he : ∀ r ∈ e.rules, r.FindsRanges) {s : Source}
    (hs : s.Coherent) (hp : s.ParsedBy e.parser) (haccepts : e.parser.Accepts s.text)
    (w : World σ) :
    (∀ (text : String) (a b : Int), a ≤ b →
      (locate (Utf8.ofString text) a).le (locate (Utf8.ofString text) b) = true) ∧
    (∀ (text : String) (j k : Nat), Boundary (Utf8.ofString text) j →
      Boundary (Utf8.ofString text) k → j < k →
        (locate (Utf8.ofString text) j).Before (locate (Utf8.ofString text) k)) ∧
    (∀ (p : RuleProfile) (c : RuleConfig) (path : Option String) (text : String)
      (parsed : Except Fault Parsed) (start stop : Int) (message : String)
      (correctable : Option Bool) (remedy : Option Remedy), start < stop →
        ∃ last, (Rule.issueAt p c (View.ofText path text parsed) start stop message correctable
            remedy).endLocation = some last ∧
          (Rule.issueAt p c (View.ofText path text parsed) start stop message correctable
            remedy).location.le last = true) ∧
    e.Loops false (start false s) w (e.turns false (start false s) w)
      (e.finish false (start false s) w) ∧
    (e.process false s w).1 = e.reportAfter (e.finish false (start false s) w) ∧
    ∀ states t, e.Loops false (start false s) w states t →
      t.fault = none ∧
      (((e.reportAfter t).aborted = true ∧ e.passesOf states = [] ∧
          (e.reportAfter t).issues = []) ∨
        ((e.reportAfter t).aborted = false ∧
          e.passesOf states = [⟨0, s.text, (e.reportAfter t).issues⟩] ∧
          ∃ turn, states = [turn] ∧ ∃ fs : List Finding, fs.Perm (e.discoveriesFrom turn) ∧
            fs.Pairwise Finding.Precedes ∧
            (e.reportAfter t).issues = silence s.text (fs.map (·.issue)))) := by
  refine ⟨fun text a b h => locate_le text h, fun text j k hj hk h => locate_before text hj hk h,
    fun p c path text parsed start stop message correctable remedy h => ?_,
    loops_finish e false _ w, process_fst e false s w, fun states t h => ?_⟩
  · refine ⟨locate (Utf8.ofString text) (stop - 1), if_pos h, ?_⟩
    exact locate_le text (by omega)
  · obtain ⟨w', -, rfl, rfl⟩ := h.eq_step
    have hcoherent : (start false s).source.Coherent := ⟨hs.bytes, hs.starts⟩
    obtain ⟨a, ha, hstays, fs, hperm, hsorted, hissues⟩ :=
      analyze_in_order he hcoherent hp haccepts w'
    rcases step_observing ha with ⟨hc, hstep⟩ | ⟨hc, hstep⟩
    · rw [hstep]
      refine ⟨rfl, .inl ⟨rfl, ?_, ?_⟩⟩
      · rw [passesOf, List.filterMap_cons_none (passFrom_of_cancelled hc), List.filterMap_nil]
      · exact List.mergeSort_nil
    · rw [hstep]
      -- nothing but the issues of the pass is listed
      have hlisted : (e.reportAfter ⟨{ looked (start false s)
          (e.analyze (start false s).source w').2.1 a with stage := .done }, none,
          (e.analyze (start false s).source w').2.2⟩).issues = a.issues := hstays
      refine ⟨rfl, .inr ⟨rfl, ?_, (start false s, w'), rfl, fs, hperm, hsorted, ?_⟩⟩
      · rw [passesOf, List.filterMap_cons_some (passFrom_of_analyze hc rfl ha), List.filterMap_nil,
          hlisted]
        rfl
      · rw [hlisted]
        exact hissues

/-! ### A specimen -/

theorem flatParser_accepts (text : String) : (Scripted.flatParser : Parser σ).Accepts text :=
  fun _ => ⟨_, rfl, rfl⟩

/-- The letters a and b are found by different rules, the a in between first, and are listed as they
stand in the text. -/
theorem specimen_in_order :
    (∀ r ∈ specimen.rules, r.FindsRanges) ∧ specimen.parser.Accepts "bé a\nb" ∧
      (specimen.discoveriesFrom (start false (Source.ofText "bé a\nb"), ⟨{}, false, []⟩)).map
          (fun f => (f.rule, f.discovery, f.issue.start))
        = [(0, 0, 4), (1, 0, 0), (1, 1, 6)] ∧
      ∃ fs : List Finding,
        fs.Perm (specimen.discoveriesFrom
          (start false (Source.ofText "bé a\nb"), ⟨{}, false, []⟩)) ∧
        fs.Pairwise Finding.Precedes ∧
        (specimen.process false (Source.ofText "bé a\nb") ⟨{}, false, []⟩).1.issues
          = silence "bé a\nb" (fs.map (·.issue)) := by
  have hrules : ∀ r ∈ specimen.rules, r.FindsRanges := by
    intro r hr
    simp only [specimen, List.mem_cons, List.not_mem_nil, or_false] at hr
    rcases hr with rfl | rfl
    · exact wordRule_findsRanges _ _ _ _
    · exact wordRule_findsRanges _ _ _ _
  have haccepts : specimen.parser.Accepts "bé a\nb" := flatParser_accepts _
  obtain ⟨-, -, -, hloops, hprocess, hall⟩ := report_in_order specimen hrules
    (Source.coherent_ofText "bé a\nb" none) (Source.parsedBy_ofText specimen.parser "bé a\nb" none)
    haccepts ⟨{}, false, []⟩
  have hpassed : (specimen.process false (Source.ofText "bé a\nb") ⟨{}, false, []⟩).1.aborted
      = false := by decide +kernel
  -- the first turn is taken from where the run begins
  have hfirst : ∃ rest, specimen.turns false (start false (Source.ofText "bé a\nb")) ⟨{}, false, []⟩
      = (start false (Source.ofText "bé a\nb"), ⟨{}, false, []⟩) :: rest := by
    rw [turns, dif_neg (by decide)]
    split
    · exact ⟨[], rfl⟩
    · exact ⟨_, rfl⟩
  obtain ⟨-, hcases⟩ := hall _ _ hloops
  rw [← hprocess] at hcases
  refine ⟨hrules, haccepts, by decide +kernel, ?_⟩
  -- the run was not cancelled, so it has a pass
  rcases hcases with ⟨haborted, -, -⟩ | ⟨-, -, turn, hturn, fs, hperm, hsorted, hissues⟩
  · rw [hpassed] at haborted
    cases haborted
  · obtain ⟨rest, hrest⟩ := hfirst
    rw [hrest] at hturn
    cases hturn
    exact ⟨fs, hperm, hsorted, hissues⟩

end Engine

end Lintel
