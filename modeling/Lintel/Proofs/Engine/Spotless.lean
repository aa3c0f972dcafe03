import Lintel.Proofs.Engine.Library

/-!
# Runs of the library's rules leave no diagnostics

A diagnostic says that a rule failed or that a source was given up. With the rules that come with
the library there is none (`report_spotless`), whatever they are set to, whatever the text and the
path, and whatever trees the parser gives, as long as it answers for every text and no node ends
before it starts. Nodes may be empty and need not respect characters.

A diagnostic could come from three places. A rule that is asked for findings gives a list
(`Rules.detect_answers`). A rule that is asked for a correction declines or proposes an edit over
the range of its issue, with both ends between characters (`Rules.correct_answers`), which passes
the check. And a source is given up only for edits that cut a character, if the parser answers
(`Shipped.fault_eq_none`). The last two are about what a turn is asked for, so they are put together
in `Proper`, which holds of every turn that corrects.
-/

namespace Lintel

variable {σ : Type}

/-- In the trees of the parser, no node ends before it starts. -/
def Parser.Ordered (parser : Parser σ) : Prop :=
  ∀ text memory tree, (parser text memory).answer = .ok (some tree) →
    ∀ n ∈ tree.root.walk, n.start ≤ n.stop

namespace Engine

variable {e : Engine σ} {ac : Bool}

theorem ordered_shown (ho : e.parser.Ordered) (path : Option String) (text : String) (memory : σ) :
    (e.shown path text memory).Ordered := by
  intro p hp n hn
  obtain ⟨tree, htree, hn⟩ := exists_tree_of_mem_nodes hp hn
  exact ho text memory tree htree n hn

/-! ### Turns -/

/-- **A pass puts nothing on record.** -/
theorem Shipped.analyze_diagnostics (he : e.Shipped) {s : Source} {w : World σ} {a : Analysis}
    (ha : (e.analyze s w).1 = .ok a) : a.diagnostics = [] := by
  unfold analyze at ha
  simp only at ha
  split at ha
  · cases ha
  · next p hp =>
    split at ha
    · cases ha
      refine detectAll_diagnostics_eq_nil (fun r hr memory => ?_) _
      have hmem := mem_correctors.mpr (.inl (List.mem_of_mem_filter hr))
      obtain ⟨found, hfound⟩ := Rules.detect_answers (he r hmem) hp memory
      exact ⟨some found, hfound⟩
    · -- the parse rule puts nothing on record
      unfold analyzeBroken at ha
      simp only at ha
      split at ha
      · cases ha
      · cases ha
      · cases ha
        rfl

/-- **A turn that corrects as it should.** The rules that it asks decline or propose edits that
cover their issues, and the edits that it applies leave a text. -/
structure Proper (e : Engine σ) (m : Machine) (w : World σ) : Prop where
  answers : ∀ i ∈ m.issues, ∀ rule, Correction.answerer e.correctors i = some rule → ∀ memory,
    ∃ proposed, (rule.correct (m.source.view e.parser w).1 i memory).answer = .ok proposed ∧
      ∀ edit, proposed = some edit → edit.Covers (Utf8.ofString m.source.text) i
  decodes : ∃ chars,
    Utf8.decode (applyEdits (Utf8.ofString m.source.text) (e.editsFrom m w)) = .ok chars

theorem Shipped.proper (he : e.Shipped) (ho : e.parser.Ordered) {m : Machine}
    (hm : Grounded e m) (hs : m.stage = .correcting) (w : World σ) : Proper e m w where
  answers := by
    intro i hi rule ha memory
    obtain ⟨memory', hfound⟩ := hm.found hs
    have hpend := (Correction.answerer_eq_some.mp ha).1
    -- what the rule is shown now has the octets in which the issue was found
    have hbytes : (m.source.view e.parser w).1.bytes
        = (e.shown m.source.path m.source.text memory').bytes := by
      rw [Source.view_fst hm.coherent]
      rfl
    exact Rules.correct_answers he hbytes (Utf8.isText_ofString _) (hfound i hi hpend)
      (ordered_shown ho _ _ _) ha memory
  decodes := Utf8.isText_iff.mp (he.isText_applyEdits hm hs w)

/-- **A proper turn puts nothing on record.** -/
theorem Proper.diagnostics {m : Machine} {w : World σ} (hm : m.source.Coherent)
    (h : Proper e m w) : (e.correction m w).diagnostics = [] := by
  have hbytes : (m.source.view e.parser w).1.bytes = Utf8.ofString m.source.text := by
    rw [Source.view_fst hm, View.ofText_bytes]
  rw [correction, Correction.apply_diagnostics]
  -- nothing goes on record unless a rule fails or its edit is out of bounds
  refine Correction.diagnostics_eq_nil (fun i hi rule ha memory => ?_) 0 _
  obtain ⟨proposed, hproposed, hcovers⟩ := h.answers i hi rule ha memory
  refine ⟨proposed, ?_⟩
  rw [hproposed, hbytes]
  cases proposed with
  | none => rfl
  | some edit => exact (hcovers edit rfl).verdict

/-- **A turn adds nothing to what is on record.** -/
theorem Shipped.diagnostics_of_moves (he : e.Shipped) (ho : e.parser.Ordered) {m m' : Machine}
    {w w' : World σ} (hg : Grounded e m) (hm : Moves e ac m w m' w') :
    m'.diagnostics = m.diagnostics := by
  -- Neither what a pass puts on record nor what a correction does is anything.
  have hanalysis : ∀ {a}, (e.analyze m.source w).1 = .ok a →
      m.diagnostics ++ a.diagnostics = m.diagnostics := by
    intro a ha
    rw [he.analyze_diagnostics ha, List.append_nil]
  have hcorrection : m.stage = .correcting →
      m.diagnostics ++ (e.correction m w).diagnostics = m.diagnostics := by
    intro hs
    rw [(he.proper ho hg hs w).diagnostics hg.coherent, List.append_nil]
  cases hm with
  | abort hc => rfl
  | settle hc hs a ha hp => exact hanalysis ha
  | exhaust hc hs a ha hac hp hb => exact hanalysis ha
  | proceed hc hs a ha hac hp hb => exact hanalysis ha
  | rest hc hs hn => exact hcorrection hs
  | revise hc hs hch hr => exact hcorrection hs
  | reparse hc hs p hp => rfl

/-! ### Runs -/

/-- What holds along a run: nothing is on record, and the turns behind that corrected were
proper. -/
structure Spotless (e : Engine σ) (past : List (Machine × World σ)) (m : Machine) : Prop where
  grounded : Grounded e m
  diagnostics : m.diagnostics = []
  proper : ∀ turn ∈ past, turn.1.stage = .correcting → Proper e turn.1 turn.2

theorem Spotless.step (he : e.Shipped) (ho : e.parser.Ordered) {past : List (Machine × World σ)}
    {m : Machine} {w : World σ} (h : Spotless e past m) (hd : m.stage ≠ .done)
    (hf : (e.step ac m w).fault = none) :
    Spotless e (past ++ [(m, w)]) (e.step ac m w).machine := by
  have hmoves := moves_step hd hf
  refine ⟨h.grounded.step hmoves, ?_, fun turn hturn hs => ?_⟩
  · rw [he.diagnostics_of_moves ho h.grounded hmoves, h.diagnostics]
  · -- The turns before this one are proper by induction, this one by its grounds.
    rcases List.mem_append.mp hturn with hturn | hturn
    · exact h.proper turn hturn hs
    · obtain rfl := List.mem_singleton.mp hturn
      exact he.proper ho h.grounded hs w

/-- **A loop of the library's rules leaves no diagnostics**, whatever disturbs it, and all its
corrections are proper. -/
theorem Shipped.spotless (he : e.Shipped) (hans : e.parser.Answers) (ho : e.parser.Ordered)
    {config : RuleConfig} (hparse : e.parseRule = ⟨Rules.unparsable, config⟩) {s : Source}
    (hs : s.Coherent) (hp : s.ParsedBy e.parser) {w : World σ} {states : List (Machine × World σ)}
    {t : Turn σ} (h : e.Loops ac (start ac s) w states t) :
    (e.reportAfter t).diagnostics = [] ∧
      ∀ turn ∈ states, turn.1.stage = .correcting → Proper e turn.1 turn.2 := by
  obtain ⟨hnone, -⟩ := he.ends hans hparse hs hp h
  have hinit : Spotless e [] (start ac s) :=
    ⟨Grounded.initial hs hp, rfl, fun turn hturn => absurd hturn List.not_mem_nil⟩
  have hend := h.invariant (fun past m w hm hd hf => hm.step he ho hd hf) hinit hnone
  rw [reportAfter_of_ok hnone]
  exact ⟨hend.diagnostics, hend.proper⟩

/-- **Runs of the library's rules leave no diagnostics.** For every choice and configuration of
them, every parser that answers for all texts and whose nodes do not end before they start, every
budget, with or without correction, for all texts and paths, and whatever disturbs the run: no
report has a diagnostic. Whenever a loop corrects, the rules that are asked decline or propose edits
over the ranges of their issues which begin and end between characters, and the edits that are
applied make a text. The loops that `Engine.run` takes sources through are among those spoken of
(`loops_finish`). -/
theorem report_spotless (rules : List (Rule σ)) (hne : rules ≠ [])
    (hrules : ∀ r ∈ rules, r.kind ∈ Rules.shipped) (parser : Parser σ) (hans : parser.Answers)
    (hordered : parser.Ordered) (cwd : String) (budget : Int) :
    ∃ e, Engine.ofRules rules parser cwd budget = .ok e ∧
      (∀ (ac : Bool) (s : Source), s.Coherent → s.ParsedBy parser →
        ∀ (w : World σ) (states : List (Machine × World σ)) (t : Turn σ),
          e.Loops ac (start ac s) w states t →
            (e.reportAfter t).diagnostics = [] ∧
              ∀ turn ∈ states, turn.1.stage = .correcting → Proper e turn.1 turn.2) ∧
      ∀ (ac : Bool) (ss : List Source), (∀ s ∈ ss, s.Coherent ∧ s.ParsedBy parser) →
        ∀ w : World σ, (e.run ac ss w).1.diagnostics = [] := by
  obtain ⟨e, hof, he, ⟨config, hparse⟩, rfl, rfl⟩ := shipped_of_ofRules hne hrules parser cwd budget
  have hloop : ∀ (ac : Bool) (s : Source), s.Coherent → s.ParsedBy e.parser →
      ∀ (w : World σ) (states : List (Machine × World σ)) (t : Turn σ),
        e.Loops ac (start ac s) w states t →
          (e.reportAfter t).diagnostics = [] ∧
            ∀ turn ∈ states, turn.1.stage = .correcting → Proper e turn.1 turn.2 :=
    fun ac s hs hp w states t h => he.spotless hans hordered hparse hs hp h
  refine ⟨e, hof, hloop, fun ac ss hss w => ?_⟩
  -- each report of the run is that of a loop
  refine List.flatMap_eq_nil_iff.mpr fun r hr => ?_
  obtain ⟨s, hs, w', states, t, h, rfl⟩ := (reports_run e ac ss w).exists_of_mem hr
  exact (hloop ac s (hss s hs).1 (hss s hs).2 w' states t h).1

/-! ### Nodes at the edges -/

/-- The tree of a text that is no program. Its conditions are empty: one lies inside of a character,
one between two parentheses, and one at the end of the text. -/
def edgeTree : Node :=
  ⟨"program", 0, 6, true, false, none, [
    ⟨"if", 0, 2, true, false, none, [
      ⟨"parenthesized_statements", 1, 1, true, false, some "condition", [
        ⟨"identifier", 1, 1, true, false, none, []⟩]⟩]⟩,
    ⟨"unless", 2, 4, true, false, none, [
      ⟨"parenthesized_statements", 3, 3, true, false, some "condition", [
        ⟨"identifier", 3, 3, true, false, none, []⟩]⟩]⟩,
    ⟨"while", 4, 6, true, false, none, [
      ⟨"parenthesized_statements", 6, 6, true, false, some "condition", [
        ⟨"identifier", 6, 6, true, false, none, []⟩]⟩]⟩]⟩

theorem edge_ordered : (knowing "é)(  " edgeTree).Ordered := by
  intro text memory tree hans n hn
  rw [knowing_answer] at hans
  -- the one text of the table, or any other, whose tree has a single node
  split at hans
  · cases hans
    have hall : ∀ n ∈ edgeTree.walk, n.start ≤ n.stop := by
      simp [edgeTree, Node.walk, Node.walkFrom]
    exact hall n hn
  · cases hans
    have hroot : n = (Scripted.flatTree text).root := by
      simpa [Scripted.flatTree, Node.walk, Node.walkFrom] using hn
    rw [hroot]
    exact Nat.zero_le _

/-- The rules have something to do between the parentheses and at the end of the line, and leave no
diagnostics. -/
theorem edge_spotless :
    (knowing "é)(  " edgeTree).Answers ∧ (knowing "é)(  " edgeTree).Ordered ∧
      ∃ e, Engine.ofRules (Rules.shipped.map Rule.ofKind) (knowing "é)(  " edgeTree) "/work"
          = .ok e ∧
        (e.run true [Source.ofText "é)(  "] ⟨{}, false, []⟩).1.diagnostics = [] := by
  obtain ⟨e, hof, -, hrun⟩ := report_spotless (Rules.shipped.map Rule.ofKind) (List.cons_ne_nil _ _)
    kind_mem_of_mem_map_ofKind (knowing "é)(  " edgeTree) (knowing_answers _ _) edge_ordered
    "/work" defaultMaxIterations
  refine ⟨knowing_answers _ _, edge_ordered, e, hof, hrun true _ (fun s hs => ?_) _⟩
  obtain rfl := List.mem_singleton.mp hs
  exact ⟨Source.coherent_ofText _ _, Source.parsedBy_ofText _ _ _⟩

end Engine

end Lintel
