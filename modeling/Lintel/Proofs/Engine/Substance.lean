import Lintel.Proofs.Engine.Accounting
import Lintel.Proofs.Engine.Convergence

/-!
# What the library's rules leave alone

The **substance** of a text is what is left of its octets without blanks and parentheses. The rules
of the library do not touch it: no edit changes it, so no run does (`report_keeps_substance`). The
parentheses that go are accounted for: in a run, as many opening ones and as many closing ones go as
the report lists corrected issues of the rule on parentheses.

The edits of a round come from two rules and lie anywhere between each other, and the text between
two parentheses is decoded and encoded on the way. Both are dealt with elsewhere: edits that are
apart from each other respect what each of them respects (`Graded.applyEdits`), and what stands
between two octets below 0x80 of a text is text (`Utf8.isText_between`).
-/

namespace Lintel

/-- **The substance of a text**: its octets without blanks and parentheses. -/
def substance (bs : Bytes) : Bytes :=
  bs.filter fun b => !(Rules.TrailingWhitespace.isSpace b || isParen b)

theorem substance_append (xs ys : Bytes) : substance (xs ++ ys) = substance xs ++ substance ys :=
  List.filter_append xs ys

def KeepsSubstance (_ : Nat) (old new : Bytes) : Prop :=
  substance new = substance old

theorem graded_keepsSubstance : Graded KeepsSubstance where
  same bs := rfl
  join hm hn := by
    unfold KeepsSubstance at *
    rw [substance_append, substance_append, hm, hn]
  follow hm hn := by
    unfold KeepsSubstance at *
    rw [hn, hm]

/-- So many of an octet have gone. -/
def Loses (b : UInt8) (n : Nat) (old new : Bytes) : Prop :=
  old.count b = new.count b + n

theorem graded_loses (b : UInt8) : Graded (Loses b) where
  same bs := rfl
  join hm hn := by
    unfold Loses at *
    rw [List.count_append, List.count_append]
    omega
  follow hm hn := by
    unfold Loses at *
    omega

namespace Rules

theorem substance_blanks {blanks : Bytes}
    (h : ∀ b ∈ blanks, TrailingWhitespace.isSpace b = true) : substance blanks = [] := by
  unfold substance
  rw [List.filter_eq_nil_iff]
  intro b hb
  rw [h b hb, Bool.true_or]
  decide

theorem substance_padding (c : Bool) : substance (RedundantParentheses.padding c) = [] := by
  cases c with
  | true => decide
  | false => rfl

/-- **What mends a text keeps its substance.** -/
theorem Mends.keepsSubstance {rule : String} {old new : Bytes} (h : Mends rule old new) (n : Nat) :
    KeepsSubstance n old new := by
  unfold KeepsSubstance
  -- Blanks and parentheses are no substance, so that each of the three edits leaves the same
  -- octets.
  cases h with
  | trim blanks hall =>
    rw [substance_blanks hall]
    rfl
  | unwrap inner left right =>
    have hold : substance (0x28 :: (inner ++ [0x29])) = substance inner := by
      have hopen : substance [0x28] = [] := by decide
      have hclose : substance [0x29] = [] := by decide
      rw [← List.singleton_append, substance_append, substance_append, hopen, hclose,
        List.nil_append, List.append_nil]
    rw [hold, substance_append, substance_append, substance_padding, substance_padding,
      List.nil_append, List.append_nil]
  | pad left right =>
    rw [substance_append, substance_padding, substance_padding]
    rfl

/-- The parentheses of either kind that an edit of a rule takes away. -/
def parensDropped (rule : String) : Nat :=
  if rule = RedundantParentheses.profile.fullName then 1 else 0

theorem count_padding {b : UInt8} (hb : isParen b = true) (c : Bool) :
    (RedundantParentheses.padding c).count b = 0 := by
  rw [List.count_eq_zero]
  intro hmem
  -- The padding is one space or nothing, and a space is no parenthesis.
  cases c with
  | true =>
    rw [List.mem_singleton.mp hmem] at hb
    cases hb
  | false => cases hmem

theorem count_blanks {b : UInt8} (hb : isParen b = true) {blanks : Bytes}
    (h : ∀ b ∈ blanks, TrailingWhitespace.isSpace b = true) : blanks.count b = 0 := by
  rw [List.count_eq_zero]
  intro hmem
  have hspace := h b hmem
  rw [isParen, Bool.or_eq_true, beq_iff_eq, beq_iff_eq] at hb
  rcases hb with rfl | rfl
  · cases hspace
  · cases hspace

/-- **An edit of the rule on parentheses takes away one of each kind**, and no other edit takes away
any. -/
theorem Mends.loses {rule : String} {old new : Bytes} (h : Mends rule old new) (hne : old ≠ [])
    {b : UInt8} (hb : isParen b = true) : Loses b (parensDropped rule) old new := by
  unfold Loses
  -- Of the three edits one takes the outer pair away; the others put in and take out blanks.
  cases h with
  | trim blanks hall =>
    rw [count_blanks hb hall, List.count_nil, parensDropped, if_neg (by decide)]
  | unwrap inner left right =>
    have hold : (0x28 :: (inner ++ [0x29])).count b = inner.count b + 1 := by
      rw [← List.singleton_append, List.count_append, List.count_append]
      rw [isParen, Bool.or_eq_true, beq_iff_eq, beq_iff_eq] at hb
      have hpair : List.count b [0x28] + List.count b [0x29] = 1 := by
        rcases hb with rfl | rfl
        · decide
        · decide
      omega
    rw [hold, List.count_append, List.count_append, count_padding hb, count_padding hb,
      parensDropped, if_pos rfl]
    omega
  | pad left right => exact absurd rfl hne

end Rules

namespace Engine

variable {σ : Type} {e : Engine σ} {ac : Bool}

theorem Shipped.upholds_keepsSubstance (he : e.Shipped) :
    e.Upholds KeepsSubstance fun _ => 0 := by
  intro path text i edit hgrounds
  obtain ⟨old, hreplaces, hmends, -⟩ := he.mends hgrounds
  exact ⟨old, hreplaces, hmends.keepsSubstance 0⟩

theorem Shipped.upholds_loses (he : e.Shipped) (hf : e.parser.Fits) {b : UInt8}
    (hb : isParen b = true) : e.Upholds (Loses b) Rules.parensDropped := by
  intro path text i edit hgrounds
  obtain ⟨old, hreplaces, hmends, hne⟩ := he.mends hgrounds
  exact ⟨old, hreplaces, hmends.loses (hne hf) hb⟩

/-! ### Counting corrected issues of a rule -/

/-- The number for the rounds, if it is one for each issue of a rule. -/
theorem total_parensDropped (rounds : List Round) :
    total Rules.parensDropped rounds
      = (rounds.flatMap (·.corrected)).countP fun i =>
          i.rule == Rules.RedundantParentheses.profile.fullName := by
  unfold total
  induction rounds.flatMap (·.corrected) with
  | nil => rfl
  | cons i issues ih =>
    rw [List.map_cons, List.sum_cons, ih, List.countP_cons, Rules.parensDropped, Nat.add_comm]
    simp only [beq_iff_eq]

/-- **The corrected issues of a report are those of the rounds**, for what rules of the library find
has another status. -/
theorem Shipped.perm_corrected (he : e.Shipped) {s : Source} {past : List (Machine × World σ)}
    {m : Machine} (ht : Tracked e s past m) (hst : Standing e past m) (hu : Untouched e m) :
    ((finalIssues m).filter (·.isCorrected)).Perm ((e.roundsOf past).flatMap (·.corrected)) := by
  obtain ⟨others, hperm, hothers⟩ := Engine.perm_corrected ht hst
  cases others with
  | nil => rwa [List.append_nil] at hperm
  | cons i others =>
    -- a rule would have handed it over as corrected already
    obtain ⟨hstatus, hcur, hi⟩ := hothers i List.mem_cons_self
    obtain ⟨v, hfound⟩ := hu.found_of_corrected hcur hi hstatus
    rw [he.status_of_found hfound] at hstatus
    cases hstatus

/-- **The library's rules leave the substance of a text alone.** For every choice and configuration
of them, every parser that answers for all texts and whose nodes of parentheses fit the text, every
budget, and whatever disturbs the run and whenever it is cancelled: the substance of a source is the
same after the run as before it, and of either parenthesis as many have gone as the report lists
corrected issues of the rule on parentheses. The reports that `Engine.run` makes are among those
spoken of. -/
theorem report_keeps_substance (rules : List (Rule σ)) (hne : rules ≠ [])
    (hrules : ∀ r ∈ rules, r.kind ∈ Rules.shipped) (parser : Parser σ) (hans : parser.Answers)
    (hfits : parser.Fits) (cwd : String) (budget : Int) :
    ∃ e, Engine.ofRules rules parser cwd budget = .ok e ∧
      ∀ (ac : Bool) (ss : List Source) (w : World σ),
        e.Reports ac ss w.resume (e.run ac ss w).1.sources ∧
        ∀ reports, e.Reports ac ss w.resume reports → ∀ (k : Nat) (s : Source), ss[k]? = some s →
          s.Coherent → s.ParsedBy parser →
          ∃ r, reports[k]? = some r ∧
            substance (Utf8.ofString r.source.text) = substance (Utf8.ofString s.text) ∧
            ∀ b, isParen b = true →
              (Utf8.ofString s.text).count b = (Utf8.ofString r.source.text).count b
                + r.corrected.countP fun i =>
                    i.rule == Rules.RedundantParentheses.profile.fullName := by
  obtain ⟨e, hof, he, ⟨config, hparse⟩, rfl, rfl⟩ := shipped_of_ofRules hne hrules parser cwd budget
  refine ⟨e, hof, fun ac ss w => ⟨reports_run e ac ss w, fun reports hreports k s hk hs hp => ?_⟩⟩
  obtain ⟨w', states, t, hloops, hreport⟩ := hreports.exists_loops hk
  obtain ⟨hnone, htracked, hstanding, huntouched⟩ := he.ends hans hparse hs hp hloops
  have hafter : e.reportAfter t = reportOf t.machine := by
    rw [reportAfter, hnone]
  rw [hafter] at hreport
  refine ⟨_, hreport, ?_, fun b hb => ?_⟩
  · obtain ⟨n, hkept, -⟩ := hloops.upheld graded_keepsSubstance he.upholds_keepsSubstance hs hp
    exact hkept
  · -- the number that the text has lost is the number of corrected issues of the rule
    obtain ⟨n, hkept, hn⟩ := hloops.upheld (graded_loses b) (he.upholds_loses hfits hb) hs hp
    have hperm := he.perm_corrected htracked hstanding huntouched
    rw [hn hnone, total_parensDropped, ← hperm.countP_eq] at hkept
    exact hkept

/-- Both rules have something to do in this text. In every run of the library's rules over it, the
substance stays `ifa`, and as many parentheses go as the report says. -/
theorem conditionParser_keeps_substance :
    substance (Utf8.ofString "if (a)  ") = Utf8.ofString "ifa" ∧
      ∃ e, Engine.ofRules (Rules.shipped.map Rule.ofKind) conditionParser "/work" = .ok e ∧
        ∀ reports, e.Reports true [Source.ofText "if (a)  "] ⟨{}, false, []⟩ reports →
          ∃ r, reports[0]? = some r ∧
            substance (Utf8.ofString r.source.text) = Utf8.ofString "ifa" ∧
            1 = (Utf8.ofString r.source.text).count 0x28
              + r.corrected.countP fun i =>
                  i.rule == Rules.RedundantParentheses.profile.fullName := by
  have hsubstance : substance (Utf8.ofString "if (a)  ") = Utf8.ofString "ifa" := by decide
  obtain ⟨e, hof, hruns⟩ := report_keeps_substance (Rules.shipped.map Rule.ofKind)
    (List.cons_ne_nil _ _) kind_mem_of_mem_map_ofKind conditionParser conditionParser_answers
    conditionParser_fits "/work" defaultMaxIterations
  refine ⟨hsubstance, e, hof, fun reports hreports => ?_⟩
  -- the theorem for all runs, at this text and with all rules of the library
  obtain ⟨r, hr, hkept, hcount⟩ := (hruns true _ ⟨{}, false, []⟩).2 reports hreports 0 _ rfl
    (Source.coherent_ofText _ _) (Source.parsedBy_ofText _ _ _)
  have htext : (Source.ofText "if (a)  ").text = "if (a)  " := rfl
  have hopen := hcount 0x28 (by decide)
  rw [htext] at hkept hopen
  exact ⟨r, hr, hkept.trans hsubstance, hopen⟩

end Engine

end Lintel
