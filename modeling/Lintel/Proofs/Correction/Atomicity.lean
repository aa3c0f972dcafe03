import Lintel.Proofs.Correction.Selection

/-!
# Passes that fail

A pass of correction fails if the chosen edits do not make a text of the octets. It is meant to
leave everything as it was then: the text is replaced only when the new one has been built.
`apply_fails` says how far that goes.

* The source keeps its text, no issue counts as corrected and no edit as applied.
* The issues in conflict **keep their marks**. They are marked while the proposals are gone through,
  before it turns out that the outcome is no text, and nobody takes the marks back. Which issues
  these are can be told from the offers: those with an edit that an accepted one comes before and
  touches (`mem_rejected_iff`).

So a failed pass has no effect exactly if there was no conflict. A pass with an accepted edit that
cuts a character in two and another one that touches it does have an effect (`torn_marked`).
-/

namespace Lintel.Correction

variable {σ : Type}

/-- What a pass leaves that raised a fault. -/
structure Fails (rules : List (Rule σ)) (source : Source) (v : View) (issues : List Issue)
    (w : World σ) (f : Fault) (c : Correction σ) : Prop where
  notText : ∃ bad, f = .notText bad ∧
    Utf8.decode (applyEdits v.bytes (chosen rules v issues w)) = .error bad
  source_eq : c.source = source
  corrected_eq_nil : c.corrected = []
  edits_eq_nil : c.edits = []
  /-- In conflict are the issues with an edit that an accepted one comes before and touches. -/
  conflicts_iff : ∀ k, k ∈ c.conflicts ↔ ∃ e, Offers rules v issues w k e ∧
    ∃ p ∈ (select (gatherFrom rules v 0 issues w).proposals).1,
      Ahead p ⟨k, e⟩ ∧ p.edit.Touches e
  marked : ∀ k ∈ c.conflicts, ∃ i, issues[k]? = some i ∧ i.status = .reported ∧
    c.issues[k]? = some (i.withStatus .conflict)
  others : ∀ k ∉ c.conflicts, c.issues[k]? = issues[k]?

/-- **A failed pass has no effect exactly if nothing was in conflict.** -/
theorem Fails.issues_eq_iff {rules : List (Rule σ)} {source : Source} {v : View}
    {issues : List Issue} {w : World σ} {f : Fault} {c : Correction σ}
    (h : Fails rules source v issues w f c) : c.issues = issues ↔ c.conflicts = [] := by
  constructor
  · intro heq
    rw [List.eq_nil_iff_forall_not_mem]
    intro k hk
    obtain ⟨i, hi, hreported, hmarked⟩ := h.marked k hk
    rw [heq, hi] at hmarked
    -- a pending issue is not one in conflict
    have hstatus := congrArg Issue.status (Option.some.inj hmarked)
    rw [hreported] at hstatus
    cases hstatus
  · intro hnil
    refine List.ext_getElem? fun k => h.others k ?_
    rw [hnil]
    exact List.not_mem_nil

/-- **A pass that raises a fault keeps the text, but not all statuses**: the issues in conflict stay
marked, all others are as before, and everything is as before exactly if there is no conflict. -/
theorem apply_fails (rules : List (Rule σ)) (source : Source) (v : View) (issues : List Issue)
    (w : World σ) {f : Fault} (h : (apply rules source v issues w).fault = some f) :
    Fails rules source v issues w f (apply rules source v issues w) ∧
      ((apply rules source v issues w).issues = issues ↔
        (apply rules source v issues w).conflicts = []) := by
  suffices hfails : Fails rules source v issues w f (apply rules source v issues w) from
    ⟨hfails, hfails.issues_eq_iff⟩
  -- A fault is raised in one way only: edits were chosen, and what they make is no text.
  by_cases hne : (gatherFrom rules v 0 issues w).proposals = []
  · rw [apply_of_nil rules source v issues w hne] at h
    cases h
  · cases hd : Utf8.decode (applyEdits v.bytes (chosen rules v issues w)) with
    | ok chars =>
      rw [apply_of_ok rules source v issues w hne hd] at h
      cases h
    | error bad =>
      rw [apply_of_error rules source v issues w hne hd] at h
      cases h
      -- The statuses are marked before the octets are decoded, which is why the conflicts stay.
      have hrejected : ∀ k, k ∈ (select (gatherFrom rules v 0 issues w).proposals).2.map (·.index) ↔
          ∃ e, Offers rules v issues w k e ∧
            ∃ p ∈ (select (gatherFrom rules v 0 issues w).proposals).1,
              Ahead p ⟨k, e⟩ ∧ p.edit.Touches e := by
        intro k
        rw [List.mem_map]
        constructor
        · rintro ⟨q, hq, rfl⟩
          obtain ⟨hq, hblocked⟩ := (mem_rejected_iff (pairwise_index 0 issues w)).mp hq
          exact ⟨q.edit, (mem_proposals_zero rules v issues w).mp hq, hblocked⟩
        · rintro ⟨e, hoffer, hblocked⟩
          refine ⟨⟨k, e⟩, (mem_rejected_iff (pairwise_index 0 issues w)).mpr ⟨?_, hblocked⟩, rfl⟩
          exact (mem_proposals_zero rules v issues w).mpr hoffer
      rw [apply_of_bad rules source v issues w hne hd]
      refine ⟨⟨bad, rfl, hd⟩, rfl, rfl, rfl, hrejected, fun k hk => ?_, fun k hk => ?_⟩
      · obtain ⟨e, ⟨i, rule, hi, hpending, -⟩, -⟩ := (hrejected k).mp hk
        refine ⟨i, hi, Issue.status_of_isPending hpending, ?_⟩
        rw [getElem?_mark_of_mem hk, hi, Option.map_some]
      · exact getElem?_mark_of_not_mem hk

/-! ### A character that is cut in two -/

/-- Issues in the text `éx`. The edit of the first one takes away half of a character, and that of
the second one touches it. -/
def torn : List Issue :=
  [noted 0 2 (.replace 1 2 ""), noted 1 3 (.replace 2 3 "")]

def tornView : View := .ofText none "éx" (.error .noTree)

theorem select_torn :
    select (gatherFrom [player] tornView 0 torn quietWorld).proposals
      = ([⟨0, 1, 2, "", by decide⟩], [⟨1, 2, 3, "", by decide⟩]) := by
  -- Sorting is not computed: the proposals stand in order already.
  have hsorted : inOrder [⟨0, 1, 2, "", by decide⟩, ⟨1, 2, 3, "", by decide⟩]
      = [⟨0, 1, 2, "", by decide⟩, ⟨1, 2, 3, "", by decide⟩] :=
    List.mergeSort_of_pairwise (by decide)
  have hproposals : (gatherFrom [player] tornView 0 torn quietWorld).proposals
      = [⟨0, 1, 2, "", by decide⟩, ⟨1, 2, 3, "", by decide⟩] := rfl
  rw [hproposals, select, hsorted]
  rfl

theorem decode_torn :
    Utf8.decode (applyEdits tornView.bytes (chosen [player] tornView torn quietWorld))
      = .error ⟨0, 1, 0xC3, .badContinuation⟩ := by
  rw [chosen, select_torn, List.map_cons, List.map_nil,
    applyEdits_cons (List.pairwise_singleton _ _)]
  decide +kernel

theorem apply_torn :
    apply [player] (Source.ofText "éx") tornView torn quietWorld
      = ⟨Source.ofText "éx", mark [1] .conflict torn, [], [1], [], [],
          some (.notText ⟨0, 1, 0xC3, .badContinuation⟩),
          (gatherFrom [player] tornView 0 torn quietWorld).world⟩ := by
  have hne : (gatherFrom [player] tornView 0 torn quietWorld).proposals ≠ [] := List.cons_ne_nil _ _
  rw [apply_of_bad [player] (Source.ofText "éx") tornView torn quietWorld hne decode_torn,
    select_torn]
  rfl

/-- The second issue is in conflict when the pass fails, so the pass has an effect. -/
theorem torn_fails :
    Fails [player] (Source.ofText "éx") tornView torn quietWorld
        (.notText ⟨0, 1, 0xC3, .badContinuation⟩)
        (apply [player] (Source.ofText "éx") tornView torn quietWorld) ∧
      (apply [player] (Source.ofText "éx") tornView torn quietWorld).conflicts = [1] ∧
      (apply [player] (Source.ofText "éx") tornView torn quietWorld).issues ≠ torn := by
  have hfault : (apply [player] (Source.ofText "éx") tornView torn quietWorld).fault
      = some (.notText ⟨0, 1, 0xC3, .badContinuation⟩) := by rw [apply_torn]
  have hconflicts : (apply [player] (Source.ofText "éx") tornView torn quietWorld).conflicts
      = [1] := by rw [apply_torn]
  obtain ⟨hfails, hrestored⟩ := apply_fails [player] (Source.ofText "éx") tornView torn quietWorld
    hfault
  -- The list of conflicts is not empty, so the marks did change the issues.
  refine ⟨hfails, hconflicts, ?_⟩
  rw [ne_eq, hrestored, hconflicts]
  exact List.cons_ne_nil _ _

/-- **A failed pass is not without effect**: both issues were pending, and the second one is in
conflict now. -/
theorem torn_marked :
    (apply [player] (Source.ofText "éx") tornView torn quietWorld).fault
        = some (.notText ⟨0, 1, 0xC3, .badContinuation⟩) ∧
      torn.map (·.status) = [.reported, .reported] ∧
      (apply [player] (Source.ofText "éx") tornView torn quietWorld).issues.map (·.status)
        = [.reported, .conflict] := by
  rw [apply_torn]
  exact ⟨rfl, rfl, rfl⟩

end Lintel.Correction
