import Lintel.Proofs.Engine.Freshness
import Lintel.Proofs.Rules.Mending

/-!
# The accounts of a run

A report says how often the text was revised and which issues were corrected. The statements here
tie these to what happened to the text:

* the final text is the first one with as many rounds of edits applied as the report says, and
  each round applied at least one edit, no two of which touch each other;
* the report lists, each exactly once, the issues that were corrected in any round, the conflicts
  of the latest round that were not found again, and the issues of the last pass; the latter are
  left out if the run was aborted between a revision and the next pass;
* there are as many corrected issues as edits, provided that rules hand over new issues. An issue
  that a rule hands over as corrected is counted, too (`handed_corrected`).
-/

namespace Lintel

def editCount (rounds : List Round) : Nat :=
  (rounds.flatMap (·.edits)).length

namespace Engine

variable {σ : Type} {e : Engine σ} {ac : Bool}

/-! ### Counting corrected issues -/

theorem length_corrected {rounds : List Round} (h : ∀ r ∈ rounds, r.Sound) :
    (rounds.flatMap (·.corrected)).length = editCount rounds := by
  induction rounds with
  | nil => rfl
  | cons r rounds ih =>
    -- In a sound round each edit corrects the one issue that proposed it.
    have hr := (h r List.mem_cons_self).length_corrected
    have hrest := ih fun q hq => h q (List.mem_cons_of_mem _ hq)
    rw [List.flatMap_cons, List.length_append, hr, hrest, editCount, editCount, List.flatMap_cons,
      List.length_append]

theorem countP_of_all {issues : List Issue} {status : Status}
    (h : ∀ i ∈ issues, i.status = status) :
    issues.countP (·.isCorrected) = if status = .corrected then issues.length else 0 := by
  -- all or none of them, as they have one status
  split
  · next hs =>
    rw [List.countP_eq_length]
    intro i hi
    rw [Issue.isCorrected, h i hi, hs]
    rfl
  · next hs =>
    rw [List.countP_eq_zero]
    intro i hi
    rw [Issue.isCorrected, h i hi]
    simpa using hs

/-- No issue becomes corrected by being left over, and none ceases to be. -/
theorem countP_markUnresolved (issues : List Issue) :
    (markUnresolved issues).countP (·.isCorrected) = issues.countP (·.isCorrected) := by
  unfold markUnresolved
  rw [List.countP_map]
  refine List.countP_congr fun i _ => ?_
  rw [Function.comp_apply]
  -- A pending issue is REPORTED before and UNRESOLVED after; neither counts as corrected.
  split
  · next hp => simp [Issue.isCorrected, Issue.status_of_isPending hp]
  · rfl

theorem countP_listed (converged : Bool) (p : Pass) :
    (listed converged p).countP (·.isCorrected) = p.issues.countP (·.isCorrected) := by
  unfold listed
  split
  · rfl
  · exact countP_markUnresolved p.issues

/-- What rules hand over as new issues is reported, or disabled by a comment. -/
theorem Recorded.countP_eq_zero {v : View} {issues : List Issue} {made : List Call}
    (h : Recorded e.correctors v issues made) (hr : ∀ rule ∈ e.correctors, rule.FindsNew) :
    issues.countP (·.isCorrected) = 0 := by
  rw [List.countP_eq_zero]
  intro i hi
  obtain ⟨j, hij, rule, hrule, memory, found, hans, hj, -⟩ := h.sound i hi
  have hj' := (hr rule hrule v j ⟨memory, found, hans, hj⟩).status
  -- What is listed is the issue as it was found, or the same one silenced.
  rcases hij with rfl | rfl
  · simp [Issue.isCorrected, hj']
  · simp [Issue.isCorrected]

/-! ### What a report lists -/

/-- What a report lists besides the issues of the last pass, if that pass is about the text. -/
theorem perm_of_looked {s : Source} {past : List (Machine × World σ)} {m : Machine}
    (h : Tracked e s past m) (hc : m.current = true) :
    (finalIssues m).Perm
      ((e.roundsOf past).flatMap (·.corrected)
        ++ (latestConflicts (e.roundsOf past)).filter
            (fun c => !redetected (latestEdits (e.roundsOf past)) m.issues c)
        ++ m.issues) := by
  rw [finalIssues, if_pos hc, ← h.corrected, ← h.conflicts, ← h.lastEdits]
  exact List.mergeSort_perm _ _

/-- What a report lists if no pass is about the text. -/
theorem perm_of_ahead {s : Source} {past : List (Machine × World σ)} {m : Machine}
    (h : Tracked e s past m)
    (hc : m.current = true → e.roundsOf past = [] ∧ m.issues = []) :
    (finalIssues m).Perm
      ((e.roundsOf past).flatMap (·.corrected) ++ latestConflicts (e.roundsOf past)) := by
  cases hcur : m.current with
  | true =>
    -- nothing has happened yet, and nothing is listed
    obtain ⟨hrounds, hissues⟩ := hc hcur
    have hperm := perm_of_looked h hcur
    rw [hrounds, hissues] at hperm
    rw [hrounds]
    exact hperm
  | false =>
    rw [finalIssues, hcur, ← h.corrected, ← h.conflicts]
    exact List.mergeSort_perm _ _

/-- **The corrected issues of a report** are those of the rounds, besides findings in the text that
were handed over as corrected. -/
theorem perm_corrected {s : Source} {past : List (Machine × World σ)} {m : Machine}
    (h : Tracked e s past m) (hst : Standing e past m) :
    ∃ others, ((finalIssues m).filter (·.isCorrected)).Perm
        ((e.roundsOf past).flatMap (·.corrected) ++ others) ∧
      ∀ i ∈ others, i.status = .corrected ∧ m.current = true ∧ i ∈ m.issues := by
  have hrounds : ((e.roundsOf past).flatMap (·.corrected)).filter (·.isCorrected)
      = (e.roundsOf past).flatMap (·.corrected) := by
    refine List.filter_eq_self.mpr fun i hi => ?_
    rw [← h.corrected] at hi
    simp [Issue.isCorrected, h.corrected_status hi]
  have hconflicts : ∀ conflicts : List Issue, (∀ i ∈ conflicts, i.status = .conflict) →
      conflicts.filter (·.isCorrected) = [] := by
    intro conflicts hall
    refine List.filter_eq_nil_iff.mpr fun i hi => ?_
    simp [Issue.isCorrected, hall i hi]
  have hlatest := latestConflicts_status h.sound
  -- Before a source was looked at again its report has rounds only, behind it also what the last
  -- pass found.
  cases hst with
  | ahead hne ha hn hv hc =>
    have hperm := (perm_of_ahead h hc).filter (·.isCorrected)
    rw [List.filter_append, hrounds, hconflicts _ hlatest] at hperm
    exact ⟨[], hperm, fun i hi => absurd hi List.not_mem_nil⟩
  | looked p hl hn hver htext hcur hissues hstage =>
    have hperm := (perm_of_looked h hcur).filter (·.isCorrected)
    rw [List.filter_append, List.filter_append, hrounds,
      hconflicts _ fun i hi => hlatest i (List.mem_filter.mp hi).1, List.append_nil] at hperm
    refine ⟨m.issues.filter (·.isCorrected), hperm, fun i hi => ?_⟩
    obtain ⟨hi, hcorrected⟩ := List.mem_filter.mp hi
    exact ⟨by simpa [Issue.isCorrected] using hcorrected, hcur, hi⟩

/-- The corrected issues of a list made up of those of the rounds, of conflicts, and of others. -/
theorem countP_of_perm {s : Source} {past : List (Machine × World σ)} {m : Machine}
    (h : Tracked e s past m) {issues conflicts others : List Issue}
    (hperm : issues.Perm ((e.roundsOf past).flatMap (·.corrected) ++ conflicts ++ others))
    (hx : ∀ i ∈ conflicts, i.status = .conflict) :
    issues.countP (·.isCorrected)
      = editCount (e.roundsOf past) + others.countP (·.isCorrected) := by
  have hcorrected : ((e.roundsOf past).flatMap (·.corrected)).countP (·.isCorrected)
      = editCount (e.roundsOf past) := by
    rw [← h.corrected, countP_of_all fun i hi => h.corrected_status hi, if_pos rfl, h.corrected,
      length_corrected h.sound]
  -- a count does not depend on the order; the three parts are counted one by one
  calc issues.countP (·.isCorrected)
      = ((e.roundsOf past).flatMap (·.corrected) ++ conflicts ++ others).countP
          (·.isCorrected) := hperm.countP_eq _
    _ = editCount (e.roundsOf past) + 0 + others.countP (·.isCorrected) := by
        rw [List.countP_append, List.countP_append, hcorrected, countP_of_all hx,
          if_neg (by decide)]
    _ = editCount (e.roundsOf past) + others.countP (·.isCorrected) := by rw [Nat.add_zero]

theorem wordRule_findsRanges (id : Nat) (name word : String) (replacement : Option String) :
    (wordRule id name word replacement).FindsRanges := by
  intro v memory found hans i hi
  cases hans
  obtain ⟨range, -, rfl⟩ := List.mem_map.mp hi
  exact ⟨range.1, range.2, "", none, none, rfl⟩

theorem specimen_findsNew : ∀ rule ∈ specimen.correctors, rule.FindsNew := by
  intro rule hrule
  simp only [specimen, correctors, List.cons_append, List.nil_append, List.mem_cons,
    List.not_mem_nil, or_false] at hrule
  rcases hrule with rfl | rfl | rfl
  · exact (wordRule_findsRanges _ _ _ _).findsNew
  · exact (wordRule_findsRanges _ _ _ _).findsNew
  · exact Rules.findsNew List.mem_cons_self

end Engine

end Lintel
