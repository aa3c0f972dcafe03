import Lintel.Proofs.Correction.Gathering
import Lintel.Proofs.Source.Memo
import Lintel.Proofs.Text.Utf8

/-!
# What a pass of correction comes to

A pass of correction ends in one of three ways, and `apply_cases` lists them: no edit was
proposed, and nothing happens; the edited octets are not text, and the fault is reported; or the
source is **revised**. `Revised` collects what the rest of the theory needs to know of a revision:

* at least one edit was applied, and of two applied edits the first ends before the second starts;
* the octets of the new text are those of the old one with the edits applied;
* there are as many corrected issues as edits, and they carry the status `corrected`, while the
  issues that lost carry the status `conflict`; all of them were pending before.

The selection accepts the first proposal there is, so nothing happens only if nothing was
proposed (`accepted_eq_nil`).
-/

namespace Lintel.Correction

variable {σ : Type}

/-! ### Selection -/

theorem selectFrom_perm (last : Option Nat) (ps : List Proposal) :
    ((selectFrom last ps).1 ++ (selectFrom last ps).2).Perm ps := by
  induction ps generalizing last with
  | nil => exact List.Perm.nil
  | cons p ps ih =>
    rw [selectFrom]
    split
    · exact (ih (some p.edit.stop)).cons p
    · -- a rejected proposal comes after all accepted ones
      exact List.perm_middle.trans ((ih last).cons p)

/-- What is accepted after an edit starts after its end. -/
theorem lt_start_of_mem_selectFrom {stop : Nat} {ps : List Proposal} {p : Proposal}
    (h : p ∈ (selectFrom (some stop) ps).1) : stop < p.edit.start := by
  induction ps generalizing stop with
  | nil => cases h
  | cons q ps ih =>
    rw [selectFrom] at h
    split at h
    · next hq =>
      have hclear : stop < q.edit.start := by simpa [isClear] using hq
      rcases List.mem_cons.mp h with rfl | h
      · exact hclear
      · -- accepted later on: that starts behind the end of `q`, which lies behind `stop`
        have hlt := ih h
        have hle := q.edit.start_le_stop
        omega
    · exact ih h

/-- **Accepted edits do not touch each other.** -/
theorem selectFrom_separated (last : Option Nat) (ps : List Proposal) :
    (selectFrom last ps).1.Pairwise fun a b => a.edit.stop < b.edit.start := by
  induction ps generalizing last with
  | nil => exact List.Pairwise.nil
  | cons p ps ih =>
    rw [selectFrom]
    -- A proposal that is taken sets the bound which all later ones have to pass.
    split
    · exact List.Pairwise.cons (fun q hq => lt_start_of_mem_selectFrom hq) (ih _)
    · exact ih last

theorem select_perm (ps : List Proposal) : ((select ps).1 ++ (select ps).2).Perm ps :=
  (selectFrom_perm none (inOrder ps)).trans (List.mergeSort_perm ps _)

/-- **The first proposal is always accepted**, so none is accepted only if there is none. -/
theorem accepted_eq_nil {ps : List Proposal} : (select ps).1 = [] ↔ ps = [] := by
  constructor
  · intro h
    -- nothing has been accepted before the first proposal, so it is clear
    cases hs : inOrder ps with
    | nil => exact List.Perm.nil_eq (hs ▸ (List.mergeSort_perm ps _)) |>.symm
    | cons p rest =>
      rw [select, hs, selectFrom] at h
      cases h
  · rintro rfl
    rw [select, inOrder, List.mergeSort_nil, selectFrom]

theorem isEmpty_accepted {ps : List Proposal} (h : ps ≠ []) : (select ps).1.isEmpty = false := by
  rw [List.isEmpty_eq_false_iff, ne_eq, accepted_eq_nil]
  exact h

/-! ### Marks -/

@[simp] theorem length_mark (positions : List Nat) (status : Status) (issues : List Issue) :
    (mark positions status issues).length = issues.length :=
  List.length_mapIdx

theorem getElem?_mark (positions : List Nat) (status : Status) (issues : List Issue) (k : Nat) :
    (mark positions status issues)[k]?
      = issues[k]?.map fun i => if positions.contains k then i.withStatus status else i := by
  rw [mark, List.getElem?_mapIdx]

theorem getElem?_mark_of_mem {positions : List Nat} {status : Status} {issues : List Issue}
    {k : Nat} (h : k ∈ positions) :
    (mark positions status issues)[k]? = issues[k]?.map (Issue.withStatus status) := by
  rw [getElem?_mark]
  simp only [List.contains_iff_mem.mpr h, if_true]

theorem getElem?_mark_of_not_mem {positions : List Nat} {status : Status} {issues : List Issue}
    {k : Nat} (h : k ∉ positions) : (mark positions status issues)[k]? = issues[k]? := by
  rw [getElem?_mark]
  simp [h]

/-! ### The outcome -/

/-- The edits that a pass of correction goes on to apply: those of the accepted proposals. -/
def chosen (rules : List (Rule σ)) (v : View) (issues : List Issue) (w : World σ) : List Edit :=
  (select (gatherFrom rules v 0 issues w).proposals).1.map (·.edit)

/-- What a revision leaves behind. -/
structure Revised (source : Source) (v : View) (issues : List Issue) (c : Correction σ) :
    Prop where
  edits_ne_nil : c.edits ≠ []
  separated : c.edits.Pairwise fun a b => a.stop < b.start
  octets : Utf8.ofString c.source.text = applyEdits v.bytes c.edits
  source_eq : c.source = source.setText c.source.text
  length_corrected : (c.issuesAt c.corrected).length = c.edits.length
  corrected_origin : ∀ i ∈ c.issuesAt c.corrected,
    ∃ j ∈ issues, j.isPending = true ∧ i = j.withStatus .corrected
  conflict_origin : ∀ i ∈ c.issuesAt c.conflicts,
    ∃ j ∈ issues, j.isPending = true ∧ i = j.withStatus .conflict

theorem Revised.corrected_status {source : Source} {v : View} {issues : List Issue}
    {c : Correction σ} (h : Revised source v issues c) {i : Issue}
    (hi : i ∈ c.issuesAt c.corrected) : i.status = .corrected := by
  obtain ⟨j, -, -, rfl⟩ := h.corrected_origin i hi
  rfl

theorem Revised.conflict_status {source : Source} {v : View} {issues : List Issue}
    {c : Correction σ} (h : Revised source v issues c) {i : Issue}
    (hi : i ∈ c.issuesAt c.conflicts) : i.status = .conflict := by
  obtain ⟨j, -, -, rfl⟩ := h.conflict_origin i hi
  rfl

section Apply

variable (rules : List (Rule σ)) (source : Source) (v : View) (issues : List Issue) (w : World σ)

theorem exists_issue_of_mem_proposals {p : Proposal}
    (h : p ∈ (gatherFrom rules v 0 issues w).proposals) :
    ∃ i, issues[p.index]? = some i ∧ i ∈ issues ∧ i.isPending = true := by
  obtain ⟨k, i, hk, hi, rule, memory, ha, -⟩ := exists_of_mem_proposals h
  obtain rfl : p.index = k := by omega
  exact ⟨i, hi, List.mem_of_getElem? hi, (answerer_eq_some.mp ha).1⟩

theorem mem_proposals_of_mem_accepted {p : Proposal}
    (h : p ∈ (select (gatherFrom rules v 0 issues w).proposals).1) :
    p ∈ (gatherFrom rules v 0 issues w).proposals :=
  (select_perm _).mem_iff.mp (List.mem_append_left _ h)

theorem mem_proposals_of_mem_rejected {p : Proposal}
    (h : p ∈ (select (gatherFrom rules v 0 issues w).proposals).2) :
    p ∈ (gatherFrom rules v 0 issues w).proposals :=
  (select_perm _).mem_iff.mp (List.mem_append_right _ h)

/-- The positions of the proposals are all different, and the selection only distributes them. -/
theorem nodup_index :
    (((select (gatherFrom rules v 0 issues w).proposals).1 ++
      (select (gatherFrom rules v 0 issues w).proposals).2).map (·.index)).Nodup := by
  have hdistinct : ((gatherFrom rules v 0 issues w).proposals.map (·.index)).Nodup := by
    rw [List.nodup_iff_pairwise_ne, List.pairwise_map]
    exact (pairwise_index 0 issues w).imp Nat.ne_of_lt
  exact ((select_perm _).map (·.index)).nodup_iff.mpr hdistinct

/-- No issue is both accepted and rejected: the proposals are for different issues. -/
theorem index_ne_of_mem {p q : Proposal}
    (hp : p ∈ (select (gatherFrom rules v 0 issues w).proposals).1)
    (hq : q ∈ (select (gatherFrom rules v 0 issues w).proposals).2) : p.index ≠ q.index := by
  have hdistinct := nodup_index rules v issues w
  rw [List.map_append, List.nodup_append] at hdistinct
  exact hdistinct.2.2 _ (List.mem_map_of_mem hp) _ (List.mem_map_of_mem hq)

@[simp] theorem apply_world :
    (apply rules source v issues w).world = (gatherFrom rules v 0 issues w).world := by
  unfold apply
  simp only
  split
  · rfl
  · split <;> rfl

@[simp] theorem apply_diagnostics :
    (apply rules source v issues w).diagnostics
      = (gatherFrom rules v 0 issues w).diagnostics := by
  unfold apply
  simp only
  split
  · rfl
  · split <;> rfl

theorem apply_source_of_fault {f : Fault} (h : (apply rules source v issues w).fault = some f) :
    (apply rules source v issues w).source = source := by
  unfold apply at h ⊢
  simp only at h ⊢
  split
  · rfl
  · -- there was something to apply, so the fault comes from reading the outcome
    next hne =>
    rw [if_neg hne] at h
    split
    · rfl
    · next hd =>
      rw [hd] at h
      cases h

theorem apply_of_nil (h : (gatherFrom rules v 0 issues w).proposals = []) :
    apply rules source v issues w
      = ⟨source, issues, [], [], [], (gatherFrom rules v 0 issues w).diagnostics, none,
          (gatherFrom rules v 0 issues w).world⟩ := by
  have hnone := accepted_eq_nil.mpr h
  unfold apply
  simp only [hnone, List.isEmpty_nil, if_true]

/-- Edited octets that are not text are a fault. Nothing is applied, but conflicts are marked. -/
theorem apply_of_bad {bad : Utf8.BadBytes}
    (hne : (gatherFrom rules v 0 issues w).proposals ≠ [])
    (h : Utf8.decode (applyEdits v.bytes (chosen rules v issues w)) = .error bad) :
    apply rules source v issues w
      = ⟨source,
          mark ((select (gatherFrom rules v 0 issues w).proposals).2.map (·.index)) .conflict
            issues,
          [], (select (gatherFrom rules v 0 issues w).proposals).2.map (·.index), [],
          (gatherFrom rules v 0 issues w).diagnostics, some (.notText bad),
          (gatherFrom rules v 0 issues w).world⟩ := by
  have hsome := isEmpty_accepted hne
  unfold chosen at h
  unfold apply
  simp only [hsome, h, Bool.false_eq_true, if_false]

theorem apply_of_error {bad : Utf8.BadBytes}
    (hne : (gatherFrom rules v 0 issues w).proposals ≠ [])
    (h : Utf8.decode (applyEdits v.bytes (chosen rules v issues w)) = .error bad) :
    (apply rules source v issues w).fault = some (.notText bad) := by
  rw [apply_of_bad rules source v issues w hne h]

/-- Edited octets that are text are the new text. -/
theorem apply_of_ok {chars : List Char}
    (hne : (gatherFrom rules v 0 issues w).proposals ≠ [])
    (h : Utf8.decode (applyEdits v.bytes (chosen rules v issues w)) = .ok chars) :
    apply rules source v issues w
      = ⟨source.setText (String.ofList chars),
          mark ((select (gatherFrom rules v 0 issues w).proposals).1.map (·.index)) .corrected
            (mark ((select (gatherFrom rules v 0 issues w).proposals).2.map (·.index)) .conflict
              issues),
          (select (gatherFrom rules v 0 issues w).proposals).1.map (·.index),
          (select (gatherFrom rules v 0 issues w).proposals).2.map (·.index),
          chosen rules v issues w, (gatherFrom rules v 0 issues w).diagnostics, none,
          (gatherFrom rules v 0 issues w).world⟩ := by
  have hsome := isEmpty_accepted hne
  unfold chosen at h
  unfold apply
  simp only [hsome, h, Bool.false_eq_true, if_false]
  rfl

/-- The outcome of a pass, told from the proposals that are accepted. -/
theorem apply_of_select {accepted rejected : List Proposal} {chars : List Char}
    (hs : select (gatherFrom rules v 0 issues w).proposals = (accepted, rejected))
    (hne : accepted ≠ [])
    (hd : Utf8.decode (applyEdits v.bytes (accepted.map (·.edit))) = .ok chars) :
    apply rules source v issues w
      = ⟨source.setText (String.ofList chars),
          mark (accepted.map (·.index)) .corrected (mark (rejected.map (·.index)) .conflict issues),
          accepted.map (·.index), rejected.map (·.index), accepted.map (·.edit),
          (gatherFrom rules v 0 issues w).diagnostics, none,
          (gatherFrom rules v 0 issues w).world⟩ := by
  have hsome : (gatherFrom rules v 0 issues w).proposals ≠ [] := by
    intro hnil
    have hnone := accepted_eq_nil.mpr hnil
    rw [hs] at hnone
    exact hne hnone
  rw [apply_of_ok rules source v issues w hsome (by rwa [chosen, hs]), chosen, hs]

theorem issuesAt_map_index {c : Correction σ} {ps : List Proposal} {status : Status}
    (hps : ∀ p ∈ ps, p ∈ (gatherFrom rules v 0 issues w).proposals)
    (hc : ∀ p ∈ ps, c.issues[p.index]? = issues[p.index]?.map (Issue.withStatus status)) :
    (c.issuesAt (ps.map (·.index))).length = ps.length ∧
      ∀ i ∈ c.issuesAt (ps.map (·.index)),
        ∃ j ∈ issues, j.isPending = true ∧ i = j.withStatus status := by
  unfold issuesAt
  induction ps with
  | nil => exact ⟨rfl, fun i hi => absurd hi List.not_mem_nil⟩
  | cons p ps ih =>
    obtain ⟨hlen, hall⟩ := ih (fun q hq => hps q (List.mem_cons_of_mem _ hq))
      (fun q hq => hc q (List.mem_cons_of_mem _ hq))
    obtain ⟨j, hj, hjmem, hpend⟩ :=
      exists_issue_of_mem_proposals rules v issues w (hps p List.mem_cons_self)
    -- the position of a proposal is one of the list, so nothing is dropped
    have hat : c.issues[p.index]? = some (j.withStatus status) := by
      rw [hc p List.mem_cons_self, hj]
      rfl
    rw [List.map_cons, List.filterMap_cons_some hat]
    refine ⟨by rw [List.length_cons, hlen, List.length_cons], fun i hi => ?_⟩
    rcases List.mem_cons.mp hi with rfl | hi
    · exact ⟨j, hjmem, hpend, rfl⟩
    · exact hall i hi

theorem chosen_separated :
    (chosen rules v issues w).Pairwise fun a b => a.stop < b.start := by
  rw [chosen, List.pairwise_map]
  exact selectFrom_separated _ _

/-- An accepted issue is marked last, so it counts as corrected. -/
theorem getElem?_issues_of_accepted {chars : List Char}
    (hne : (gatherFrom rules v 0 issues w).proposals ≠ [])
    (h : Utf8.decode (applyEdits v.bytes (chosen rules v issues w)) = .ok chars) {p : Proposal}
    (hp : p ∈ (select (gatherFrom rules v 0 issues w).proposals).1) :
    (apply rules source v issues w).issues[p.index]?
      = issues[p.index]?.map (Issue.withStatus .corrected) := by
  rw [apply_of_ok rules source v issues w hne h, getElem?_mark_of_mem (List.mem_map_of_mem hp),
    getElem?_mark]
  cases issues[p.index]? with
  | none => rfl
  | some i =>
    simp only [Option.map_some]
    -- An accepted position is marked last, so an earlier mark as conflict does not show.
    split <;> rfl

/-- **A pass of correction whose edited octets are text revises the source.** -/
theorem revised_of_ok {chars : List Char}
    (hne : (gatherFrom rules v 0 issues w).proposals ≠ [])
    (h : Utf8.decode (applyEdits v.bytes (chosen rules v issues w)) = .ok chars) :
    Revised source v issues (apply rules source v issues w) := by
  have heq := apply_of_ok rules source v issues w hne h
  have hacc := fun p => getElem?_issues_of_accepted rules source v issues w hne h (p := p)
  generalize hc : apply rules source v issues w = c at heq hacc ⊢
  -- a rejected issue is not among the accepted
  have hrej : ∀ p ∈ (select (gatherFrom rules v 0 issues w).proposals).2,
      c.issues[p.index]? = issues[p.index]?.map (Issue.withStatus .conflict) := by
    intro p hp
    have hnot : p.index ∉ (select (gatherFrom rules v 0 issues w).proposals).1.map (·.index) := by
      intro hmem
      obtain ⟨q, hq, hqp⟩ := List.mem_map.mp hmem
      exact index_ne_of_mem rules v issues w hq hp hqp
    rw [heq, getElem?_mark_of_not_mem hnot, getElem?_mark_of_mem (List.mem_map_of_mem hp)]
  obtain ⟨hlen, horigin⟩ := issuesAt_map_index rules v issues w
    (fun p hp => mem_proposals_of_mem_accepted rules v issues w hp) hacc
  obtain ⟨-, hconflict⟩ := issuesAt_map_index rules v issues w
    (fun p hp => mem_proposals_of_mem_rejected rules v issues w hp) hrej
  -- The lists of positions are those of the proposals, accepted and rejected.
  have hcorr : c.corrected = (select (gatherFrom rules v 0 issues w).proposals).1.map (·.index) := by
    rw [heq]
  have hconf : c.conflicts = (select (gatherFrom rules v 0 issues w).proposals).2.map (·.index) := by
    rw [heq]
  have hedits : c.edits = chosen rules v issues w := by rw [heq]
  refine ⟨?_, ?_, ?_, ?_, ?_, ?_, ?_⟩
  · rw [hedits, chosen, ne_eq, List.map_eq_nil_iff, accepted_eq_nil]
    exact hne
  · rw [hedits]
    exact chosen_separated rules v issues w
  · -- What was decoded is the text, so its octets are what the edits made.
    rw [hedits, ← Utf8.encode_of_decode h, ← Utf8.ofString_ofList]
    rw [heq, Source.setText_text]
  · rw [heq, Source.setText_text]
  · rw [hcorr, hlen, hedits, chosen, List.length_map]
  · rw [hcorr]
    exact horigin
  · rw [hconf]
    exact hconflict

/-- **The three ways in which a pass of correction ends.** -/
theorem apply_cases :
    ((gatherFrom rules v 0 issues w).proposals = [] ∧
      apply rules source v issues w
        = ⟨source, issues, [], [], [], (gatherFrom rules v 0 issues w).diagnostics, none,
            (gatherFrom rules v 0 issues w).world⟩) ∨
    (∃ bad, Utf8.decode (applyEdits v.bytes (chosen rules v issues w)) = .error bad ∧
      (apply rules source v issues w).fault = some (.notText bad)) ∨
    ((apply rules source v issues w).fault = none ∧
      (apply rules source v issues w).changed = true ∧
      Revised source v issues (apply rules source v issues w)) := by
  -- nothing proposed, an outcome that is no text, or an outcome that is one
  by_cases hne : (gatherFrom rules v 0 issues w).proposals = []
  · exact .inl ⟨hne, apply_of_nil rules source v issues w hne⟩
  · cases h : Utf8.decode (applyEdits v.bytes (chosen rules v issues w)) with
    | error bad => exact .inr (.inl ⟨bad, rfl, apply_of_error rules source v issues w hne h⟩)
    | ok chars =>
      refine .inr (.inr ⟨?_, ?_, revised_of_ok rules source v issues w hne h⟩)
      · rw [apply_of_ok rules source v issues w hne h]
      · rw [changed, apply_of_ok rules source v issues w hne h]
        simp only [Bool.not_eq_true', List.isEmpty_eq_false_iff, ne_eq, List.map_eq_nil_iff]
        -- the first proposal is always accepted
        rwa [accepted_eq_nil]

/-- **A pass of correction raises a fault exactly if the edited octets are not text.** -/
theorem apply_fault_iff (hv : Utf8.IsText v.bytes) :
    (∃ f, (apply rules source v issues w).fault = some f) ↔
      ¬ Utf8.IsText (applyEdits v.bytes (chosen rules v issues w)) := by
  rw [Utf8.isText_iff]
  by_cases hne : (gatherFrom rules v 0 issues w).proposals = []
  · -- without a proposal the octets are as before
    have hsame : applyEdits v.bytes (chosen rules v issues w) = v.bytes := by
      rw [chosen, accepted_eq_nil.mpr hne, List.map_nil, applyEdits, Edit.descending,
        List.mergeSort_nil, List.foldl_nil]
    rw [apply_of_nil rules source v issues w hne, hsame, ← Utf8.isText_iff]
    simp [hv]
  · cases hd : Utf8.decode (applyEdits v.bytes (chosen rules v issues w)) with
    | ok chars =>
      rw [apply_of_ok rules source v issues w hne hd]
      simp
    | error bad =>
      rw [apply_of_error rules source v issues w hne hd]
      simp

theorem exists_pairs {c : Correction σ} {ps : List Proposal} {status : Status}
    (hps : ∀ p ∈ ps, p ∈ (gatherFrom rules v 0 issues w).proposals)
    (hc : ∀ p ∈ ps, c.issues[p.index]? = issues[p.index]?.map (Issue.withStatus status)) :
    ∃ qs : List (Issue × Edit),
      c.issuesAt (ps.map (·.index)) = qs.map (fun q => q.1.withStatus status) ∧
      ps.map (·.edit) = qs.map (·.2) ∧ ∀ q ∈ qs, q.1 ∈ issues ∧ Proposes rules v q.1 q.2 := by
  unfold issuesAt
  induction ps with
  | nil => exact ⟨[], rfl, rfl, fun q hq => absurd hq List.not_mem_nil⟩
  | cons p ps ih =>
    obtain ⟨qs, hissues, hedits, hall⟩ := ih (fun q hq => hps q (List.mem_cons_of_mem _ hq))
      (fun q hq => hc q (List.mem_cons_of_mem _ hq))
    obtain ⟨k, j, hk, hj, hproposes⟩ := exists_of_mem_proposals (hps p List.mem_cons_self)
    -- Positions are counted from zero here.
    obtain rfl : p.index = k := by omega
    have hat : c.issues[p.index]? = some (j.withStatus status) := by
      rw [hc p List.mem_cons_self, hj]
      rfl
    refine ⟨(j, p.edit) :: qs, ?_, ?_, fun q hq => ?_⟩
    · rw [List.map_cons, List.filterMap_cons_some hat, hissues, List.map_cons]
    · rw [List.map_cons, hedits, List.map_cons]
    · rcases List.mem_cons.mp hq with rfl | hq
      · exact ⟨List.mem_of_getElem? hj, hproposes⟩
      · exact hall q hq

/-- **The corrected issues of a revision, each with its edit**, which its rule proposed. -/
theorem exists_pairs_of_changed (hch : (apply rules source v issues w).changed = true) :
    ∃ qs : List (Issue × Edit),
      (apply rules source v issues w).issuesAt (apply rules source v issues w).corrected
        = qs.map (fun q => q.1.withStatus .corrected) ∧
      (apply rules source v issues w).edits = qs.map (·.2) ∧
      ∀ q ∈ qs, q.1 ∈ issues ∧ Proposes rules v q.1 q.2 := by
  have hne : (gatherFrom rules v 0 issues w).proposals ≠ [] := by
    intro hnil
    rw [apply_of_nil rules source v issues w hnil] at hch
    cases hch
  cases h : Utf8.decode (applyEdits v.bytes (chosen rules v issues w)) with
  | error bad =>
    -- nothing is corrected if the edited octets are not text
    have hsome := isEmpty_accepted hne
    unfold chosen at h
    unfold apply at hch
    simp only [hsome, h, Bool.false_eq_true, if_false] at hch
    cases hch
  | ok chars =>
    have heq := apply_of_ok rules source v issues w hne h
    have hacc := fun p => getElem?_issues_of_accepted rules source v issues w hne h (p := p)
    have hcorrected : (apply rules source v issues w).corrected
        = (select (gatherFrom rules v 0 issues w).proposals).1.map (·.index) := by rw [heq]
    have hedits : (apply rules source v issues w).edits = chosen rules v issues w := by rw [heq]
    rw [hcorrected, hedits]
    exact exists_pairs rules v issues w
      (fun p hp => mem_proposals_of_mem_accepted rules v issues w hp) hacc

end Apply

end Lintel.Correction
