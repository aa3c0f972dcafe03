import Lintel.Proofs.Correction.Selection
import Mathlib.Data.List.Perm.Subperm

/-!
# The order in which issues are found

A pass of correction refers to issues by their positions in a list, and the order of that list is
the order in which they were found. It has hardly any influence: `apply_rearranged` compares a pass
with one over the same issues in another order, and says that the second is the first with its
positions moved along. The same edits are applied in the same order, the same issues are corrected
and in conflict, and the same failures are put on record.

Two things are asked for. The answers of the rules must not depend on what a rule remembers
(`Steady`), since the rules are called in another order; and where several edits start at the same
offset, their issues must keep their order, since it is what decides between them (`KeepsTies`).

The reason is that the selection goes through the proposals in an order that is **one and the same**
for every order of the issues: the proposals of the rearranged pass are those of the other one with
their positions moved (`mem_proposals_rearranged`), and the order of their starts, ties in order of
their issues, leaves no choice (`inOrder_rearranged`). What is accepted then is a matter of the
edits alone (`selectFrom_moved`), although each decision depends on those before it.
-/

namespace Lintel

/-- **The second list has the issues of the first one in another order**: the issue at a position of
the first is found at the place of this position in the second. -/
structure Rearranged (place : Nat → Nat) (issues issues' : List Issue) : Prop where
  length_eq : issues'.length = issues.length
  injective : ∀ j < issues.length, ∀ k < issues.length, place j = place k → j = k
  getElem? : ∀ k < issues.length, issues'[place k]? = issues[k]?

namespace Rearranged

variable {place : Nat → Nat} {issues issues' : List Issue}

theorem place_lt (h : Rearranged place issues issues') {k : Nat} (hk : k < issues.length) :
    place k < issues'.length := by
  have hat := h.getElem? k hk
  rw [List.getElem?_eq_getElem hk] at hat
  exact (List.getElem?_eq_some_iff.mp hat).1

/-- The places are the positions of the second list, in another order. -/
theorem places_perm (h : Rearranged place issues issues') :
    ((List.range issues.length).map place).Perm (List.range issues'.length) := by
  have hnodup : ((List.range issues.length).map place).Nodup := by
    refine List.Nodup.map_on (fun j hj k hk => ?_) List.nodup_range
    exact h.injective j (List.mem_range.mp hj) k (List.mem_range.mp hk)
  have hsubset : (List.range issues.length).map place ⊆ List.range issues'.length := by
    intro m hm
    obtain ⟨k, hk, rfl⟩ := List.mem_map.mp hm
    exact List.mem_range.mpr (h.place_lt (List.mem_range.mp hk))
  -- different positions, as many as there are, leave none out
  refine (List.subperm_of_subset hnodup hsubset).perm_of_length_le ?_
  rw [List.length_map, List.length_range, List.length_range, h.length_eq]

theorem exists_place (h : Rearranged place issues issues') {m : Nat} (hm : m < issues'.length) :
    ∃ k < issues.length, place k = m := by
  obtain ⟨k, hk, hkm⟩ := List.mem_map.mp (h.places_perm.mem_iff.mpr (List.mem_range.mpr hm))
  exact ⟨k, List.mem_range.mp hk, hkm⟩

/-- **A rearranged list is a permutation.** -/
theorem perm (h : Rearranged place issues issues') : issues'.Perm issues := by
  -- a list is what is read at the positions in order
  have hread : ∀ xs : List Issue, (List.range xs.length).map (xs[·]?) = xs.map some := fun xs =>
    List.ext_getElem (by simp) (by simp)
  have hmoved : ((List.range issues.length).map place).map (issues'[·]?) = issues.map some := by
    rw [← hread, List.map_map]
    exact List.map_congr_left fun k hk => h.getElem? k (List.mem_range.mp hk)
  have hperm := h.places_perm.map (issues'[·]?)
  rw [hmoved, hread] at hperm
  exact ((List.map_perm_map_iff (Option.some_injective _)).mp hperm).symm

theorem filterMap (h : Rearranged place issues issues') {positions : List Nat}
    (hin : ∀ k ∈ positions, k < issues.length) :
    (positions.map place).filterMap (issues'[·]?) = positions.filterMap (issues[·]?) := by
  rw [List.filterMap_map]
  exact List.filterMap_congr fun k hk => h.getElem? k (hin k hk)

theorem mark (h : Rearranged place issues issues') {positions : List Nat}
    (hin : ∀ k ∈ positions, k < issues.length) (status : Status) :
    Rearranged place (Correction.mark positions status issues)
      (Correction.mark (positions.map place) status issues') := by
  refine ⟨by rw [Correction.length_mark, Correction.length_mark, h.length_eq], ?_, ?_⟩
  · rw [Correction.length_mark]
    exact h.injective
  · rw [Correction.length_mark]
    intro k hk
    -- two positions with the same place are the same
    have hmarked : (positions.map place).contains (place k) = positions.contains k := by
      rw [Bool.eq_iff_iff, List.contains_iff_mem, List.contains_iff_mem, List.mem_map]
      constructor
      · rintro ⟨j, hj, hjk⟩
        rwa [← h.injective j (hin j hj) k hk hjk]
      · exact fun hmem => ⟨k, hmem, rfl⟩
    rw [Correction.getElem?_mark, Correction.getElem?_mark, h.getElem? k hk, hmarked]

end Rearranged

def Proposal.moved (place : Nat → Nat) (p : Proposal) : Proposal :=
  { p with index := place p.index }

namespace Correction

variable {σ : Type}

/-- The corrections that the rules propose do not depend on what they remember. -/
def Steady (rules : List (Rule σ)) (v : View) : Prop :=
  ∀ rule ∈ rules, ∀ i memory memory',
    (rule.correct v i memory).answer = (rule.correct v i memory').answer

/-- Issues that are offered edits with the same start keep their order. -/
def KeepsTies (place : Nat → Nat) (rules : List (Rule σ)) (v : View) (issues : List Issue)
    (w : World σ) : Prop :=
  ∀ j k e f, j < k → Offers rules v issues w j e → Offers rules v issues w k f →
    e.start = f.start → place j < place k

/-- **A pass over rearranged issues comes to the same as the other one**, at other positions. -/
structure Moved (place : Nat → Nat) (c c' : Correction σ) : Prop where
  source : c'.source = c.source
  fault : c'.fault = c.fault
  edits : c'.edits = c.edits
  corrected : c'.corrected = c.corrected.map place
  conflicts : c'.conflicts = c.conflicts.map place
  correctedIssues : c'.issuesAt c'.corrected = c.issuesAt c.corrected
  conflictIssues : c'.issuesAt c'.conflicts = c.issuesAt c.conflicts
  issues : Rearranged place c.issues c'.issues
  diagnostics : c'.diagnostics.Perm c.diagnostics

/-! ### The selection -/

/-- **What is accepted does not depend on the positions of the issues.** -/
theorem selectFrom_moved (place : Nat → Nat) (last : Option Nat) (ps : List Proposal) :
    selectFrom last (ps.map (Proposal.moved place))
      = ((selectFrom last ps).1.map (Proposal.moved place),
          (selectFrom last ps).2.map (Proposal.moved place)) := by
  induction ps generalizing last with
  | nil => rfl
  | cons p ps ih =>
    -- moving renumbers a proposal, and selection reads the edit alone
    have hedit : (p.moved place).edit = p.edit := rfl
    rw [List.map_cons, selectFrom, selectFrom, hedit]
    split
    · rw [ih]
      rfl
    · rw [ih]
      rfl

theorem Ahead.asymm {p q : Proposal} (h : Ahead p q) : ¬ Ahead q p := by
  unfold Ahead at h ⊢
  omega

/-! ### Failures -/

def failing (rules : List (Rule σ)) (v : View) (memory : σ) (i : Issue) : Option Diagnostic :=
  match answerer rules i with
  | none => none
  | some rule =>
    match verdict v.bytes.length i (rule.correct v i memory).answer with
    | .error f => some (.ofFault i.rule v.path .correct f)
    | .ok _ => none

/-- **Each issue has its own failure**, if it has one, whatever the rules were asked before. -/
theorem Steady.diagnostics_eq {rules : List (Rule σ)} {v : View} (h : Steady rules v)
    (memory : σ) (index : Nat) (issues : List Issue) (w : World σ) :
    (gatherFrom rules v index issues w).diagnostics
      = issues.filterMap (failing rules v memory) := by
  -- On the issues, from any world: a steady rule answers as it would from `memory`.
  induction issues generalizing index w with
  | nil => rfl
  | cons i more ih =>
    cases ha : answerer rules i with
    | none =>
      have hnone : failing rules v memory i = none := by rw [failing, ha]
      rw [gatherFrom_cons_none ha, ih, List.filterMap_cons_none hnone]
    | some rule =>
      rw [gatherFrom_cons_some ha, h rule (mem_of_answerer ha) i w.memory memory]
      cases hv : verdict v.bytes.length i (rule.correct v i memory).answer with
      | error f =>
        have hsome : failing rules v memory i = some (.ofFault i.rule v.path .correct f) := by
          rw [failing, ha]
          simp only [hv]
        rw [List.filterMap_cons_some hsome, ← ih]
        rfl
      | ok proposed =>
        have hnone : failing rules v memory i = none := by
          rw [failing, ha]
          simp only [hv]
        rw [List.filterMap_cons_none hnone, ← ih]
        cases proposed <;> rfl

/-! ### Rearranged issues -/

section Apply

variable {place : Nat → Nat} {rules : List (Rule σ)} {v : View} {issues issues' : List Issue}

theorem Offers.elsewhere (hsteady : Steady rules v) {w : World σ} {k m : Nat} {e : Edit}
    (h : Offers rules v issues w k e) (hat : issues'[m]? = issues[k]?) (w' : World σ) :
    Offers rules v issues' w' m e := by
  obtain ⟨i, rule, hi, hpending, hrule, hanswer, hinside⟩ := h
  have hsame := hsteady rule (mem_of_answerer (answerer_eq_some.mpr ⟨hpending, hrule⟩)) i
    (memoryAt rules v issues' w' m) (memoryAt rules v issues w k)
  exact ⟨i, rule, hat.trans hi, hpending, hrule, hsame.trans hanswer, hinside⟩

theorem Offers.lt_length {w : World σ} {k : Nat} {e : Edit} (h : Offers rules v issues w k e) :
    k < issues.length := by
  obtain ⟨i, -, hi, -⟩ := h
  exact (List.getElem?_eq_some_iff.mp hi).1

/-- The proposals of the rearranged pass are those of the other one, moved. -/
theorem mem_proposals_rearranged (hsteady : Steady rules v) (h : Rearranged place issues issues')
    (w w' : World σ) (p : Proposal) :
    p ∈ (gatherFrom rules v 0 issues' w').proposals ↔
      p ∈ (gatherFrom rules v 0 issues w).proposals.map (Proposal.moved place) := by
  rw [mem_proposals_zero, List.mem_map]
  constructor
  · -- every position of the new list is the place of one of the old
    intro hoffer
    obtain ⟨k, hk, hplace⟩ := h.exists_place hoffer.lt_length
    have hat := h.getElem? k hk
    rw [hplace] at hat
    refine ⟨⟨k, p.edit⟩, ?_, by rw [Proposal.moved, hplace]⟩
    exact (mem_proposals_zero rules v issues w).mpr (hoffer.elsewhere hsteady hat.symm w)
  · rintro ⟨q, hq, rfl⟩
    have hoffer := (mem_proposals_zero rules v issues w).mp hq
    exact hoffer.elsewhere hsteady (h.getElem? _ hoffer.lt_length) w'

/-- **Both passes go through the proposals in the same order.** -/
theorem inOrder_rearranged (hsteady : Steady rules v) (h : Rearranged place issues issues')
    {w : World σ} (hties : KeepsTies place rules v issues w) (w' : World σ) :
    inOrder (gatherFrom rules v 0 issues' w').proposals
      = (inOrder (gatherFrom rules v 0 issues w).proposals).map (Proposal.moved place) := by
  have hnodup : ∀ (is : List Issue) (u : World σ), (gatherFrom rules v 0 is u).proposals.Nodup :=
    fun is u => List.nodup_iff_pairwise_ne.mpr <| (pairwise_index 0 is u).imp fun hlt heq => by
      rw [heq] at hlt
      exact Nat.lt_irrefl _ hlt
  have hperm : (gatherFrom rules v 0 issues' w').proposals.Perm
      ((gatherFrom rules v 0 issues w).proposals.map (Proposal.moved place)) := by
    refine (List.perm_ext_iff_of_nodup (hnodup issues' w') ?_).mpr
      (mem_proposals_rearranged hsteady h w w')
    -- positions that differ have different places
    refine List.Nodup.map_on (fun p hp q hq hpq => ?_) (hnodup issues w)
    have hp := (mem_proposals_zero rules v issues w).mp hp
    have hq := (mem_proposals_zero rules v issues w).mp hq
    obtain ⟨j, e⟩ := p
    obtain ⟨k, f⟩ := q
    injection hpq with hplace hedit
    obtain rfl : j = k := h.injective j hp.lt_length k hq.lt_length hplace
    obtain rfl : e = f := hedit
    rfl
  -- Moved proposals keep their order: by start, and at equal starts because ties are kept.
  have hahead : ((inOrder (gatherFrom rules v 0 issues w).proposals).map
      (Proposal.moved place)).Pairwise Ahead := by
    rw [List.pairwise_map]
    refine (inOrder_ahead (pairwise_index 0 issues w)).imp_of_mem fun {p q} hp hq hpq => ?_
    have hp := (mem_proposals_zero rules v issues w).mp ((List.mergeSort_perm _ _).mem_iff.mp hp)
    have hq := (mem_proposals_zero rules v issues w).mp ((List.mergeSort_perm _ _).mem_iff.mp hq)
    rcases hpq with hlt | ⟨heq, hlt⟩
    · exact .inl hlt
    · exact .inr ⟨heq, hties _ _ _ _ hlt hp hq heq⟩
  -- Both lists hold the same proposals in the strict order, so they are equal.
  refine List.Perm.eq_of_pairwise (fun p q _ _ hpq hqp => absurd hqp hpq.asymm)
    (inOrder_ahead (pairwise_index 0 issues' w')) hahead ?_
  exact (List.mergeSort_perm _ _).trans
    (hperm.trans ((List.mergeSort_perm _ _).symm.map (Proposal.moved place)))

/-- Both passes accept and reject the same, at other positions. -/
theorem select_rearranged (hsteady : Steady rules v) (h : Rearranged place issues issues')
    {w : World σ} (hties : KeepsTies place rules v issues w) (w' : World σ) :
    select (gatherFrom rules v 0 issues' w').proposals
      = ((select (gatherFrom rules v 0 issues w).proposals).1.map (Proposal.moved place),
          (select (gatherFrom rules v 0 issues w).proposals).2.map (Proposal.moved place)) := by
  rw [select, inOrder_rearranged hsteady h hties w', selectFrom_moved]
  rfl

theorem chosen_rearranged (hsteady : Steady rules v) (h : Rearranged place issues issues')
    {w : World σ} (hties : KeepsTies place rules v issues w) (w' : World σ) :
    chosen rules v issues' w' = chosen rules v issues w := by
  rw [chosen, select_rearranged hsteady h hties w', List.map_map]
  rfl

theorem diagnostics_rearranged (hsteady : Steady rules v) (h : Rearranged place issues issues')
    (w w' : World σ) :
    (gatherFrom rules v 0 issues' w').diagnostics.Perm
      (gatherFrom rules v 0 issues w).diagnostics := by
  rw [hsteady.diagnostics_eq w.memory, hsteady.diagnostics_eq w.memory]
  exact h.perm.filterMap _

theorem lt_length_of_mem_index {w : World σ} {ps : List Proposal}
    (hps : ∀ p ∈ ps, p ∈ (gatherFrom rules v 0 issues w).proposals) :
    ∀ k ∈ ps.map (·.index), k < issues.length := by
  intro k hk
  obtain ⟨p, hp, rfl⟩ := List.mem_map.mp hk
  exact ((mem_proposals_zero rules v issues w).mp (hps p hp)).lt_length

theorem map_index_moved (place : Nat → Nat) (ps : List Proposal) :
    (ps.map (Proposal.moved place)).map (·.index) = (ps.map (·.index)).map place := by
  rw [List.map_map, List.map_map]
  rfl

/-- **The order in which issues are found only breaks ties.** If the corrections do not depend on
what the rules remember, a pass over the issues in another order comes to the same as long as the
issues whose edits start together keep their order: the same text, the same edits, the same issues
corrected and in conflict, in the same order, the same status for every issue and the same
failures. -/
theorem apply_rearranged (hsteady : Steady rules v) (h : Rearranged place issues issues')
    {w : World σ} (hties : KeepsTies place rules v issues w) (source : Source) (w' : World σ) :
    Moved place (apply rules source v issues w) (apply rules source v issues' w') := by
  have hselect := select_rearranged hsteady h hties w'
  have hchosen := chosen_rearranged hsteady h hties w'
  have hdiagnostics := diagnostics_rearranged hsteady h w w'
  by_cases hnil : (gatherFrom rules v 0 issues w).proposals = []
  · -- nothing is proposed in either pass
    have hnil' : (gatherFrom rules v 0 issues' w').proposals = [] := by
      rw [← accepted_eq_nil, hselect, accepted_eq_nil.mpr hnil, List.map_nil]
    rw [apply_of_nil rules source v issues w hnil, apply_of_nil rules source v issues' w' hnil']
    exact ⟨rfl, rfl, rfl, rfl, rfl, rfl, rfl, h, hdiagnostics⟩
  · have hsome : (gatherFrom rules v 0 issues' w').proposals ≠ [] := by
      rw [ne_eq, ← accepted_eq_nil, hselect, List.map_eq_nil_iff, accepted_eq_nil]
      exact hnil
    have haccepted := lt_length_of_mem_index fun p =>
      mem_proposals_of_mem_accepted rules v issues w (p := p)
    have hrejected := lt_length_of_mem_index fun p =>
      mem_proposals_of_mem_rejected rules v issues w (p := p)
    have hconflict := h.mark hrejected .conflict
    have hmarked : ∀ {k}, k < issues.length → k < (mark ((select
        (gatherFrom rules v 0 issues w).proposals).2.map (·.index)) .conflict issues).length :=
      fun hk => hk.trans_eq (length_mark _ _ _).symm
    cases hd : Utf8.decode (applyEdits v.bytes (chosen rules v issues w)) with
    -- The same octets fail to decode in both passes, with the same complaint.
    | error bad =>
      have hd' := hd
      rw [← hchosen] at hd'
      rw [apply_of_bad rules source v issues w hnil hd,
        apply_of_bad rules source v issues' w' hsome hd', hselect, map_index_moved]
      have hconflicts := hconflict.filterMap fun k hk => hmarked (hrejected k hk)
      exact ⟨rfl, rfl, rfl, rfl, rfl, rfl, hconflicts, hconflict, hdiagnostics⟩
    | ok chars =>
      have hd' := hd
      rw [← hchosen] at hd'
      rw [apply_of_ok rules source v issues w hnil hd,
        apply_of_ok rules source v issues' w' hsome hd', hselect, map_index_moved,
        map_index_moved, hchosen]
      -- The marks go in the same order in both, conflicts before corrections.
      have hmark := hconflict.mark (fun k hk => hmarked (haccepted k hk)) .corrected
      have hcorrected := hmark.filterMap fun k hk =>
        (hmarked (haccepted k hk)).trans_eq (length_mark _ _ _).symm
      have hconflicts := hmark.filterMap fun k hk =>
        (hmarked (hrejected k hk)).trans_eq (length_mark _ _ _).symm
      exact ⟨rfl, rfl, rfl, rfl, rfl, hcorrected, hconflicts, hmark, hdiagnostics⟩

end Apply

/-! ### The crowd in another order -/

/-- The crowd from its end to its start, but for the two issues whose edits start together. -/
def turned : List Issue :=
  [(noted 6 8 (.replace 6 8 "")).withStatus .disabled, noted 6 7 (.replace 5 7 ""),
    noted 5 7 .decline, noted 5 7 (.refuse "no"), noted 2 4 (.replace 3 4 "y"),
    noted 0 3 (.replace 0 3 "X"), noted 0 1 (.replace 0 0 "!"), noted 5 6 (.replace 5 5 "-")]

/-- Where the issues of the crowd stand in the other order. -/
def turn (k : Nat) : Nat :=
  [7, 5, 6, 4, 3, 2, 1, 0].getD k k

/-- The same edits are taken in the other order, and the same text results. -/
theorem turned_moved :
    Moved turn (apply [player] (Source.ofText "abcdefgh") crowded crowd quietWorld)
        (apply [player] (Source.ofText "abcdefgh") crowded turned quietWorld) ∧
      (apply [player] (Source.ofText "abcdefgh") crowded turned quietWorld).corrected = [5, 7] ∧
      (apply [player] (Source.ofText "abcdefgh") crowded turned quietWorld).conflicts = [6, 4] ∧
      (apply [player] (Source.ofText "abcdefgh") crowded turned quietWorld).source.text
        = "Xde-fgh" := by
  have hsteady : Steady [player] crowded := by
    intro rule hrule i memory memory'
    rw [List.mem_singleton.mp hrule]
    rfl
  have hplaces : Rearranged turn crowd turned := ⟨rfl, by decide, by decide⟩
  have hproposals : (gatherFrom [player] crowded 0 crowd quietWorld).proposals
      = [⟨0, 5, 5, "-", by decide⟩, ⟨1, 0, 3, "X", by decide⟩, ⟨2, 0, 0, "!", by decide⟩,
          ⟨3, 3, 4, "y", by decide⟩] := rfl
  -- Two of the four edits start at the same offset, and they keep their order.
  have hties : KeepsTies turn [player] crowded crowd quietWorld := by
    intro j k e f hlt he hf hstart
    have he := (mem_proposals_zero [player] crowded crowd quietWorld (p := ⟨j, e⟩)).mpr he
    have hf := (mem_proposals_zero [player] crowded crowd quietWorld (p := ⟨k, f⟩)).mpr hf
    have hall : ∀ p ∈ (gatherFrom [player] crowded 0 crowd quietWorld).proposals,
        ∀ q ∈ (gatherFrom [player] crowded 0 crowd quietWorld).proposals,
        p.index < q.index → p.edit.start = q.edit.start → turn p.index < turn q.index := by
      rw [hproposals]
      decide
    exact hall _ he _ hf hlt hstart
  -- The general theorem gives the second pass; only the first one is computed.
  have hmoved := apply_rearranged hsteady hplaces hties (Source.ofText "abcdefgh") quietWorld
  have hne : (gatherFrom [player] crowded 0 crowd quietWorld).proposals ≠ [] := List.cons_ne_nil _ _
  have heq := apply_of_ok [player] (Source.ofText "abcdefgh") crowded crowd quietWorld hne
    decode_crowd
  refine ⟨hmoved, hmoved.corrected.trans ?_, hmoved.conflicts.trans ?_,
    (congrArg Source.text hmoved.source).trans ?_⟩
  · rw [heq, select_crowd]
    rfl
  · rw [heq, select_crowd]
    rfl
  · rw [heq]
    rfl

end Correction
end Lintel
