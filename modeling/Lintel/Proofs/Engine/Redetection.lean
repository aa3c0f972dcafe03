import Lintel.Proofs.Edit.Landing
import Lintel.Proofs.Engine.Accounting
import Lintel.Proofs.Engine.Grounds

/-!
# Conflicts that are found again

An issue that lost against an edit is not gone: its octets are, as a rule, still there, and the next
pass finds it again. The report is to list it once. A conflict is therefore left out if the last
pass has an issue of the same rule at the place where the conflict has moved to.

A conflict refers to the text before the last round of edits, and the last pass to the text after
it. What it means that both speak of the same place is told by octets: the one that a conflict is
about **survives** the round and **lands** somewhere in the new text (`Edit.landing`). The range
that `mapRange` computes holds all of these places, so a conflict that is still listed shares none
of its surviving octets with an issue of its rule (`not_covers_of_kept`). The other way round, only
an issue of the same rule in or at the mapped range makes a conflict disappear.

The bookkeeping behind it is that of the rounds: `Tracked` says that the conflicts and the edits
which the machine keeps are those of the latest round, also if the loop rests without an edit or is
aborted while it is correcting.
-/

namespace Lintel

def Issue.Covers (i : Issue) (offset : Int) : Prop :=
  i.start ≤ offset ∧ offset < i.stop

/-- The issue is of the same rule as the conflict, and starts where the conflict has moved to under
some edits or shares octets with the range that it has moved to. -/
def Issue.Meets (i : Issue) (edits : List Edit) (conflict : Issue) : Prop :=
  i.rule = conflict.rule ∧
    (i.start = (mapRange conflict.start conflict.stop edits).1 ∨
      i.start < (mapRange conflict.start conflict.stop edits).2 ∧
        (mapRange conflict.start conflict.stop edits).1 < i.stop)

def octetsBefore (bs : Bytes) (rounds : List Round) : Bytes :=
  octetsAfter bs rounds.dropLast

namespace Engine

variable {σ : Type} {e : Engine σ} {ac : Bool}

/-! ### The latest round -/

theorem octetsAfter_eq_applyEdits (bs : Bytes) (rounds : List Round) :
    octetsAfter bs rounds = applyEdits (octetsBefore bs rounds) (latestEdits rounds) := by
  rcases List.eq_nil_or_concat rounds with rfl | ⟨before, r, rfl⟩
  · exact (applyEdits_nil bs).symm
  · rw [List.concat_eq_append, octetsAfter_snoc, latestEdits_snoc, octetsBefore,
      List.dropLast_concat]

theorem latestEdits_separated {rounds : List Round} (h : ∀ r ∈ rounds, r.Sound) :
    (latestEdits rounds).Pairwise fun a b => a.stop < b.start := by
  rcases List.eq_nil_or_concat rounds with rfl | ⟨before, r, rfl⟩
  · exact List.Pairwise.nil
  · rw [List.concat_eq_append] at h ⊢
    rw [latestEdits_snoc]
    exact (h r (List.mem_append_right _ (List.mem_singleton.mpr rfl))).separated

/-! ### Detection once more -/

theorem redetected_iff {edits : List Edit} {issues : List Issue} {conflict : Issue} :
    redetected edits issues conflict = true ↔ ∃ i ∈ issues, i.Meets edits conflict := by
  unfold redetected
  simp only [List.any_eq_true, Bool.and_eq_true, Bool.or_eq_true, beq_iff_eq, decide_eq_true_eq]
  exact Iff.rfl

/-- The status of an issue does not matter for whether a conflict was found again. -/
theorem redetected_listed (edits : List Edit) (converged : Bool) (p : Pass) (conflict : Issue) :
    redetected edits (listed converged p) conflict = redetected edits p.issues conflict := by
  unfold listed
  split
  · rfl
  · -- A status is no part of what meeting a conflict asks for.
    have hmark : ∀ i : Issue, (if i.isPending then i.withStatus .unresolved else i).Meets edits
        conflict ↔ i.Meets edits conflict := by
      intro i
      split
      · exact Iff.rfl
      · exact Iff.rfl
    rw [Bool.eq_iff_iff, redetected_iff, redetected_iff]
    constructor
    · rintro ⟨i, hi, hmeets⟩
      obtain ⟨j, hj, rfl⟩ := List.mem_map.mp hi
      exact ⟨j, hj, (hmark j).mp hmeets⟩
    · rintro ⟨i, hi, hmeets⟩
      exact ⟨_, List.mem_map_of_mem hi, (hmark i).mpr hmeets⟩

/-- **A conflict that was not found again shares nothing that survives** with an issue of its
rule. -/
theorem not_covers_of_kept {edits : List Edit}
    (h : edits.Pairwise fun a b => a.stop < b.start) {issues : List Issue} {conflict : Issue}
    (hkept : redetected edits issues conflict = false) {offset : Nat}
    (hs : Edit.Survives edits offset) (ho : conflict.Covers offset) {i : Issue} (hi : i ∈ issues)
    (hrule : i.rule = conflict.rule) : ¬ i.Covers (Edit.landing edits offset) := by
  rintro ⟨hstart, hstop⟩
  obtain ⟨hfirst, hlast⟩ := landing_mem_mapRange h hs ho.1 ho.2
  -- where the octet lands, the issue and the mapped range overlap
  have hmeets : i.Meets edits conflict := ⟨hrule, .inr ⟨by omega, by omega⟩⟩
  have hagain := redetected_iff.mpr ⟨i, hi, hmeets⟩
  rw [hkept] at hagain
  cases hagain

/-! ### Reports -/

/-- An issue that the last pass lists as a conflict was handed over as one. -/
theorem Untouched.found_of_conflict {m : Machine} (h : Untouched e m) (hc : m.current = true)
    {i : Issue} (hi : i ∈ m.issues) (hs : i.status = .conflict) : ∃ v, e.Found v i := by
  obtain ⟨v, j, hfound, (rfl | rfl) | ⟨rfl, -⟩⟩ := h hc i hi
  · exact ⟨v, hfound⟩
  · cases hs
  · cases hs

/-- **A report lists every finding once.** It is about a text that had the octets `old` before the
latest round, and about a pass over the text as it is now. Of the conflicts of that round some are
kept and the others are dropped. -/
structure ListsOnce (e : Engine σ) (old : Bytes) (rounds : List Round) (r : SourceReport) (p : Pass)
    (kept dropped : List Issue) : Prop where
  conflicts : (latestConflicts rounds).Perm (kept ++ dropped)
  issues : r.issues.Perm (rounds.flatMap (·.corrected) ++ kept ++ listed r.converged p)
  /-- An octet that survives the latest edits is found where it lands. -/
  lands : ∀ offset < old.length, Edit.Survives (latestEdits rounds) offset →
    ∃ k : Nat, Edit.landing (latestEdits rounds) offset = k ∧
      (Utf8.ofString r.source.text)[k]? = old[offset]?
  /-- No issue of the same rule covers the landing of an octet that a kept conflict covers. -/
  once : ∀ c ∈ kept, ∀ offset : Nat, c.Covers offset → Edit.Survives (latestEdits rounds) offset →
    ∀ i ∈ p.issues, i.rule = c.rule → ¬ i.Covers (Edit.landing (latestEdits rounds) offset)
  /-- A conflict is dropped for an issue of the same rule that stands in its place. -/
  again : ∀ c ∈ dropped, ∃ i ∈ p.issues, i.Meets (latestEdits rounds) c
  /-- All conflicts that the report lists are kept ones, unless a rule has handed one over. -/
  others : ∀ c ∈ r.issues, c.status = .conflict → c ∈ kept ∨ ∃ v, e.Found v c

theorem not_found_of_conflict (he : ∀ rule ∈ e.correctors, rule.FindsNew) {v : View}
    {c : Issue} (hc : c.status = .conflict) : ¬ e.Found v c := by
  rintro ⟨rule, hrule, memory, found, hans, hi⟩
  have hfound := (he rule hrule v c ⟨memory, found, hans, hi⟩).status
  rw [hc] at hfound
  cases hfound

/-- **How a loop ends that has looked at its text**: its report lists every finding once. -/
theorem listsOnce_of_looked {s : Source} {past : List (Machine × World σ)} {m : Machine}
    (ht : Tracked e s past m) (hu : Untouched e m) (hcur : m.current = true) {p : Pass}
    (hissues : m.issues = listed m.converged p) :
    ∃ kept dropped, ListsOnce e (octetsBefore (Utf8.ofString s.text) (e.roundsOf past))
      (e.roundsOf past) (reportOf m) p kept dropped := by
  have hseparated := latestEdits_separated ht.sound
  have hperm := perm_of_looked ht hcur
  rw [hissues] at hperm
  simp only [redetected_listed] at hperm
  -- The conflicts kept are those not found again, the others are dropped.
  refine ⟨_, _, (List.filter_append_perm _ _).symm, hperm, ?_, ?_, ?_, ?_⟩
  · intro offset ho hsurvives
    change ∃ k : Nat, _ ∧ (Utf8.ofString m.source.text)[k]? = _
    -- the final text is what the latest edits made of the text before them
    rw [ht.octets, octetsAfter_eq_applyEdits]
    exact Edit.getElem?_applyEdits_landing hseparated ho hsurvives
  · intro c hc offset ho hsurvives i hi hrule
    have hkept := (List.mem_filter.mp hc).2
    rw [Bool.not_eq_true'] at hkept
    exact not_covers_of_kept hseparated hkept hsurvives ho hi hrule
  · intro c hc
    have hagain := (List.mem_filter.mp hc).2
    rw [Bool.not_not] at hagain
    exact redetected_iff.mp hagain
  · -- an open conflict of the report that was not kept was handed over as one by a rule
    intro c hc hstatus
    rcases List.mem_append.mp (hperm.mem_iff.mp hc) with hc | hc
    · rcases List.mem_append.mp hc with hc | hc
      · have hcorrected := ht.corrected_status (ht.corrected ▸ hc)
        rw [hstatus] at hcorrected
        cases hcorrected
      · exact .inl hc
    · rw [← hissues] at hc
      exact .inr (hu.found_of_conflict hcur hc hstatus)

/-- **No finding is listed twice.** Whatever rules and parser do and whatever disturbs the run of a
source, unless it is given up: either the run was aborted before a pass over the final text, or the
report lists the issues of a last pass over this text, and it lists every finding once. Then the
conflicts in the report are those that were kept, provided that rules hand over new issues
(otherwise see `handed_conflict`).

The run that `Engine.process` makes is one of those spoken of. -/
theorem report_lists_once (e : Engine σ) (ac : Bool) {s : Source} (hs : s.Coherent) (w : World σ) :
    e.Loops ac (start ac s) w (e.turns ac (start ac s) w) (e.finish ac (start ac s) w) ∧
    (e.process ac s w).1 = e.reportAfter (e.finish ac (start ac s) w) ∧
    ∀ states t, e.Loops ac (start ac s) w states t → t.fault = none →
      ((e.reportAfter t).passes = (e.reportAfter t).iterations ∧
        (e.reportAfter t).aborted = true) ∨
      ∃ p kept dropped,
        (e.passesOf states).getLast? = some p ∧
        (e.reportAfter t).passes = (e.reportAfter t).iterations + 1 ∧
        p.version = (e.reportAfter t).iterations ∧ p.text = (e.reportAfter t).source.text ∧
        ListsOnce e (octetsBefore (Utf8.ofString s.text) (e.roundsOf states)) (e.roundsOf states)
          (e.reportAfter t) p kept dropped ∧
        ((∀ rule ∈ e.correctors, rule.FindsNew) →
          ∀ c ∈ (e.reportAfter t).issues, c.status = .conflict → c ∈ kept) := by
  refine ⟨loops_finish e ac _ w, process_fst e ac s w, fun states t hloops hf => ?_⟩
  obtain ⟨htracked, hstanding⟩ := hloops.history hs hf
  have hdone := hloops.stage_eq_done hf
  have hreport : e.reportAfter t = reportOf t.machine := by rw [reportAfter, hf]
  rw [hreport]
  cases hstanding with
  -- The run was cancelled before it looked at its last text: no findings are reported.
  | ahead _ haborted hn _ _ =>
    refine .inl ⟨?_, haborted hdone⟩
    change t.machine.passes = t.machine.iterations
    rw [htracked.passes, htracked.iterations, hn]
  | looked p hl hn hver htext hcur hissues _ =>
    obtain ⟨kept, dropped, honce⟩ :=
      listsOnce_of_looked htracked (hloops.untouched hf) hcur hissues
    refine .inr ⟨p, kept, dropped, hl, ?_, hver, htext, honce, fun hreported c hc hstatus => ?_⟩
    · change t.machine.passes = t.machine.iterations + 1
      rw [htracked.passes, htracked.iterations, hn]
    · rcases honce.others c hc hstatus with hkept | ⟨v, hfound⟩
      · exact hkept
      · exact absurd hfound (not_found_of_conflict hreported hstatus)

/-! ### A specimen

Three rules want to change the text `ab`, and the first one gets to. One of the conflicts is about
two letters that are not found again, the other about a letter that is. -/

/-- An engine that replaces a by cc, ab by z and b by y, once. -/
def crowding : Engine Tally where
  rules := [wordRule 0 "ReplaceA" "a" (some "cc"), wordRule 1 "ReplaceAB" "ab" (some "z"),
    wordRule 2 "ReplaceB" "b" (some "y")]
  parseRule := .ofKind Rules.unparsable
  parser := Scripted.flatParser
  maxIterations := 1
  cwd := "/work"

/-- The issue over a, which is corrected. -/
def foundA : Issue := { issueOfA with rule := "Test/ReplaceA" }

/-- The issue over ab, which is gone when a is. -/
def foundAB : Issue :=
  { issueOfA with rule := "Test/ReplaceAB", stop := 2, endLocation := some ⟨1, 2⟩ }

def foundB (offset : Nat) : Issue :=
  { issueOfA with
    rule := "Test/ReplaceB", location := ⟨1, offset + 1⟩, start := offset, stop := offset + 1,
    endLocation := some ⟨1, offset + 1⟩ }

theorem crowding_analyze :
    (crowding.analyze (start true (Source.ofText "ab")).source ⟨{}, false, []⟩).1
      = .ok ⟨[foundA, foundAB, foundB 1], []⟩ := by
  have hfound : (crowding.analyze (start true (Source.ofText "ab")).source ⟨{}, false, []⟩).1
      = .ok ⟨silence "ab" (byStart [foundA, foundAB, foundB 1]), []⟩ := rfl
  rw [hfound, byStart, List.mergeSort_of_pairwise (by decide)]
  rfl

def crowdingFound : Machine × World Tally :=
  crowding.behindPass (Source.ofText "ab") ⟨{}, false, []⟩ [foundA, foundAB, foundB 1]

def crowdingAsked : Correction.Gathered Tally :=
  let (v, _, w) := crowdingFound.1.source.view crowding.parser crowdingFound.2
  Correction.gatherFrom crowding.correctors v 0 [foundA, foundAB, foundB 1] w

/-- The outcome of asking them: of the three proposals the first is accepted. -/
def crowdingRound : Correction Tally :=
  ⟨crowdingFound.1.source.setText "ccb",
    [foundA.withStatus .corrected, foundAB.withStatus .conflict, (foundB 1).withStatus .conflict],
    [0], [1, 2], [⟨0, 1, "cc", Nat.zero_le 1⟩], [], none, crowdingAsked.world⟩

theorem correction_crowding :
    crowding.correction crowdingFound.1 crowdingFound.2 = crowdingRound := by
  have hproposals : crowdingAsked.proposals
      = [⟨0, 0, 1, "cc", by decide⟩, ⟨1, 0, 2, "z", by decide⟩, ⟨2, 1, 2, "y", by decide⟩] := rfl
  -- `a` and `ab` start together and `b` touches `a`, so only the first is taken
  have hselect : Correction.select crowdingAsked.proposals
      = ([⟨0, 0, 1, "cc", by decide⟩], [⟨1, 0, 2, "z", by decide⟩, ⟨2, 1, 2, "y", by decide⟩]) := by
    rw [hproposals, Correction.select, Correction.inOrder, List.mergeSort_of_pairwise (by decide)]
    rfl
  have hdecode : Utf8.decode (applyEdits (Utf8.ofString "ab") [⟨0, 1, "cc", Nat.zero_le 1⟩])
      = .ok ['c', 'c', 'b'] := by decide +kernel
  exact Correction.apply_of_select _ _ _ _ _ hselect (List.cons_ne_nil _ _) hdecode

theorem run_crowding :
    crowding.turns true (start true (Source.ofText "ab")) ⟨{}, false, []⟩
        = (start true (Source.ofText "ab"), ⟨{}, false, []⟩) :: crowdingFound
          :: crowding.turns true (revised crowdingFound.1 crowdingRound) crowdingAsked.world ∧
      crowding.finish true (start true (Source.ofText "ab")) ⟨{}, false, []⟩
        = crowding.finish true (revised crowdingFound.1 crowdingRound) crowdingAsked.world := by
  -- one pass and one round; the rest of the run need not be computed
  have hpass : crowding.step true (start true (Source.ofText "ab")) ⟨{}, false, []⟩
      = ⟨crowdingFound.1, none, crowdingFound.2⟩ :=
    step_behindPass rfl crowding_analyze (by decide) (by decide)
  have hround : crowding.step true crowdingFound.1 crowdingFound.2
      = ⟨revised crowdingFound.1 crowdingRound, none, crowdingAsked.world⟩ := by
    rw [step_of_revision rfl rfl (by rw [correction_crowding]; rfl)
      (by rw [correction_crowding]; rfl), correction_crowding]
    rfl
  constructor
  · rw [turns_of_step (by decide) (by rw [hpass]), hpass,
      turns_of_step (m := crowdingFound.1) (by decide) (by rw [hround]), hround]
  · rw [finish_of_step (by decide) (by rw [hpass]), hpass,
      finish_of_step (m := crowdingFound.1) (by decide) (by rw [hround]), hround]

theorem rounds_crowding :
    crowding.rounds true (Source.ofText "ab") ⟨{}, false, []⟩
      = [⟨[⟨0, 1, "cc", Nat.zero_le 1⟩], [foundA.withStatus .corrected],
          [foundAB.withStatus .conflict, (foundB 1).withStatus .conflict]⟩] := by
  have hround := roundFrom_of_changed (e := crowding) (m := crowdingFound.1)
    (w := crowdingFound.2) rfl rfl (by rw [correction_crowding]; rfl)
  rw [correction_crowding] at hround
  -- The first turn looks and the second one corrects; what comes after is computed.
  rw [rounds, run_crowding.1, roundsOf,
    List.filterMap_cons_none (roundFrom_of_stage rfl (by decide)),
    List.filterMap_cons_some hround]
  decide +kernel

theorem passes_crowding :
    crowding.passes true (Source.ofText "ab") ⟨{}, false, []⟩
      = [⟨0, "ab", [foundA, foundAB, foundB 1]⟩, ⟨1, "ccb", [foundB 2]⟩] := by
  rw [passes, run_crowding.1, passesOf,
    List.filterMap_cons_some (passFrom_of_analyze rfl rfl crowding_analyze),
    List.filterMap_cons_none (passFrom_of_stage (m := crowdingFound.1) rfl (by decide))]
  decide +kernel

theorem crowding_findsNew : ∀ rule ∈ crowding.correctors, rule.FindsNew := by
  intro rule hrule
  simp only [crowding, correctors, List.cons_append, List.nil_append, List.mem_cons,
    List.not_mem_nil, or_false] at hrule
  -- three rules that look for a word, and the parse rule
  rcases hrule with rfl | rfl | rfl | rfl
  · exact (wordRule_findsRanges _ _ _ _).findsNew
  · exact (wordRule_findsRanges _ _ _ _).findsNew
  · exact (wordRule_findsRanges _ _ _ _).findsNew
  · exact Rules.findsNew List.mem_cons_self

/-- Two lists that together hold two elements, one of which is not in the first and the other not in
the second, hold one each. -/
theorem eq_singletons_of_perm {α : Type} {x y : α} {xs ys : List α} (h : [x, y].Perm (xs ++ ys))
    (hx : y ∉ xs) (hy : x ∉ ys) : xs = [x] ∧ ys = [y] := by
  have hlength := h.length_eq
  rw [List.length_append] at hlength
  -- each of the two is in one of the lists, and not in the other
  have hmemx : x ∈ xs := by
    rcases List.mem_append.mp (h.mem_iff.mp List.mem_cons_self) with hmem | hmem
    · exact hmem
    · exact absurd hmem hy
  have hmemy : y ∈ ys := by
    rcases List.mem_append.mp (h.mem_iff.mp (List.mem_cons_of_mem _ List.mem_cons_self)) with
      hmem | hmem
    · exact absurd hmem hx
    · exact hmem
  have hposx := List.length_pos_of_mem hmemx
  have hposy := List.length_pos_of_mem hmemy
  have htwo : [x, y].length = 2 := rfl
  obtain ⟨a, rfl⟩ := List.length_eq_one_iff.mp (by omega : xs.length = 1)
  obtain ⟨b, rfl⟩ := List.length_eq_one_iff.mp (by omega : ys.length = 1)
  rw [List.mem_singleton.mp hmemx, List.mem_singleton.mp hmemy]
  exact ⟨rfl, rfl⟩

/-- The conflict over ab is kept and listed. The one over b is dropped, for b is found again. -/
theorem crowding_lists_once :
    ∃ p kept dropped,
      (crowding.passes true (Source.ofText "ab") ⟨{}, false, []⟩).getLast? = some p ∧
      ListsOnce crowding (Utf8.ofString "ab")
        (crowding.rounds true (Source.ofText "ab") ⟨{}, false, []⟩)
        (crowding.process true (Source.ofText "ab") ⟨{}, false, []⟩).1 p kept dropped ∧
      kept = [foundAB.withStatus .conflict] ∧ dropped = [(foundB 1).withStatus .conflict] ∧
      ∀ c ∈ (crowding.process true (Source.ofText "ab") ⟨{}, false, []⟩).1.issues,
        c.status = .conflict → c = foundAB.withStatus .conflict := by
  obtain ⟨hloops, hprocess, hall⟩ := report_lists_once crowding true
    (Source.coherent_ofText "ab" none) ⟨{}, false, []⟩
  have hfault : (crowding.finish true (start true (Source.ofText "ab")) ⟨{}, false, []⟩).fault
      = none := by
    rw [run_crowding.2]
    decide +kernel
  have haborted : (crowding.reportAfter
      (crowding.finish true (start true (Source.ofText "ab")) ⟨{}, false, []⟩)).aborted = false := by
    rw [run_crowding.2]
    decide +kernel
  rcases hall _ _ hloops hfault with ⟨-, habort⟩ | ⟨p, kept, dropped, hp, -, -, -, honce, hlisted⟩
  · rw [haborted] at habort
    cases habort
  · change ListsOnce crowding (octetsBefore _
      (crowding.rounds true (Source.ofText "ab") ⟨{}, false, []⟩))
      (crowding.rounds true (Source.ofText "ab") ⟨{}, false, []⟩) _ p kept dropped at honce
    change (crowding.passes true (Source.ofText "ab") ⟨{}, false, []⟩).getLast? = some p at hp
    -- the values of the run are computed: one pass after one round
    have hlast : p = ⟨1, "ccb", [foundB 2]⟩ := by
      rw [passes_crowding] at hp
      exact (Option.some.inj hp).symm
    have hbefore : octetsBefore (Utf8.ofString (Source.ofText "ab").text)
        (crowding.rounds true (Source.ofText "ab") ⟨{}, false, []⟩) = Utf8.ofString "ab" := by
      rw [rounds_crowding]
      rfl
    have hedits : latestEdits (crowding.rounds true (Source.ofText "ab") ⟨{}, false, []⟩)
        = [⟨0, 1, "cc", Nat.zero_le 1⟩] := by rw [rounds_crowding]; rfl
    -- the octet of b survives, and where it lands b is found again
    have hgone : (foundB 1).withStatus .conflict ∉ kept := by
      intro hmem
      refine honce.once _ hmem 1 ⟨by decide, by decide⟩ ?_ (foundB 2) ?_ rfl ?_
      · rw [hedits]
        intro f hf
        rw [List.mem_singleton.mp hf]
        exact .inr (Nat.le_refl 1)
      · rw [hlast]
        exact List.mem_singleton.mpr rfl
      · rw [hedits]
        exact ⟨by decide +kernel, by decide +kernel⟩
    -- nothing that the last pass found is of the rule for ab
    have hkept : foundAB.withStatus .conflict ∉ dropped := by
      intro hmem
      obtain ⟨i, hi, hrule, -⟩ := honce.again _ hmem
      rw [hlast] at hi
      rw [List.mem_singleton.mp hi] at hrule
      exact absurd hrule (by decide)
    have hconflicts := honce.conflicts
    rw [rounds_crowding] at hconflicts
    obtain ⟨rfl, rfl⟩ := eq_singletons_of_perm hconflicts hgone hkept
    rw [hbefore, ← hprocess] at honce
    rw [← hprocess] at hlisted
    refine ⟨p, _, _, hp, honce, rfl, rfl, fun c hc hstatus => ?_⟩
    exact List.mem_singleton.mp (hlisted crowding_findsNew c hc hstatus)

/-- **A rule may hand over a conflict.** Then the last pass itself holds an issue that covers what
the conflict covers, and the text was never edited. -/
theorem handed_conflict :
    ((handing fun i => [i.withStatus .conflict]).finish true (start true (Source.ofText "a"))
        ⟨{}, false, []⟩).fault = none ∧
      (handing fun i => [i.withStatus .conflict]).passes true (Source.ofText "a") ⟨{}, false, []⟩
        = [⟨0, "a", [issueOfA.withStatus .conflict]⟩] ∧
      (handing fun i => [i.withStatus .conflict]).rounds true (Source.ofText "a") ⟨{}, false, []⟩
        = [] ∧
      ((handing fun i => [i.withStatus .conflict]).process true (Source.ofText "a")
        ⟨{}, false, []⟩).1.issues = [issueOfA.withStatus .conflict] ∧
      (issueOfA.withStatus .conflict).Covers 0 ∧ Edit.Survives [] 0 ∧
      (issueOfA.withStatus .conflict).Covers (Edit.landing [] 0) := by
  refine ⟨by decide +kernel, by decide +kernel, by decide +kernel, by decide +kernel, ?_, ?_, ?_⟩
  · exact ⟨by decide, by decide⟩
  · exact fun e he => absurd he List.not_mem_nil
  · exact ⟨by decide, by decide⟩

end Engine

end Lintel
