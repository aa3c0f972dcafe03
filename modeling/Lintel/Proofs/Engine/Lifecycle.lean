import Lintel.Proofs.Correction.Selection
import Lintel.Proofs.Engine.Counting
import Lintel.Proofs.Engine.Grounds
import Lintel.Proofs.Engine.Marking

/-!
# The life of an issue

The status of an issue changes once at most, and what a report says of its statuses agrees with what
it says of the run. Issues are marked in order (`Living`); this module adds what the marks tell of
the end of the loop. `Judged` is the invariant: the loop has converged, or it has just left
something over, at the end of its budget. Together with what is known of the counters, of the rounds
and of the findings in the present text it makes up `Lived`, which every turn keeps.

That a rule is never asked to correct an issue that is disabled or not correctable does not depend
on the marks. It is read off the calls of each turn, also of one that gives up the source.
-/

namespace Lintel.Engine

variable {σ : Type} {e : Engine σ} {ac : Bool}

/-! ### Convergence along the loop -/

/-- **The loop has converged, or it has just left something over** at the end of its budget. -/
structure Judged (e : Engine σ) (ac : Bool) (m : Machine) : Prop where
  going : m.stage ≠ .done → m.converged = true ∧ m.aborted = false
  /-- Something is left over, and nothing is pending any more. -/
  exhausted : m.converged = false → m.aborted = false ∧ e.maxIterations ≤ m.iterations ∧
    m.current = true ∧ (∃ i ∈ m.issues, i.status = .unresolved) ∧
    ∀ i ∈ m.issues, i.isPending = false
  /-- A run that is not to correct has nothing to keep and nothing to leave over. -/
  spared : ac = false → m.stage ≠ .correcting ∧ m.corrected = [] ∧ m.conflicts = [] ∧
    m.converged = true

theorem Judged.initial (s : Source) : Judged e ac (start ac s) where
  going _ := ⟨rfl, rfl⟩
  exhausted h := by cases h
  spared _ := ⟨(fun h => by cases h), rfl, rfl, rfl⟩

theorem markUnresolved_of_pending {issues : List Issue} (h : issues.any (·.isPending) = true) :
    (∃ i ∈ markUnresolved issues, i.status = .unresolved) ∧
      ∀ i ∈ markUnresolved issues, i.isPending = false := by
  constructor
  · obtain ⟨i, hi, hpend⟩ := List.any_eq_true.mp h
    exact ⟨_, List.mem_map_of_mem hi, by rw [if_pos hpend]; rfl⟩
  · -- what was pending is so no more, and the rest was not
    intro i hi
    obtain ⟨j, -, rfl⟩ := List.mem_map.mp hi
    split
    · rw [Issue.isPending, Issue.withStatus_status]
      exact Bool.and_false _
    · next hpend => exact Bool.not_eq_true _ ▸ hpend

theorem Judged.step {m m' : Machine} {w w' : World σ} (h : Judged e ac m) (hd : m.stage ≠ .done)
    (hm : Moves e ac m w m' w') : Judged e ac m' := by
  obtain ⟨hconv, habort⟩ := h.going hd
  have hnot : ∀ {P : Prop}, m.converged = false → P := fun hc => by
    rw [hconv] at hc
    cases hc
  -- Only the budget makes a run fail to converge, and a run without correction never gets that far.
  cases hm with
  | abort hc => exact ⟨fun hd' => absurd rfl hd', fun hc => hnot hc,
      fun hac => ⟨(fun hs => by cases hs), (h.spared hac).2⟩⟩
  | settle hc hs a ha hp => exact ⟨fun hd' => absurd rfl hd', fun hc => hnot hc,
      fun hac => ⟨(fun hs => by cases hs), (h.spared hac).2⟩⟩
  | exhaust hc hs a ha hac hp hb =>
    refine ⟨fun hd' => absurd rfl hd', fun _ => ⟨habort, hb, rfl, markUnresolved_of_pending hp⟩,
      fun hno => ?_⟩
    rw [hac] at hno
    cases hno
  | proceed hc hs a ha hac hp hb =>
    refine ⟨fun _ => ⟨hconv, habort⟩, fun hc => hnot hc, fun hno => ?_⟩
    rw [hac] at hno
    cases hno
  | rest hc hs hn => exact ⟨fun hd' => absurd rfl hd', fun hc => hnot hc,
      fun hac => absurd hs (h.spared hac).1⟩
  | revise hc hs hch hr => exact ⟨fun _ => ⟨hconv, habort⟩, fun hc => hnot hc,
      fun hac => absurd hs (h.spared hac).1⟩
  | reparse hc hs p hp => exact ⟨fun _ => ⟨hconv, habort⟩, fun hc => hnot hc,
      fun hac => ⟨(fun hs => by cases hs), (h.spared hac).2⟩⟩

/-! ### Reports -/

/-- What holds along a loop whose rules find new issues. -/
structure Lived (e : Engine σ) (ac : Bool) (s : Source) (past : List (Machine × World σ))
    (m : Machine) : Prop where
  tracked : Tracked e s past m
  counted : Counted e ac s past m
  living : Living e ac past m
  judged : Judged e ac m
  untouched : Untouched e m
  asked : ∀ n rule text i, (n, Call.correct rule text i) ∈ e.logOf ac past → i.isPending = true

/-- A turn asks for corrections of pending issues only, even one that gives up the source. -/
theorem Lived.asked_snoc {s : Source} {past : List (Machine × World σ)} {m : Machine} {w : World σ}
    (h : Lived e ac s past m) (hd : m.stage ≠ .done) {n : Nat} {rule text : String} {i : Issue}
    (hcall : (n, Call.correct rule text i) ∈ e.logOf ac (past ++ [(m, w)])) :
    i.isPending = true := by
  obtain ⟨made, hcalls, hturn, -⟩ := exists_turn_calls e ac h.tracked.coherent hd w
  rw [logOf_snoc, logFrom, World.since_eq hcalls] at hcall
  -- A call was logged before this turn, or it is one that the turn made.
  rcases List.mem_append.mp hcall with hcall | hcall
  · exact h.asked n rule text i hcall
  · obtain ⟨c, hc, heq⟩ := List.mem_map.mp hcall
    cases heq
    exact (hturn.asked rule text i hc).2.2

theorem Lived.step (he : ∀ rule ∈ e.correctors, rule.FindsNew) {s : Source}
    {past : List (Machine × World σ)} {m : Machine} {w : World σ} (h : Lived e ac s past m)
    (hd : m.stage ≠ .done) (hf : (e.step ac m w).fault = none) :
    Lived e ac s (past ++ [(m, w)]) (e.step ac m w).machine where
  -- the invariants of other modules go along; only `living` needs the rules to find new issues
  tracked := h.tracked.step (moves_step hd hf).effect
  counted := h.counted.step hd (moves_step hd hf)
  living := h.living.step he (moves_step hd hf) rfl
  judged := h.judged.step hd (moves_step hd hf)
  untouched := h.untouched.step (moves_step hd hf)
  asked _ _ _ _ hcall := h.asked_snoc hd hcall

/-- An issue of the present text is reported, disabled, or left over. -/
theorem Lived.status_of_mem (he : ∀ rule ∈ e.correctors, rule.FindsNew) {s : Source}
    {past : List (Machine × World σ)} {m : Machine} (h : Lived e ac s past m)
    (hcur : m.current = true) {i : Issue} (hi : i ∈ m.issues) :
    (i.status = .reported ∨ i.status = .disabled) ∨
      (i.status = .unresolved ∧ m.converged = false) := by
  obtain ⟨v, j, ⟨r, hr, hfinds⟩, hij⟩ := h.untouched hcur i hi
  have hreported := (he r hr v j hfinds).status
  rcases hij with (rfl | rfl) | ⟨rfl, hconv⟩
  · exact .inl (.inl hreported)
  · exact .inl (.inr rfl)
  · exact .inr ⟨rfl, hconv⟩

/-- **What a report says of its issues**, unless the source was given up. -/
theorem Lived.verdict (he : ∀ rule ∈ e.correctors, rule.FindsNew) {s : Source}
    {past : List (Machine × World σ)} {m : Machine} (h : Lived e ac s past m) :
    (m.converged = false ↔ ∃ i ∈ finalIssues m, i.status = .unresolved) ∧
      (m.converged = false → (m.iterations : Int) = max 0 e.maxIterations ∧ m.aborted = false ∧
        ∀ i ∈ finalIssues m, ¬(i.correctable = true ∧ i.status = .reported)) := by
  refine ⟨⟨fun hconv => ?_, ?_⟩, fun hconv => ?_⟩
  · obtain ⟨-, -, hcur, ⟨i, hi, hstatus⟩, -⟩ := h.judged.exhausted hconv
    refine ⟨i, ?_, hstatus⟩
    rw [finalIssues, if_pos hcur, byLocation, List.mem_mergeSort]
    exact List.mem_append_right _ hi
  · -- only the mark of an exhausted budget makes an issue unresolved
    rintro ⟨i, hi, hstatus⟩
    obtain ⟨hcur, hi⟩ := mem_issues_of_mem_finalIssues h.tracked hi (by rw [hstatus]; decide)
      (by rw [hstatus]; decide)
    rcases h.status_of_mem he hcur hi with (hs | hs) | ⟨-, hconv⟩
    · rw [hs] at hstatus
      cases hstatus
    · rw [hs] at hstatus
      cases hstatus
    · exact hconv
  · obtain ⟨habort, hbudget, hcur, -, hpend⟩ := h.judged.exhausted hconv
    have hspent := h.counted.spent
    refine ⟨by omega, habort, fun i hi hboth => ?_⟩
    obtain ⟨hcorrectable, hreported⟩ := hboth
    obtain ⟨-, hi⟩ := mem_issues_of_mem_finalIssues h.tracked hi (by rw [hreported]; decide)
      (by rw [hreported]; decide)
    have hnot := hpend i hi
    rw [Issue.isPending, hcorrectable, hreported] at hnot
    cases hnot

/-- **The life of an issue.** In every run over rules that hand over a new issue for each finding,
whatever disturbs it and also if the source is given up in the end: the markings of each pass are
orderly, and each object is given one status at most, which is not the one to begin with; a rule is
asked to correct correctable and reported issues only; a report lists issues as the markings of
their pass have left them; and without correction these are reported or disabled. Unless the source
was given up, the run has not converged exactly if the report lists an issue that is left over. Then
the budget was used up, the run was not aborted, and nothing that could be corrected is still
reported.

For an issue that is handed over twice this fails (`handed_twice`). -/
theorem issue_lives (he : ∀ rule ∈ e.correctors, rule.FindsNew) {s : Source}
    (hs : s.Coherent) (ac : Bool) (w : World σ) :
    e.Loops ac (start ac s) w (e.turns ac (start ac s) w) (e.finish ac (start ac s) w) ∧
    (e.process ac s w).1 = e.reportAfter (e.finish ac (start ac s) w) ∧
    ∀ states t, e.Loops ac (start ac s) w states t →
      (∀ n, Marking.Orderly (e.markingsOf ac states n)) ∧
      (∀ o, (e.statusesOf ac states o).length ≤ 1 ∧ .reported ∉ e.statusesOf ac states o) ∧
      (∀ n rule text i, (n, Call.correct rule text i) ∈ e.logOf ac states →
        i.correctable = true ∧ i.status = .reported) ∧
      (∀ i ∈ (e.reportAfter t).issues, ∃ n, i ∈ Marking.outcome (e.markingsOf ac states n)) ∧
      (ac = false → ∀ i ∈ (e.reportAfter t).issues,
        i.status = .reported ∨ i.status = .disabled) ∧
      (t.fault = none →
        ((e.reportAfter t).converged = false ↔
          ∃ i ∈ (e.reportAfter t).issues, i.status = .unresolved) ∧
        ((e.reportAfter t).converged = false →
          ((e.reportAfter t).iterations : Int) = max 0 e.maxIterations ∧
          (e.reportAfter t).aborted = false ∧
          ∀ i ∈ (e.reportAfter t).issues, ¬(i.correctable = true ∧ i.status = .reported))) := by
  refine ⟨loops_finish e ac _ w, process_fst e ac s w, fun states t h => ?_⟩
  have hinit : Lived e ac s [] (start ac s) :=
    ⟨Tracked.initial hs, Counted.initial e ac s, Living.initial s, Judged.initial s,
      Untouched.initial s, fun n rule text i hcall => absurd hcall List.not_mem_nil⟩
  have hpending : ∀ {i : Issue}, i.isPending = true → i.correctable = true ∧ i.status = .reported :=
    fun hpend => by simpa [Issue.isPending] using hpend
  rcases h.cases (fun past m w h hd hf => h.step he hd hf) hinit with
    ⟨hend, -, hf⟩ | ⟨past, m, w', f, hm, hd, hf, rfl, rfl⟩
  · rw [reportAfter_of_ok hf]
    refine ⟨hend.living.orderly, statusesOf_of_orderly hend.living.orderly,
      fun n rule text i hcall => ?_, fun i hi => ?_, fun hac i hi => ?_, fun _ => hend.verdict he⟩
    · exact hpending (hend.asked n rule text i hcall)
    · -- every issue of the report is among those of some pass, as the markings left them
      rcases mem_finalIssues hi with hi | hi | ⟨hcur, hi⟩
      · obtain ⟨n, -, -, hmem⟩ := hend.living.settled i (.inl hi)
        exact ⟨n, hmem⟩
      · obtain ⟨n, -, -, hmem⟩ := hend.living.settled i (.inr hi)
        exact ⟨n, hmem⟩
      · exact ⟨_, hend.living.current hcur ▸ hi⟩
    · -- without correction nothing is kept, so all that is listed was found last
      obtain ⟨-, hcorrected, hconflicts, hconv⟩ := hend.judged.spared hac
      rcases mem_finalIssues hi with hi | hi | ⟨hcur, hi⟩
      · rw [hcorrected] at hi
        cases hi
      · rw [hconflicts] at hi
        cases hi
      · rcases hend.status_of_mem he hcur hi with hstatus | ⟨-, hnot⟩
        · exact hstatus
        · rw [hconv] at hnot
          cases hnot
  · -- the report on a source that was given up lists no issue
    have hnone : ∀ i, i ∉ (e.reportAfter (e.step ac m w')).issues := by
      intro i hi
      unfold reportAfter at hi
      rw [hf] at hi
      cases hi
    have horderly := hm.living.orderly_of_fault hd hf
    refine ⟨horderly, statusesOf_of_orderly horderly, fun n rule text i hcall => ?_,
      fun i hi => absurd hi (hnone i), fun _ i hi => absurd hi (hnone i), fun hok => ?_⟩
    · exact hpending (hm.asked_snoc hd hcall)
    · rw [hf] at hok
      cases hok

/-- The letter a is replaced, and its issue is corrected. Nothing else is ever given a status: the
letter b that takes its place stays reported. -/
theorem specimen_lives :
    (∀ o, (specimen.statusesOf true
        (specimen.turns true (start true (Source.ofText "a")) ⟨{}, false, []⟩) o).length ≤ 1) ∧
      specimen.statusesOf true
        (specimen.turns true (start true (Source.ofText "a")) ⟨{}, false, []⟩) (.own 1 0)
          = [.corrected] := by
  obtain ⟨hloops, -, hlives⟩ := issue_lives specimen_findsNew
    (Source.coherent_ofText "a" none) true ⟨{}, false, []⟩
  refine ⟨fun o => ((hlives _ _ hloops).2.1 o).1, ?_⟩
  decide +kernel

/-! ### One issue twice -/

/-- An issue over the letter a that is not its rule's only mention of it. -/
def twin : Issue := { issueOfA with object := some 0 }

/-- An engine whose rule hands over an issue twice. -/
def twice : Engine Tally :=
  handing fun i => [{ i with object := some 0 }, { i with object := some 0 }]

theorem byStart_twins : byStart [twin, twin] = [twin, twin] :=
  List.mergeSort_of_pairwise (by decide)

/-- The pass finds the issue twice. -/
theorem handed_twins :
    twice.handed (start true (Source.ofText "a")).source ⟨{}, false, []⟩ = [twin, twin] ∧
      (twice.analyze (start true (Source.ofText "a")).source ⟨{}, false, []⟩).1
        = .ok ⟨[twin, twin], []⟩ := by
  constructor
  · exact byStart_twins
  · have hfound : (twice.analyze (start true (Source.ofText "a")).source ⟨{}, false, []⟩).1
        = .ok ⟨silence "a" (byStart [twin, twin]), []⟩ := rfl
    rw [hfound, byStart_twins]
    rfl

def twiceFound : Machine × World Tally :=
  twice.behindPass (Source.ofText "a") ⟨{}, false, []⟩ [twin, twin]

theorem step_twins :
    twice.step true (start true (Source.ofText "a")) ⟨{}, false, []⟩
      = ⟨twiceFound.1, none, twiceFound.2⟩ :=
  step_behindPass rfl handed_twins.2 (by decide) (by decide)

/-- What the rule proposes when it is asked about the issue, and about the issue again. -/
def twiceAsked : Correction.Gathered Tally :=
  let (v, _, w) := twiceFound.1.source.view twice.parser twiceFound.2
  Correction.gatherFrom twice.correctors v 0 [twin, twin] w

/-- The second proposal loses against the first. -/
theorem correction_twins :
    twice.correction twiceFound.1 twiceFound.2
      = ⟨twiceFound.1.source.setText "b",
          [twin.withStatus .corrected, twin.withStatus .conflict], [0], [1],
          [⟨0, 1, "b", Nat.zero_le 1⟩], [], none, twiceAsked.world⟩ := by
  have hselect : Correction.select twiceAsked.proposals
      = ([⟨0, 0, 1, "b", Nat.zero_le 1⟩], [⟨1, 0, 1, "b", Nat.zero_le 1⟩]) :=
    Correction.select_twins
  exact Correction.apply_of_select _ _ _ _ _ hselect (List.cons_ne_nil _ _) Correction.decode_twins

/-- **An issue that is handed over twice may be given two statuses.** What the rule proposes for the
second time loses against what it proposed for the first, so the issue is a conflict before it is
corrected. -/
theorem handed_twice :
    twice.statusesOf true (twice.turns true (start true (Source.ofText "a")) ⟨{}, false, []⟩)
      (.named 0) = [.conflict, .corrected] := by
  have hstep : twice.step true twiceFound.1 twiceFound.2
      = ⟨revised twiceFound.1 (twice.correction twiceFound.1 twiceFound.2), none,
          twiceAsked.world⟩ := by
    rw [step_of_revision rfl rfl (by rw [correction_twins]) (by rw [correction_twins]; rfl),
      correction_twins]
  -- the turns that mark the issue are told one by one, the others are computed
  rw [turns_of_step (by decide) (by rw [step_twins]), step_twins,
    turns_of_step (m := twiceFound.1) (by decide) (by rw [hstep]), hstep, statusesOf,
    List.flatMap_cons, List.flatMap_cons, markingsFrom_of_analyze true rfl rfl handed_twins.2,
    markingsFrom_of_correcting true rfl rfl, step_twins, handed_twins.1, correction_twins]
  decide +kernel

end Lintel.Engine
