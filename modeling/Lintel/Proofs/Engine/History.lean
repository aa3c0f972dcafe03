import Lintel.Proofs.Engine.Course

/-!
# The loop and its histories

What the machine keeps agrees with what happened. Two invariants say so, and both hold along every
run:

* `Tracked` — the text is the first text with the edits of all rounds applied, one round after the
  other; the counters count passes and rounds; the corrected issues are those of all rounds, the
  conflicts and the edits those of the latest one.
* `Standing` — where the findings stand. Either the machine is **ahead** of its findings, because
  the text is new or nothing has been asked yet; or it has **looked** at the text as it is now, and
  its issues are those of the last pass.

A turn does one of three things to the histories (`Effect`): it adds nothing, it completes a pass,
or it makes a round. The invariants are stepped along these three, not along the seven moves.
-/

namespace Lintel

structure Round.Sound (r : Round) : Prop where
  edits_ne_nil : r.edits ≠ []
  separated : r.edits.Pairwise fun a b => a.stop < b.start
  length_corrected : r.corrected.length = r.edits.length
  corrected_status : ∀ i ∈ r.corrected, i.status = .corrected
  conflict_status : ∀ i ∈ r.conflicts, i.status = .conflict

def octetsAfter (bs : Bytes) (rounds : List Round) : Bytes :=
  rounds.foldl (fun bs r => applyEdits bs r.edits) bs

theorem octetsAfter_snoc (bs : Bytes) (rounds : List Round) (r : Round) :
    octetsAfter bs (rounds ++ [r]) = applyEdits (octetsAfter bs rounds) r.edits := by
  unfold octetsAfter
  rw [List.foldl_append, List.foldl_cons, List.foldl_nil]

namespace Engine

variable {σ : Type} {e : Engine σ} {ac : Bool}

/-! ### What a turn does to the histories -/

/-- The machine is as before, but for its place in the loop, the diagnostics, and what the source
keeps of its text. -/
structure Kept (m m' : Machine) : Prop where
  text : m'.source.text = m.source.text
  path : m'.source.path = m.source.path
  coherent : m.source.Coherent → m'.source.Coherent
  issues : m'.issues = m.issues
  corrected : m'.corrected = m.corrected
  conflicts : m'.conflicts = m.conflicts
  lastEdits : m'.lastEdits = m.lastEdits
  current : m'.current = m.current
  passes : m'.passes = m.passes
  iterations : m'.iterations = m.iterations
  converged : m'.converged = m.converged

/-- How a turn that adds nothing to the histories moves the machine on. -/
inductive Passing (m : Machine) (w : World σ) (m' : Machine) : Prop where
  | abort (hc : w.cancelled = true) (hs : m'.stage = .done) (ha : m'.aborted = true)
  /-- No edit was proposed. -/
  | rest (hs : m.stage = .correcting) (hs' : m'.stage = .done)
  /-- The new text was parsed. -/
  | reparse (hs : m.stage = .reparsing) (hs' : m'.stage = .analyzing)

/-- What a completed pass with findings `a` makes of the machine, whose source is now `s`. The
issues are those of the pass, unless the budget is used up. -/
def AfterPass (m : Machine) (s : Source) (a : Analysis) (m' : Machine) : Prop :=
  ∃ stage issues converged,
    m' = { looked m s a with stage := stage, issues := issues, converged := converged } ∧
    ((stage = .done ∨ stage = .correcting) ∧ issues = a.issues ∧ converged = m.converged ∨
      stage = .done ∧ issues = markUnresolved a.issues ∧ converged = false)

/-- **What a turn does to the histories.** -/
inductive Effect (e : Engine σ) (m : Machine) (w : World σ) (m' : Machine) : Prop where
  /-- It adds nothing. -/
  | idle (hp : e.passFrom (m, w) = none) (hr : e.roundFrom (m, w) = none) (hk : Kept m m')
      (hs : Passing m w m')
  | look (a : Analysis) (ha : (e.analyze m.source w).1 = .ok a) (hs : m.stage = .analyzing)
      (hp : e.passFrom (m, w) = some ⟨m.iterations, m.source.text, a.issues⟩)
      (hr : e.roundFrom (m, w) = none)
      (hm : AfterPass m (e.analyze m.source w).2.1 a m')
  | revise (hs : m.stage = .correcting) (hp : e.passFrom (m, w) = none)
      (hr : e.roundFrom (m, w) = some ⟨(e.correction m w).edits,
        (e.correction m w).issuesAt (e.correction m w).corrected,
        (e.correction m w).issuesAt (e.correction m w).conflicts⟩)
      (hv : Correction.Revised (m.source.view e.parser w).2.1 (m.source.view e.parser w).1 m.issues
        (e.correction m w))
      (hm : m' = revised m (e.correction m w))

/-- A pass that is completed adds itself to the histories and nothing else. -/
theorem effect_of_looked {m : Machine} {w : World σ} {m' : Machine} {a : Analysis}
    (hc : w.cancelled = false) (hs : m.stage = .analyzing)
    (ha : (e.analyze m.source w).1 = .ok a) (hm : AfterPass m (e.analyze m.source w).2.1 a m') :
    Effect e m w m' :=
  .look a ha hs (passFrom_of_analyze hc hs ha) (roundFrom_of_stage hs (by decide)) hm

theorem Moves.effect {m m' : Machine} {w w' : World σ} (h : Moves e ac m w m' w') :
    Effect e m w m' := by
  cases h with
  | abort hc =>
    -- nothing but the stage and the mark of an aborted run has changed
    refine .idle (passFrom_of_cancelled hc) (roundFrom_of_cancelled hc) ?_ (.abort hc rfl rfl)
    exact ⟨rfl, rfl, fun h => h, rfl, rfl, rfl, rfl, rfl, rfl, rfl, rfl⟩
  | settle hc hs a ha hp =>
    exact effect_of_looked hc hs ha ⟨.done, a.issues, m.converged, rfl, .inl ⟨.inl rfl, rfl, rfl⟩⟩
  | exhaust hc hs a ha hac hp hb =>
    exact effect_of_looked hc hs ha ⟨.done, _, false, rfl, .inr ⟨rfl, rfl, rfl⟩⟩
  | proceed hc hs a ha hac hp hb =>
    exact effect_of_looked hc hs ha
      ⟨.correcting, a.issues, m.converged, rfl, .inl ⟨.inr rfl, rfl, rfl⟩⟩
  | rest hc hs hn =>
    refine .idle (passFrom_of_stage hs (by decide)) (roundFrom_of_nil hn) ?_ (.rest hs rfl)
    exact ⟨Source.view_text _ _ _, Source.view_path _ _ _, fun h => h.view e.parser w, rfl, rfl,
      rfl, rfl, rfl, rfl, rfl, rfl⟩
  | revise hc hs hch hr =>
    exact .revise hs (passFrom_of_stage hs (by decide)) (roundFrom_of_changed hc hs hch) hr rfl
  | reparse hc hs p hp =>
    refine .idle (passFrom_of_stage hs (by decide)) (roundFrom_of_stage hs (by decide)) ?_
      (.reparse hs rfl)
    exact ⟨Source.reparse_text _ _ _, Source.reparse_path _ _ _, fun h => h.reparse e.parser w, rfl,
      rfl, rfl, rfl, rfl, rfl, rfl, rfl⟩

/-! ### The machine agrees with the histories -/

/-- The conflicts of the latest round; none before the first. -/
def latestConflicts (rounds : List Round) : List Issue :=
  (rounds.getLast?.map (·.conflicts)).getD []

/-- The edits of the latest round; none before the first. -/
def latestEdits (rounds : List Round) : List Edit :=
  (rounds.getLast?.map (·.edits)).getD []

theorem latestConflicts_snoc (rounds : List Round) (r : Round) :
    latestConflicts (rounds ++ [r]) = r.conflicts := by
  rw [latestConflicts, List.getLast?_concat]
  rfl

theorem latestEdits_snoc (rounds : List Round) (r : Round) :
    latestEdits (rounds ++ [r]) = r.edits := by
  rw [latestEdits, List.getLast?_concat]
  rfl

theorem latestConflicts_status {rounds : List Round} (h : ∀ r ∈ rounds, r.Sound) :
    ∀ i ∈ latestConflicts rounds, i.status = .conflict := by
  intro i hi
  unfold latestConflicts at hi
  cases hl : rounds.getLast? with
  | none =>
    rw [hl] at hi
    cases hi
  -- the latest round is one of the rounds, all of which are sound
  | some r =>
    rw [hl] at hi
    exact (h r (List.mem_of_getLast? hl)).conflict_status i hi

/-- What the machine keeps agrees with the states behind. -/
structure Tracked (e : Engine σ) (s : Source) (past : List (Machine × World σ)) (m : Machine) :
    Prop where
  coherent : m.source.Coherent
  path : m.source.path = s.path
  octets : Utf8.ofString m.source.text = octetsAfter (Utf8.ofString s.text) (e.roundsOf past)
  iterations : m.iterations = (e.roundsOf past).length
  passes : m.passes = (e.passesOf past).length
  corrected : m.corrected = (e.roundsOf past).flatMap (·.corrected)
  conflicts : m.conflicts = latestConflicts (e.roundsOf past)
  lastEdits : m.lastEdits = latestEdits (e.roundsOf past)
  sound : ∀ r ∈ e.roundsOf past, r.Sound

theorem Tracked.initial {s : Source} (h : s.Coherent) : Tracked e s [] (start ac s) where
  coherent := ⟨h.bytes, h.starts⟩
  path := rfl
  octets := rfl
  iterations := rfl
  passes := rfl
  corrected := rfl
  conflicts := rfl
  lastEdits := rfl
  sound := fun _ hr => absurd hr List.not_mem_nil

section Turns

variable {s : Source} {past : List (Machine × World σ)} {m m' : Machine} {w : World σ}

theorem Tracked.idle (h : Tracked e s past m) (hp : e.passFrom (m, w) = none)
    (hr : e.roundFrom (m, w) = none) (hk : Kept m m') : Tracked e s (past ++ [(m, w)]) m' := by
  -- neither a pass nor a round: the histories stay, and so does what they are told from
  have hrounds := roundsOf_snoc_none e past _ hr
  exact
    { coherent := hk.coherent h.coherent
      path := hk.path.trans h.path
      octets := by rw [hrounds, hk.text, h.octets]
      iterations := by rw [hrounds, hk.iterations, h.iterations]
      passes := by rw [passesOf_snoc_none e past _ hp, hk.passes, h.passes]
      corrected := by rw [hrounds, hk.corrected, h.corrected]
      conflicts := by rw [hrounds, hk.conflicts, h.conflicts]
      lastEdits := by rw [hrounds, hk.lastEdits, h.lastEdits]
      sound := by rw [hrounds]; exact h.sound }

theorem Tracked.look (h : Tracked e s past m) {p : Pass} (hp : e.passFrom (m, w) = some p)
    (hr : e.roundFrom (m, w) = none) {a : Analysis}
    (hm : AfterPass m (e.analyze m.source w).2.1 a m') : Tracked e s (past ++ [(m, w)]) m' := by
  -- a pass changes stage and issues, and the memo of the source at most
  obtain ⟨stage, issues, converged, rfl, -⟩ := hm
  have hrounds := roundsOf_snoc_none e past _ hr
  have hsource := analyze_source e m.source w
  refine
    { coherent := ?_
      path := ?_
      octets := ?_
      iterations := by rw [hrounds]; exact h.iterations
      passes := ?_
      corrected := by rw [hrounds]; exact h.corrected
      conflicts := by rw [hrounds]; exact h.conflicts
      lastEdits := by rw [hrounds]; exact h.lastEdits
      sound := by rw [hrounds]; exact h.sound }
  · change (e.analyze m.source w).2.1.Coherent
    rw [hsource]
    exact h.coherent.view e.parser w
  · change (e.analyze m.source w).2.1.path = s.path
    rw [hsource, Source.view_path, h.path]
  · change Utf8.ofString (e.analyze m.source w).2.1.text = _
    rw [hsource, Source.view_text, h.octets, hrounds]
  · change m.passes + 1 = _
    rw [passesOf_snoc_some e past _ hp, List.length_append, h.passes]
    rfl

theorem Tracked.revise (h : Tracked e s past m) (hp : e.passFrom (m, w) = none)
    (hr : e.roundFrom (m, w) = some ⟨(e.correction m w).edits,
      (e.correction m w).issuesAt (e.correction m w).corrected,
      (e.correction m w).issuesAt (e.correction m w).conflicts⟩)
    (hv : Correction.Revised (m.source.view e.parser w).2.1 (m.source.view e.parser w).1 m.issues
      (e.correction m w)) :
    Tracked e s (past ++ [(m, w)]) (revised m (e.correction m w)) := by
  have hrounds := roundsOf_snoc_some e past _ hr
  have hview := Source.view_fst h.coherent e.parser w
  refine
    { coherent := ?_
      path := ?_
      octets := ?_
      iterations := ?_
      passes := by rw [passesOf_snoc_none e past _ hp]; exact h.passes
      corrected := ?_
      conflicts := by rw [hrounds, latestConflicts_snoc]; rfl
      lastEdits := by rw [hrounds, latestEdits_snoc]; rfl
      sound := ?_ }
  · -- with the new text, everything that was kept of the old one is dropped
    change (e.correction m w).source.Coherent
    rw [hv.source_eq]
    exact Source.coherent_setText _ _
  · change (e.correction m w).source.path = s.path
    rw [hv.source_eq, Source.setText_path, Source.view_path, h.path]
  · -- the edits refer to the octets of the view, which are those of the text
    change Utf8.ofString (e.correction m w).source.text = _
    rw [hv.octets, hview, View.ofText_bytes, h.octets, hrounds, octetsAfter_snoc]
  · change m.iterations + 1 = _
    rw [hrounds, List.length_append, h.iterations]
    rfl
  · change m.corrected ++ _ = _
    rw [hrounds, List.flatMap_append, List.flatMap_singleton, h.corrected]
  · intro r hr'
    rw [hrounds, List.mem_append, List.mem_singleton] at hr'
    rcases hr' with hr' | rfl
    · exact h.sound r hr'
    · exact ⟨hv.edits_ne_nil, hv.separated, hv.length_corrected,
        fun i hi => hv.corrected_status hi, fun i hi => hv.conflict_status hi⟩

/-- **A turn keeps the machine in agreement with the histories.** -/
theorem Tracked.step (h : Tracked e s past m) (hf : Effect e m w m') :
    Tracked e s (past ++ [(m, w)]) m' := by
  cases hf with
  | idle hp hr hk hs => exact h.idle hp hr hk
  | look a ha hs hp hr hm => exact h.look hp hr hm
  | revise hs hp hr hv hm =>
    subst hm
    exact h.revise hp hr hv

end Turns

/-! ### Where the findings stand -/

/-- The issues of a pass as a report lists them: those that were pending are left over if the
budget was used up. -/
def listed (converged : Bool) (p : Pass) : List Issue :=
  if converged then p.issues else markUnresolved p.issues

/-- **Where the findings stand** with respect to the text. -/
inductive Standing (e : Engine σ) (past : List (Machine × World σ)) (m : Machine) : Prop where
  /-- No pass has been completed on the text. Only at the very start the issues, of which there are
  none, count as current, and only an aborted loop ends here. -/
  | ahead (hs : m.stage ≠ .correcting) (ha : m.stage = .done → m.aborted = true)
      (hn : (e.passesOf past).length = (e.roundsOf past).length) (hv : m.converged = true)
      (hc : m.current = true → e.roundsOf past = [] ∧ m.issues = [])
  /-- The last pass was completed on the text, and its issues are those of the machine. -/
  | looked (p : Pass) (hl : (e.passesOf past).getLast? = some p)
      (hn : (e.passesOf past).length = (e.roundsOf past).length + 1)
      (hver : p.version = m.iterations) (ht : p.text = m.source.text) (hc : m.current = true)
      (hi : m.issues = listed m.converged p)
      (hs : m.stage = .correcting ∧ m.converged = true ∨ m.stage = .done)

theorem Standing.initial (s : Source) : Standing e [] (start ac s) :=
  .ahead (by simp [start]) (by simp [start]) rfl rfl fun _ => ⟨rfl, rfl⟩

theorem Standing.idle {past : List (Machine × World σ)} {m m' : Machine} {w : World σ}
    (h : Standing e past m) (hp : e.passFrom (m, w) = none) (hr : e.roundFrom (m, w) = none)
    (hk : Kept m m') (hs : Passing m w m') : Standing e (past ++ [(m, w)]) m' := by
  have hpasses := passesOf_snoc_none e past _ hp
  have hrounds := roundsOf_snoc_none e past _ hr
  cases h with
  | ahead hne _ hn hv hc =>
    -- a machine that is ahead is not correcting, so it does not rest
    obtain ⟨hne', ha⟩ : m'.stage ≠ .correcting ∧ (m'.stage = .done → m'.aborted = true) := by
      cases hs with
      | abort hc hs ha => exact ⟨by rw [hs]; decide, fun _ => ha⟩
      | rest hs hs' => exact absurd hs hne
      | reparse hs hs' =>
        rw [hs']
        exact ⟨by decide, fun h => by cases h⟩
    refine .ahead hne' ha (by rw [hpasses, hrounds, hn]) (hk.converged.trans hv) fun hcur => ?_
    rw [hrounds, hk.issues]
    exact hc (hk.current ▸ hcur)
  | looked p hl hn hver ht hc hi hst =>
    -- a machine that has looked is not about to parse
    have hdone : m'.stage = .done := by
      cases hs with
      | abort hc hs ha => exact hs
      | rest hs hs' => exact hs'
      | reparse hs hs' =>
        rcases hst with ⟨hst, -⟩ | hst <;> rw [hs] at hst <;> cases hst
    refine .looked p (by rw [hpasses, hl]) (by rw [hpasses, hrounds, hn]) ?_ ?_ ?_ ?_ (.inr hdone)
    · rw [hk.iterations, hver]
    · rw [hk.text, ht]
    · rw [hk.current, hc]
    · rw [hk.issues, hk.converged, hi]

/-- **A turn keeps the findings and the text in step.** -/
theorem Standing.step {past : List (Machine × World σ)} {m m' : Machine} {w : World σ}
    (h : Standing e past m) (hd : m.stage ≠ .done) (hf : Effect e m w m') :
    Standing e (past ++ [(m, w)]) m' := by
  cases hf with
  | idle hp hr hk hs => exact h.idle hp hr hk hs
  | look a ha hs hp hr hm =>
    obtain ⟨stage, issues, converged, rfl, hcases⟩ := hm
    have hpasses := passesOf_snoc_some e past _ hp
    have hrounds := roundsOf_snoc_none e past _ hr
    -- a machine that is about to look is ahead of its findings
    cases h with
    | looked p _ _ _ _ _ _ hst =>
      rcases hst with ⟨hst, -⟩ | hst <;> rw [hs] at hst <;> cases hst
    | ahead _ _ hn hv _ =>
      refine .looked ⟨m.iterations, m.source.text, a.issues⟩ ?_ ?_ rfl ?_ rfl ?_ ?_
      · rw [hpasses, List.getLast?_concat]
      · rw [hpasses, hrounds, List.length_append, hn]
        rfl
      · change m.source.text = (e.analyze m.source w).2.1.text
        rw [analyze_source, Source.view_text]
      · change issues = if converged = true then a.issues else markUnresolved a.issues
        -- issues are listed as they were found, or left over if the budget was used up
        rcases hcases with ⟨-, hi, hcv⟩ | ⟨-, hi, hcv⟩
        · rw [hcv, hv, if_pos rfl, hi]
        · rw [hcv, if_neg (by decide), hi]
      · rcases hcases with ⟨hst | hst, -, hcv⟩ | ⟨hst, -, -⟩
        · exact .inr hst
        · exact .inl ⟨hst, hcv.trans hv⟩
        · exact .inr hst
  | revise hs hp hr hv hm =>
    subst hm
    have hpasses := passesOf_snoc_none e past _ hp
    have hrounds := roundsOf_snoc_some e past _ hr
    cases h with
    | ahead hne => exact absurd hs hne
    | looked p hl hn hver ht' hc hi hst =>
      -- the budget was not used up, or the loop would have ended
      have hconv : m.converged = true := by
        rcases hst with ⟨-, hconv⟩ | hst
        · exact hconv
        · exact absurd hst hd
      refine .ahead (fun h => by cases h) (fun h => by cases h) ?_ hconv fun hcur => by cases hcur
      rw [hpasses, hrounds, List.length_append, hn]
      rfl

/-- Both invariants go through a turn together, in whatever world it is taken. -/
theorem tracked_standing_step (ac : Bool) {s : Source} {past : List (Machine × World σ)}
    {m : Machine} (w : World σ) (h : Tracked e s past m ∧ Standing e past m) (hd : m.stage ≠ .done)
    (hf : (e.step ac m w).fault = none) :
    Tracked e s (past ++ [(m, w)]) (e.step ac m w).machine ∧
      Standing e (past ++ [(m, w)]) (e.step ac m w).machine := by
  have heffect := (moves_step hd hf).effect
  exact ⟨h.1.step heffect, h.2.step hd heffect⟩

/-- **How a loop ends**: the invariants hold where it does, unless the source is given up. -/
theorem finish_history (e : Engine σ) (ac : Bool) {s : Source} (hs : s.Coherent) (w : World σ) :
    (∃ m w', Tracked e s (e.turns ac (start ac s) w) m ∧
      Standing e (e.turns ac (start ac s) w) m ∧ m.stage = .done ∧
      e.finish ac (start ac s) w = ⟨m, none, w'⟩) ∨
    (∃ f, (e.finish ac (start ac s) w).fault = some f) := by
  rcases finish_cases (fun past m _ => Tracked e s past m ∧ Standing e past m)
    (fun _ _ w => tracked_standing_step ac w)
    ⟨Tracked.initial hs, Standing.initial s⟩ (w := w) with
    ⟨m, w', ⟨htracked, hstanding⟩, hdone, hfin⟩ | ⟨past, m, w', f, -, -, hf, hfin, -⟩
  · exact .inl ⟨m, w', htracked, hstanding, hdone, hfin⟩
  · exact .inr ⟨f, by rw [hfin, hf]⟩

/-- The issues corrected in the rounds carry the status that says so. -/
theorem Tracked.corrected_status {s : Source} {past : List (Machine × World σ)} {m : Machine}
    (h : Tracked e s past m) {i : Issue} (hi : i ∈ m.corrected) : i.status = .corrected := by
  rw [h.corrected] at hi
  obtain ⟨r, hr, hir⟩ := List.mem_flatMap.mp hi
  exact (h.sound r hr).corrected_status i hir

theorem Tracked.conflict_status {s : Source} {past : List (Machine × World σ)} {m : Machine}
    (h : Tracked e s past m) {i : Issue} (hi : i ∈ m.conflicts) : i.status = .conflict :=
  latestConflicts_status h.sound i (h.conflicts ▸ hi)

/-- A final list holds corrected issues, conflicts, and issues of the present text. -/
theorem mem_finalIssues {m : Machine} {i : Issue} (h : i ∈ finalIssues m) :
    i ∈ m.corrected ∨ i ∈ m.conflicts ∨ m.current = true ∧ i ∈ m.issues := by
  rw [finalIssues, byLocation, List.mem_mergeSort] at h
  split at h
  · -- conflicts that were found again are left out; the others are listed
    next hcur =>
    rw [List.mem_append, List.mem_append, List.mem_filter] at h
    rcases h with (h | ⟨h, -⟩) | h
    · exact .inl h
    · exact .inr (.inl h)
    · exact .inr (.inr ⟨hcur, h⟩)
  · rcases List.mem_append.mp h with h | h
    · exact .inl h
    · exact .inr (.inl h)

/-- An issue of a loop that ended and that is neither corrected nor a conflict is an issue of the
last pass. -/
theorem mem_issues_of_mem_finalIssues {s : Source} {past : List (Machine × World σ)} {m : Machine}
    (h : Tracked e s past m) {i : Issue} (hi : i ∈ finalIssues m) (hc : i.status ≠ .corrected)
    (hx : i.status ≠ .conflict) : m.current = true ∧ i ∈ m.issues := by
  rcases mem_finalIssues hi with hi | hi | hi
  · exact absurd (h.corrected_status hi) hc
  · exact absurd (h.conflict_status hi) hx
  · exact hi

end Engine

end Lintel
