import Lintel.Proofs.Engine.Disturbance
import Mathlib.Algebra.Ring.Nat

/-!
# Counting passes, revisions and calls of the parser

The loop of a source ends, whatever rules and parser do: a turn that does not end it brings
`Machine.rank` down, and the rank of the start is three times the budget and one. So no loop takes
more turns than that, whatever disturbs it (`Loops.length_le`), and no endless sequence of turns
exists (`exists_end`).

While it goes on, three numbers stay in step: the passes made, the revisions made, and the calls of
the parser. Which is ahead of which depends on the place in the loop alone, and `Counts` says how.
The parser is asked in two places, by the turn that parses a new text and by the first question of
a pass. The second asks only for what is not known yet, so no text is parsed twice.
-/

namespace Lintel

variable {σ : Type}

/-! ### Calls of the parser -/

def Call.isParse : Call → Bool
  | .parse _ => true
  | _ => false

/-- It is known what the parser makes of the text. -/
def Source.isParsed (s : Source) : Bool := s.parsedMemo.isSome

/-- How often the parser is called to know what it makes of the text. -/
def Source.missing (s : Source) : Nat := if s.isParsed then 0 else 1

theorem Source.missing_le_one (s : Source) : s.missing ≤ 1 := by
  unfold missing
  split <;> omega

theorem Source.missing_of_parsedMemo {s : Source} {p : Parsed} (h : s.parsedMemo = some p) :
    s.missing = 0 := by
  rw [missing, isParsed, h]
  rfl

theorem World.parses_after (w : World σ) (call : Call) {α : Type} (r : Reply σ α) :
    (w.after call r).parses = w.parses + if call.isParse then 1 else 0 := by
  cases call with
  | parse text => exact List.countP_cons_of_pos rfl
  | detect rule text found => exact List.countP_cons_of_neg (by simp)
  | correct rule text i => exact List.countP_cons_of_neg (by simp)

theorem Source.reparse_parses (parser : Parser σ) (s : Source) (w : World σ) :
    (s.reparse parser w).2.2.parses = w.parses + 1 := by
  rw [reparse_world, World.parses_after]
  rfl

/-- **Asking for the outcome of parsing** calls the parser only if it is not known. -/
theorem Source.parse_parses (parser : Parser σ) (s : Source) (w : World σ) :
    (s.parse parser w).2.2.parses = w.parses + s.missing := by
  rw [parse_eq, missing, isParsed]
  cases s.parsedMemo with
  | some p => rfl
  | none => exact s.reparse_parses parser w

namespace Engine

variable {e : Engine σ} {ac : Bool}

theorem detectAll_parses (v : View) (rs : List (Rule σ)) (w : World σ) :
    (detectAll v rs w).2.parses = w.parses := by
  induction rs generalizing w with
  | nil => rfl
  | cons r rs ih =>
    rw [detectAll_cons, ih, detectWith_world, World.parses_after]
    rfl

theorem analyzeBroken_parses (e : Engine σ) (v : View) (w : World σ) :
    (e.analyzeBroken v w).2.parses = w.parses := by
  unfold analyzeBroken
  simp only
  split <;> exact World.parses_after w _ _

theorem analyze_parses (e : Engine σ) (s : Source) (w : World σ) :
    (e.analyze s w).2.2.parses = w.parses + s.missing := by
  rw [← Source.parse_parses e.parser s w, ← Source.view_world]
  unfold analyze
  simp only
  -- a detection calls no parser; only the view may have done so
  split
  · rfl
  · split
    · exact detectAll_parses _ _ _
    · exact analyzeBroken_parses e _ _

theorem missing_of_analyze {s : Source} {w : World σ} {a : Analysis}
    (ha : (e.analyze s w).1 = .ok a) : (e.analyze s w).2.1.missing = 0 := by
  unfold analyze at ha
  simp only at ha
  cases hp : (s.view e.parser w).1.parsed with
  | error f =>
    rw [hp] at ha
    cases ha
  -- a pass is completed only if the text was parsed without a fault
  | ok p =>
    refine Source.missing_of_parsedMemo (p := p) ?_
    rw [analyze_source, Source.view_parsedMemo]
    exact Source.parsedMemo_of_parse hp

theorem correction_parses (e : Engine σ) (m : Machine) (w : World σ) :
    (e.correction m w).world.parses = w.parses + m.source.missing := by
  -- the calls of a pass of correction, of which none goes to the parser
  have hcalls : (Correction.gatherFrom e.correctors (m.source.view e.parser w).1 0 m.issues
      (m.source.view e.parser w).2.2).world.calls = _ :=
    Correction.gatherFrom_calls 0 m.issues (m.source.view e.parser w).2.2
  rw [← Source.parse_parses e.parser m.source w, ← Source.view_world, correction,
    Correction.apply_world, World.parses, hcalls, List.countP_append, List.countP_reverse,
    List.countP_map]
  have hnone : (Correction.asked e.correctors m.issues).countP
      (Call.isParse ∘ fun i => Call.correct i.rule (m.source.view e.parser w).1.text i) = 0 :=
    List.countP_eq_zero.mpr fun i _ => Bool.false_ne_true
  exact (congrArg (· + _) hnone).trans (Nat.zero_add _)

/-- How often the parser is called in the turn from a state: to parse a new text, or to know what
is not known yet. -/
def parsesFrom (t : Machine × World σ) : Nat :=
  if t.1.stage = .done ∨ t.2.cancelled = true then 0
  else if t.1.stage = .reparsing then 1
  else t.1.source.missing

/-- **The calls of the parser in a turn**, also in one that gives up the source. -/
theorem step_parses (e : Engine σ) (ac : Bool) (m : Machine) (w : World σ) :
    (e.step ac m w).world.parses = w.parses + parsesFrom (m, w) := by
  unfold parsesFrom
  by_cases hd : m.stage = .done
  · rw [step, if_pos hd, if_pos (.inl hd)]
    rfl
  -- only to parse the revised text is the parser called at any rate
  rcases step_cases e ac hd w with ⟨hc, h⟩ | ⟨hc, hs, h⟩ | ⟨hc, hs, h⟩ | ⟨hc, hs, h⟩
  · rw [h, if_pos (.inr hc)]
    rfl
  · rw [h, analyzeStep_world, analyze_parses]
    simp only [hc, hs, Bool.false_eq_true, reduceCtorEq, or_self, if_false]
  · rw [h, correctStep_world, correction_parses]
    simp only [hc, hs, Bool.false_eq_true, reduceCtorEq, or_self, if_false]
  · rw [h, reparseStep_world, Source.reparse_parses]
    simp only [hc, hs, Bool.false_eq_true, reduceCtorEq, or_self, if_false, if_true]

/-- How often the parser is called in the turns from some states. -/
def parsesOf (e : Engine σ) (ac : Bool) (states : List (Machine × World σ)) : Nat :=
  (states.map fun t => (e.step ac t.1 t.2).world.parses - t.2.parses).sum

theorem parsesOf_snoc (past : List (Machine × World σ)) (m : Machine) (w : World σ) :
    e.parsesOf ac (past ++ [(m, w)]) = e.parsesOf ac past + parsesFrom (m, w) := by
  unfold parsesOf
  rw [List.map_append, List.sum_append, List.map_singleton, List.sum_singleton, step_parses,
    Nat.add_sub_cancel_left]

/-- **The calls of the parser in a run** that is not disturbed are those of its turns. -/
theorem finish_parses (e : Engine σ) (ac : Bool) (m : Machine) (w : World σ) :
    (e.finish ac m w).world.parses = w.parses + e.parsesOf ac (e.turns ac m w) := by
  -- each turn adds its own calls to those before it
  have hstep : ∀ (past : List (Machine × World σ)) (m' : Machine) (w' : World σ),
      w'.parses = w.parses + e.parsesOf ac past → m'.stage ≠ .done →
      (e.step ac m' w').fault = none →
      (e.step ac m' w').world.parses = w.parses + e.parsesOf ac (past ++ [(m', w')]) := by
    intro past m' w' h _ _
    rw [step_parses, h, parsesOf_snoc, Nat.add_assoc]
  rcases finish_cases (fun past _ w' => w'.parses = w.parses + e.parsesOf ac past) hstep
    (m := m) (w := w) rfl with
    ⟨m', w', h, -, hfin⟩ | ⟨past, m', w', f, h, -, -, hfin, hturns⟩
  · rw [hfin, h]
  · rw [hfin, hturns, step_parses, h, parsesOf_snoc, Nat.add_assoc]

/-! ### The end of the loop -/

/-- How much is left at the start: three turns for each revision of the budget, and one. -/
theorem rank_start (ac : Bool) (s : Source) (budget : Int) :
    (start ac s).rank budget = 3 * budget.toNat + 1 := by
  change 3 * (budget - ((0 : Nat) : Int)).toNat + 1 = _
  rw [Int.natCast_zero, Int.sub_zero]

/-- **A loop takes no more turns than its rank says**, whatever disturbs it. -/
theorem Loops.length_le {m : Machine} {w : World σ} {states : List (Machine × World σ)}
    {t : Turn σ} (h : e.Loops ac m w states t) : states.length ≤ m.rank e.maxIterations := by
  -- Each turn lowers the rank, so the first rank bounds their number.
  induction h with
  | ended hd => exact Nat.zero_le _
  | failed hd hw hf => exact rank_pos hd _
  | turned hd hw hf h ih =>
    have hrank := rank_step e ac _ _ hd hf
    rw [List.length_cons]
    omega

/-- **No sequence of turns is endless**, in whatever worlds they are taken: one of the first ends
the loop or gives up the source. -/
theorem exists_end (e : Engine σ) (ac : Bool) (ms : Nat → Machine) (ws : Nat → World σ)
    (h : ∀ n, ms (n + 1) = (e.step ac (ms n) (ws n)).machine) :
    ∃ n ≤ (ms 0).rank e.maxIterations,
      (ms n).stage = .done ∨ ∃ f, (e.step ac (ms n) (ws n)).fault = some f := by
  refine Classical.byContradiction fun hnone => ?_
  have hgo : ∀ n ≤ (ms 0).rank e.maxIterations,
      (ms n).stage ≠ .done ∧ (e.step ac (ms n) (ws n)).fault = none := by
    intro n hn
    refine ⟨fun hd => hnone ⟨n, hn, .inl hd⟩, Option.eq_none_iff_forall_ne_some.mpr fun f hf => ?_⟩
    exact hnone ⟨n, hn, .inr ⟨f, hf⟩⟩
  -- each turn has brought the rank down by one at least
  have hrank : ∀ n ≤ (ms 0).rank e.maxIterations,
      (ms n).rank e.maxIterations + n ≤ (ms 0).rank e.maxIterations := by
    intro n
    induction n with
    | zero => exact fun _ => Nat.le_refl _
    | succ n ih =>
      intro hn
      obtain ⟨hd, hf⟩ := hgo n (by omega)
      have hlt := rank_step e ac (ms n) (ws n) hd hf
      have hle := ih (by omega)
      rw [h n]
      omega
  have hlast := hrank _ (Nat.le_refl _)
  have hpos := rank_pos (hgo _ (Nat.le_refl _)).1 e.maxIterations
  omega

/-! ### Where the counters stand -/

/-- **How passes, revisions and calls of the parser stand to each other** in each place of the
loop. -/
inductive Counts (m : Machine) (parses : Nat) : Prop where
  /-- The text has not been looked at, and may have been parsed. -/
  | ahead (hs : m.stage = .analyzing) (hp : m.passes = m.iterations)
      (hn : parses + m.source.missing = m.passes + 1)
  | looked (hs : m.stage = .correcting) (hp : m.passes = m.iterations + 1) (hn : parses = m.passes)
      (hk : m.source.missing = 0)
  | revised (hs : m.stage = .reparsing) (hp : m.passes = m.iterations) (hn : parses = m.passes)
  | ended (hs : m.stage = .done) (hp : m.passes = m.iterations + 1) (hn : parses = m.passes)
  /-- The loop was aborted before a pass over its text. -/
  | aborted (hs : m.stage = .done) (ha : m.aborted = true) (hp : m.passes = m.iterations)
      (hn : parses = m.passes ∨ parses = m.passes + 1)

/-! Which case it is can be told from the place in the loop. -/

theorem Counts.of_analyzing {m : Machine} {n : Nat} (h : Counts m n) (hs : m.stage = .analyzing) :
    m.passes = m.iterations ∧ n + m.source.missing = m.passes + 1 := by
  cases h with
  | ahead _ hp hn => exact ⟨hp, hn⟩
  | looked hs' | revised hs' | ended hs' | aborted hs' =>
    rw [hs] at hs'
    cases hs'

theorem Counts.of_correcting {m : Machine} {n : Nat} (h : Counts m n)
    (hs : m.stage = .correcting) :
    m.passes = m.iterations + 1 ∧ n = m.passes ∧ m.source.missing = 0 := by
  cases h with
  | looked _ hp hn hk => exact ⟨hp, hn, hk⟩
  | ahead hs' | revised hs' | ended hs' | aborted hs' =>
    rw [hs] at hs'
    cases hs'

theorem Counts.of_reparsing {m : Machine} {n : Nat} (h : Counts m n) (hs : m.stage = .reparsing) :
    m.passes = m.iterations ∧ n = m.passes := by
  cases h with
  | revised _ hp hn => exact ⟨hp, hn⟩
  | ahead hs' | looked hs' | ended hs' | aborted hs' =>
    rw [hs] at hs'
    cases hs'

/-- What holds of the counters along a run. -/
structure Counted (e : Engine σ) (ac : Bool) (s : Source) (past : List (Machine × World σ))
    (m : Machine) : Prop where
  spent : (m.iterations : Int) ≤ max 0 e.maxIterations
  /-- Corrections are asked for only within the budget. -/
  room : m.stage = .correcting → (m.iterations : Int) < e.maxIterations
  spared : ac = false → m.stage ≠ .correcting ∧ m.iterations = 0 ∧ m.source.text = s.text
  /-- A source that was parsed before the run saves it the first call. -/
  counts : Counts m (e.parsesOf ac past + (1 - s.missing))

theorem Counted.initial (e : Engine σ) (ac : Bool) (s : Source) :
    Counted e ac s [] (start ac s) where
  spent := Int.le_max_left 0 e.maxIterations
  room h := by cases h
  spared _ := ⟨(by simp [start]), rfl, rfl⟩
  counts := by
    refine .ahead rfl rfl ?_
    -- A source with its tree in memory starts one parse ahead, which the missing count pays for.
    change 0 + (1 - s.missing) + s.missing = 0 + 1
    unfold Source.missing
    split <;> rfl

/-- A completed pass keeps the counters in step, if what it makes of the machine is within the
budget. -/
theorem Counted.look {s : Source} {past : List (Machine × World σ)} {m : Machine} {w : World σ}
    (h : Counted e ac s past m) (hc : w.cancelled = false) (hs : m.stage = .analyzing)
    {a : Analysis} (ha : (e.analyze m.source w).1 = .ok a) {stage : Stage} {issues : List Issue}
    {converged : Bool} (hst : stage = .done ∨ stage = .correcting ∧ ac = true)
    (hb : stage = .correcting → (m.iterations : Int) < e.maxIterations) :
    Counted e ac s (past ++ [(m, w)])
      { looked m (e.analyze m.source w).2.1 a with
        stage := stage, issues := issues, converged := converged } := by
  have hfrom : parsesFrom (m, w) = m.source.missing := by
    unfold parsesFrom
    simp [hc, hs]
  have hknown := missing_of_analyze ha
  refine ⟨h.spent, hb, fun hac => ⟨fun hcorr => ?_, (h.spared hac).2.1, ?_⟩, ?_⟩
  · change stage = .correcting at hcorr
    rcases hst with hst | ⟨-, hac'⟩
    · rw [hcorr] at hst
      cases hst
    · rw [hac] at hac'
      cases hac'
  · change (e.analyze m.source w).2.1.text = s.text
    rw [analyze_source, Source.view_text]
    exact (h.spared hac).2.2
  · rw [parsesOf_snoc, hfrom]
    obtain ⟨hp, hn⟩ := h.counts.of_analyzing hs
    -- the pass has called the parser if its text was not known, and now it is
    have hparses : e.parsesOf ac past + m.source.missing + (1 - s.missing) = m.passes + 1 := by
      omega
    rcases hst with rfl | ⟨rfl, -⟩
    · exact .ended rfl (congrArg (· + 1) hp) hparses
    · exact .looked rfl (congrArg (· + 1) hp) hparses hknown

theorem Counted.correct {s : Source} {past : List (Machine × World σ)} {m : Machine} {w : World σ}
    (h : Counted e ac s past m) (hs : m.stage = .correcting) :
    m.passes = m.iterations + 1 ∧
      e.parsesOf ac (past ++ [(m, w)]) + (1 - s.missing) = m.passes := by
  obtain ⟨hp, hn, hk⟩ := h.counts.of_correcting hs
  have hfrom : parsesFrom (m, w) = 0 := by
    unfold parsesFrom
    simp [hs, hk]
  rw [parsesOf_snoc, hfrom, Nat.add_zero]
  exact ⟨hp, hn⟩

/-- **A turn keeps the counters in step.** -/
theorem Counted.step {s : Source} {past : List (Machine × World σ)} {m m' : Machine}
    {w w' : World σ} (h : Counted e ac s past m) (hd : m.stage ≠ .done)
    (hm : Moves e ac m w m' w') : Counted e ac s (past ++ [(m, w)]) m' := by
  cases hm with
  | abort hc =>
    have hfrom : parsesFrom (m, w) = 0 := if_pos (.inr hc)
    refine ⟨h.spent, (fun hs => by cases hs), fun hac => ⟨(fun hs => by cases hs),
      (h.spared hac).2⟩, ?_⟩
    rw [parsesOf_snoc, hfrom, Nat.add_zero]
    cases h.counts with
    | ahead hs hp hn =>
      -- the text of the next pass may have been parsed already
      refine .aborted rfl rfl hp ?_
      have hle := m.source.missing_le_one
      change _ = m.passes ∨ _ = m.passes + 1
      omega
    | looked hs hp hn => exact .ended rfl hp hn
    | revised hs hp hn => exact .aborted rfl rfl hp (.inl hn)
    | ended hs | aborted hs => exact absurd hs hd
  | settle hc hs a ha hp => exact h.look hc hs ha (.inl rfl) fun hst => by cases hst
  | exhaust hc hs a ha hac hp hb => exact h.look hc hs ha (.inl rfl) fun hst => by cases hst
  | proceed hc hs a ha hac hp hb => exact h.look hc hs ha (.inr ⟨rfl, hac⟩) fun _ => hb
  -- a pass of correction shows the rules an outcome that is known, so nobody parses
  | rest hc hs hn =>
    obtain ⟨hp, hparses⟩ := h.correct hs
    exact ⟨h.spent, (fun hst => by cases hst), fun hac => absurd hs (h.spared hac).1,
      .ended rfl hp hparses⟩
  -- corrections were asked for within the budget, so one more round is
  | revise hc hs hch hr =>
    obtain ⟨hp, hparses⟩ := h.correct hs
    have hroom := h.room hs
    refine ⟨?_, (fun hst => by cases hst), fun hac => absurd hs (h.spared hac).1,
      .revised rfl hp hparses⟩
    change ((m.iterations + 1 : Nat) : Int) ≤ max 0 e.maxIterations
    omega
  -- the call of this turn is the one that the next pass saves
  | reparse hc hs p hp =>
    obtain ⟨hpasses, hn⟩ := h.counts.of_reparsing hs
    have hfrom : parsesFrom (m, w) = 1 := by
      unfold parsesFrom
      simp [hs, hc]
    have hknown : (m.source.reparse e.parser w).2.1.missing = 0 :=
      Source.missing_of_parsedMemo (Source.parsedMemo_of_reparse hp)
    refine ⟨h.spent, (fun hst => by cases hst), fun hac => ⟨(fun hst => by cases hst),
      (h.spared hac).2.1, ?_⟩, .ahead rfl hpasses ?_⟩
    · rw [Source.reparse_text]
      exact (h.spared hac).2.2
    · rw [parsesOf_snoc, hfrom]
      change e.parsesOf ac past + 1 + (1 - s.missing)
        + (m.source.reparse e.parser w).2.1.missing = m.passes + 1
      omega

/-! ### What a report says of the counters -/

structure InStep (e : Engine σ) (ac : Bool) (s : Source) (calls : Nat) (r : SourceReport) :
    Prop where
  spent : (r.iterations : Int) ≤ max 0 e.maxIterations
  passes : r.aborted = false → r.passes = r.iterations + 1
  passes_of_aborted : r.aborted = true → r.passes = r.iterations ∨ r.passes = r.iterations + 1
  spared : ac = false → r.iterations = 0 ∧ r.source.text = s.text
  parses : s.parsedMemo = none → r.aborted = false → calls = r.passes
  parses_of_aborted :
    s.parsedMemo = none → r.aborted = true → calls = r.passes ∨ calls = r.passes + 1

theorem Counted.inStep {s : Source} {states : List (Machine × World σ)} {m : Machine}
    (h : Counted e ac s states m) (hd : m.stage = .done) :
    InStep e ac s (e.parsesOf ac states) (reportOf m) := by
  -- a source that was not parsed before the run is parsed in it
  have hfresh : s.parsedMemo = none → 1 - s.missing = 0 := by
    intro hs
    rw [Source.missing, Source.isParsed, hs]
    rfl
  have hspent : ((reportOf m).iterations : Int) ≤ max 0 e.maxIterations := h.spent
  have hspared : ac = false → (reportOf m).iterations = 0 ∧ (reportOf m).source.text = s.text :=
    fun hac => (h.spared hac).2
  cases h.counts with
  -- the loop is over, so it stands in none of these places
  | ahead hs | looked hs | revised hs =>
    rw [hd] at hs
    cases hs
  | ended _ hp hn =>
    have hparses : s.parsedMemo = none → e.parsesOf ac states = m.passes := by
      intro hs
      rw [← hn, hfresh hs, Nat.add_zero]
    exact ⟨hspent, fun _ => hp, fun _ => .inr hp, hspared, fun hs _ => hparses hs,
      fun hs _ => .inl (hparses hs)⟩
  | aborted _ ha hp hn =>
    have hno : ¬(reportOf m).aborted = false := by
      change ¬m.aborted = false
      rw [ha]
      decide
    refine ⟨hspent, fun h => absurd h hno, fun _ => .inl hp, hspared, fun _ h => absurd h hno,
      fun hs _ => ?_⟩
    rwa [hfresh hs, Nat.add_zero] at hn

/-- **The loop of a source ends, and its counters are in step**, for all rules, parsers, budgets and
disturbances. No sequence of turns is endless, and a loop takes three turns for each revision of the
budget and one at most. Unless the source was given up, a pass follows each revision, except the
last one if the run was aborted before it, and the parser is called once for each text. -/
theorem run_counts (e : Engine σ) (ac : Bool) (s : Source) (w : World σ) :
    (∀ (ms : Nat → Machine) (ws : Nat → World σ), ms 0 = start ac s →
      (∀ n, ms (n + 1) = (e.step ac (ms n) (ws n)).machine) →
      ∃ n ≤ 3 * e.maxIterations.toNat + 1,
        (ms n).stage = .done ∨ ∃ f, (e.step ac (ms n) (ws n)).fault = some f) ∧
    (∀ states t, e.Loops ac (start ac s) w states t →
      states.length ≤ 3 * e.maxIterations.toNat + 1 ∧
      (t.fault = none → InStep e ac s (e.parsesOf ac states) (e.reportAfter t))) ∧
    e.Loops ac (start ac s) w (e.turns ac (start ac s) w) (e.finish ac (start ac s) w) ∧
    (e.process ac s w).1 = e.reportAfter (e.finish ac (start ac s) w) ∧
    (e.process ac s w).2.parses = w.parses + e.parsesOf ac (e.turns ac (start ac s) w) := by
  refine ⟨fun ms ws h0 hms => ?_, fun states t h => ⟨?_, fun hf => ?_⟩, loops_finish e ac _ w,
    process_fst e ac s w, ?_⟩
  · -- each turn lowers the rank, whatever happens to the world in between
    rw [← rank_start ac s, ← h0]
    exact exists_end e ac ms ws hms
  · rw [← rank_start ac s]
    exact h.length_le
  · -- the counters are an invariant of the turns, read off where the loop has ended
    have hcounted : Counted e ac s states t.machine :=
      h.invariant (fun past m w hi hd hf => hi.step hd (moves_step hd hf))
        (Counted.initial e ac s) hf
    rw [reportAfter_of_ok hf]
    exact hcounted.inStep (h.stage_eq_done hf)
  · rw [process_world, finish_parses]

end Engine

end Lintel
