import Lintel.Proofs.Engine.Course

/-!
# Engines that do not cancel

`Engine.quiet` is an engine with the same rules and the same parser, except that none of their calls
cancels the run. Its run is the one that is meant by *the same run without cancellation*.

Apart from the flag nothing is different. Lowering the flag commutes with everything an engine does:
what the quiet engine does in a world with the flag down is what the engine does in the world, with
the flag lowered in the end. There is one such equation for each function on the way from a call to
a turn, and `step_quiet` is the one for turns that are not cut short.
-/

namespace Lintel

variable {σ α : Type}

def Reply.quiet (r : Reply σ α) : Reply σ α :=
  { r with cancels := false }

/-- A parser whose calls do not cancel the run. -/
def Parser.quiet (parser : Parser σ) : Parser σ :=
  fun text memory => (parser text memory).quiet

/-- A kind of rule whose calls do not cancel the run. -/
def RuleKind.quiet (k : RuleKind σ) : RuleKind σ :=
  { k with
    detect := fun c v memory => (k.detect c v memory).quiet
    correct := fun c v i memory => (k.correct c v i memory).quiet }

/-- A rule whose calls do not cancel the run. -/
def Rule.quiet (r : Rule σ) : Rule σ :=
  ⟨r.kind.quiet, r.config⟩

/-- An engine whose rules and parser do not cancel the run. -/
def Engine.quiet (e : Engine σ) : Engine σ :=
  { e with
    rules := e.rules.map Rule.quiet
    parseRule := e.parseRule.quiet
    parser := e.parser.quiet }

theorem World.resume_eq {w : World σ} (h : w.cancelled = false) : w.resume = w := by
  cases w with
  | mk memory cancelled calls =>
    cases h
    rfl

/-! ### The source -/

namespace Source

theorem reparse_quiet (parser : Parser σ) (s : Source) (w : World σ) :
    s.reparse parser.quiet w.resume
      = ((s.reparse parser w).1, (s.reparse parser w).2.1, (s.reparse parser w).2.2.resume) := by
  have hreply : parser.quiet s.bytes.2.text w.resume.memory
      = (parser s.bytes.2.text w.memory).quiet := rfl
  unfold reparse reparseIn Language.ofParser
  simp only [hreply]
  rcases parser s.bytes.2.text w.memory with ⟨f | tree, memory, cancels⟩
  · rfl
  · rfl

theorem parse_quiet (parser : Parser σ) (s : Source) (w : World σ) :
    s.parse parser.quiet w.resume
      = ((s.parse parser w).1, (s.parse parser w).2.1, (s.parse parser w).2.2.resume) := by
  rw [parse_eq, parse_eq]
  cases s.parsedMemo with
  | some parsed => rfl
  | none => exact reparse_quiet parser s w

theorem view_quiet (parser : Parser σ) (s : Source) (w : World σ) :
    s.view parser.quiet w.resume
      = ((s.view parser w).1, (s.view parser w).2.1, (s.view parser w).2.2.resume) := by
  unfold view
  rw [parse_quiet]

end Source

/-! ### Detection -/

namespace Engine

theorem detectWith_quiet (v : View) (r : Rule σ) (w : World σ) :
    detectWith v r.quiet w.resume = ((detectWith v r w).1, (detectWith v r w).2.resume) := by
  have hreply : r.quiet.detect v w.resume.memory = (r.detect v w.memory).quiet := rfl
  unfold detectWith
  simp only [hreply]
  rcases r.detect v w.memory with ⟨f | found, memory, cancels⟩
  · rfl
  · rfl

theorem detectAll_quiet (v : View) (rs : List (Rule σ)) (w : World σ) :
    detectAll v (rs.map Rule.quiet) w.resume
      = ((detectAll v rs w).1, (detectAll v rs w).2.resume) := by
  induction rs generalizing w with
  | nil => rfl
  | cons r rs ih =>
    -- a flag that this rule raises is not looked at before the turn is over
    have hrest := ih (detectWith v r w).2
    rw [List.map_cons]
    unfold detectAll
    simp only [detectWith_quiet, hrest]

variable (e : Engine σ)

theorem applicable_quiet (path : Option String) :
    e.quiet.applicable path = (e.applicable path).map Rule.quiet := by
  change (e.rules.map Rule.quiet).filter _ = _
  rw [List.filter_map]
  rfl

theorem analyzeValid_quiet (v : View) (w : World σ) :
    e.quiet.analyzeValid v w.resume = ((e.analyzeValid v w).1, (e.analyzeValid v w).2.resume) := by
  unfold analyzeValid
  rw [applicable_quiet, detectAll_quiet]

theorem analyzeBroken_quiet (v : View) (w : World σ) :
    e.quiet.analyzeBroken v w.resume
      = ((e.analyzeBroken v w).1, (e.analyzeBroken v w).2.resume) := by
  have hreply : e.quiet.parseRule.detect v w.resume.memory
      = (e.parseRule.detect v w.memory).quiet := rfl
  unfold analyzeBroken
  simp only [hreply]
  -- failed, no list, or a list: the reply differs in the flag alone
  rcases e.parseRule.detect v w.memory with ⟨f | _ | found, memory, cancels⟩
  · rfl
  · rfl
  · rfl

theorem analyze_quiet (s : Source) (w : World σ) :
    e.quiet.analyze s w.resume
      = ((e.analyze s w).1, (e.analyze s w).2.1, (e.analyze s w).2.2.resume) := by
  -- the source shows the same, and the flag is down afterwards
  have hview : s.view e.quiet.parser w.resume = _ := Source.view_quiet e.parser s w
  unfold analyze
  rw [hview]
  simp only
  cases (s.view e.parser w).1.parsed with
  | error f => rfl
  | ok p =>
    simp only [analyzeValid_quiet, analyzeBroken_quiet]
    split <;> rfl

end Engine

/-! ### Correction -/

namespace Correction

theorem answerer_quiet (rules : List (Rule σ)) (i : Issue) :
    answerer (rules.map Rule.quiet) i = (answerer rules i).map Rule.quiet := by
  unfold answerer
  split
  · unfold ruleFor
    rw [← List.map_reverse, List.find?_map]
    rfl
  · rfl

theorem gatherFrom_quiet (rules : List (Rule σ)) (v : View) (index : Nat) (issues : List Issue)
    (w : World σ) :
    gatherFrom (rules.map Rule.quiet) v index issues w.resume
      = { gatherFrom rules v index issues w with
          world := (gatherFrom rules v index issues w).world.resume } := by
  induction issues generalizing index w with
  | nil => rfl
  | cons i more ih =>
    cases ha : answerer rules i with
    | none =>
      have ha' : answerer (rules.map Rule.quiet) i = none := by
        rw [answerer_quiet, ha]
        rfl
      rw [gatherFrom_cons_none ha, gatherFrom_cons_none ha', ih]
    | some rule =>
      have ha' : answerer (rules.map Rule.quiet) i = some rule.quiet := by
        rw [answerer_quiet, ha]
        rfl
      have hrest := ih (index + 1) (w.after (.correct i.rule v.text i) (rule.correct v i w.memory))
      rw [gatherFrom_cons_some ha, gatherFrom_cons_some ha']
      change (gatherFrom (rules.map Rule.quiet) v (index + 1) more
        (w.after (.correct i.rule v.text i) (rule.correct v i w.memory)).resume).add index i.rule
          v.path (verdict v.bytes.length i (rule.correct v i w.memory).answer) = _
      rw [hrest]
      -- what a verdict adds does not depend on the world
      rcases verdict v.bytes.length i (rule.correct v i w.memory).answer with f | (_ | edit)
      · rfl
      · rfl
      · rfl

theorem apply_quiet (rules : List (Rule σ)) (source : Source) (v : View) (issues : List Issue)
    (w : World σ) :
    apply (rules.map Rule.quiet) source v issues w.resume
      = { apply rules source v issues w with
          world := (apply rules source v issues w).world.resume } := by
  unfold apply
  rw [gatherFrom_quiet]
  simp only
  split
  · rfl
  · split <;> rfl

end Correction

/-! ### Turns -/

namespace Engine

variable (e : Engine σ)

theorem correction_quiet (m : Machine) (w : World σ) :
    e.quiet.correction m w.resume
      = { e.correction m w with world := (e.correction m w).world.resume } := by
  have hview : m.source.view e.quiet.parser w.resume = _ := Source.view_quiet e.parser m.source w
  -- Quiet rules are the same rules in the same order, so the corrector asks the same ones.
  have hcorrectors : e.quiet.correctors = e.correctors.map Rule.quiet := by
    change e.rules.map Rule.quiet ++ [e.parseRule.quiet] = _
    rw [correctors, List.map_append]
    rfl
  unfold correction
  rw [hview, hcorrectors, Correction.apply_quiet]

/-- **The turns of the quiet engine.** -/
theorem step_quiet (ac : Bool) (m : Machine) {w : World σ} (hc : w.cancelled = false) :
    e.quiet.step ac m w
      = { e.step ac m w with world := (e.step ac m w).world.resume } := by
  have hc' : w.resume.cancelled = false := rfl
  -- lowering a flag that is down changes nothing, so both sides start from the same world
  conv =>
    lhs
    rw [← World.resume_eq hc]
  cases hs : m.stage with
  | done =>
    rw [step, step, if_pos hs, if_pos hs]
  | analyzing =>
    rw [step_analyzing hc' hs, step_analyzing hc hs, analyzeStep_eq, analyzeStep_eq, analyze_quiet]
    cases (e.analyze m.source w).1 with
    | error f => rfl
    | ok a => rfl
  | correcting =>
    rw [step_correcting hc' hs, step_correcting hc hs, correctStep_eq, correctStep_eq,
      correction_quiet]
    cases (e.correction m w).fault with
    | some f => rfl
    | none => rfl
  -- the parser is quiet, too, and says the same
  | reparsing =>
    have hreparse : m.source.reparse e.quiet.parser w.resume = _ :=
      Source.reparse_quiet e.parser m.source w
    rw [step_reparsing hc' hs, step_reparsing hc hs, reparseStep_eq, reparseStep_eq, hreparse]
    cases (m.source.reparse e.parser w).1 with
    | error f => rfl
    | ok p => rfl

/-- **The quiet engine is not cancelled**, and aborts nothing. -/
theorem finish_quiet (ac : Bool) (m : Machine) (w : World σ) (hc : w.cancelled = false)
    (ha : m.aborted = false) :
    (e.quiet.finish ac m w).world.cancelled = false ∧
      ((e.quiet.finish ac m w).fault = none → (e.quiet.finish ac m w).machine.aborted = false) := by
  have hresumed : ∀ m w, w.cancelled = false → (e.quiet.step ac m w).world.cancelled = false := by
    intro m w hc
    rw [step_quiet e ac m hc]
    rfl
  fun_induction e.quiet.finish ac m w with
  | case1 m w hd => exact ⟨hc, fun _ => ha⟩
  | case2 m w hd f hf =>
    refine ⟨hresumed m w hc, fun hnone => ?_⟩
    rw [hf] at hnone
    cases hnone
  | case3 m w hd hf ih =>
    refine ih (hresumed m w hc) ?_
    have hmoves := moves_step hd hf
    generalize (e.quiet.step ac m w).machine = m' at hmoves
    generalize (e.quiet.step ac m w).world = w' at hmoves
    cases hmoves with
    | abort hc' =>
      -- only a flag that is up aborts
      rw [hc] at hc'
      cases hc'
    | settle | exhaust | proceed | rest | revise | reparse => exact ha

theorem roundFrom_quiet (m : Machine) {w : World σ} (hc : w.cancelled = false) :
    e.quiet.roundFrom (m, w) = e.roundFrom (m, w) := by
  have hc' : w.resume.cancelled = false := rfl
  conv =>
    lhs
    rw [← World.resume_eq hc]
  unfold roundFrom
  simp only [hc, hc', correction_quiet]
  rfl

theorem takenUp_quiet (ac : Bool) (ss : List Source) (w : World σ) (hc : w.cancelled = false)
    (k : Nat) : (e.quiet.takenUp ac ss w k).cancelled = false := by
  induction ss generalizing w k with
  | nil => cases k <;> exact hc
  | cons s ss ih =>
    cases k with
    | zero => exact hc
    | succ k =>
      -- no rule of the quiet engine raises the flag, so it is down for the next source
      refine ih _ ?_ k
      rw [process_world]
      exact (e.finish_quiet ac (start ac s) w hc rfl).1

end Engine

end Lintel
