import Lintel.Proofs.Engine.History

/-!
# Freshness of reports

A range of octets means something only together with the text it was found in. During a run the
text is replaced, maybe many times, and the run may be cancelled at any moment. This module shows
that no range outlives its text:

* every rule that is asked for a correction is asked about an issue that some rule found in the
  text as it is at that moment (`Logged.asked`);
* every issue of a report that is neither corrected nor a conflict was found by the last completed
  pass, in the very text that the source holds at the end (`issues_fresh`).

**How.** `exists_turn_calls` says which calls a turn makes, whether or not it raises a fault; the
invariant `Logged` adds them up. That the pass in question is the last one, and that its text is
the current one, is `Standing`.
-/

namespace Lintel.Engine

variable {σ : Type} {e : Engine σ} {ac : Bool}

/-! ### The calls of a turn -/

/-- The calls of a turn are about the text of the source. Findings are asked for only while
analyzing, corrections only while correcting, and these only for a pending issue. -/
structure TurnCalls (m : Machine) (made : List Call) : Prop where
  about : ∀ c ∈ made, c.text = m.source.text
  detected : ∀ name text found, Call.detect name text found ∈ made → m.stage = .analyzing
  asked : ∀ rule text i, Call.correct rule text i ∈ made →
    m.stage = .correcting ∧ i ∈ m.issues ∧ i.isPending = true

theorem TurnCalls.of_analyzing {m : Machine} {made : List Call} (hs : m.stage = .analyzing)
    (h : ∀ c ∈ made, c.text = m.source.text ∧ c.isCorrect = false) : TurnCalls m made where
  about c hc := (h c hc).1
  detected _ _ _ _ := hs
  asked rule text i hcall := by cases (h _ hcall).2

theorem TurnCalls.of_parses {m : Machine} {made : List Call}
    (h : ∀ c ∈ made, c = .parse m.source.text) : TurnCalls m made where
  about c hc := by
    rw [h c hc]
    rfl
  detected name text found hcall := by cases h _ hcall
  asked rule text i hcall := by cases h _ hcall

theorem exists_correction_calls {m : Machine} (hm : m.source.Coherent) (hs : m.stage = .correcting)
    (w : World σ) :
    ∃ made : List Call, (e.correction m w).world.calls = made.reverse ++ w.calls ∧
      TurnCalls m made := by
  obtain ⟨parses, hparses, hall⟩ := exists_parse_calls e.parser m.source w
  have hview := Source.view_fst hm e.parser w
  -- The view may call the parser first; then the rules are asked, in the order of the issues.
  refine ⟨parses ++ (Correction.asked e.correctors m.issues).map
    fun i => .correct i.rule m.source.text i, ?_, ?_, ?_, ?_⟩
  · rw [correction, Correction.apply_world, Correction.gatherFrom_calls, hview, Source.view_world,
      hparses, View.ofText_text, List.reverse_append, List.append_assoc]
  · intro c hc
    rcases List.mem_append.mp hc with hc | hc
    · rw [hall c hc]
      rfl
    · obtain ⟨i, -, rfl⟩ := List.mem_map.mp hc
      rfl
  · intro name text found hcall
    rcases List.mem_append.mp hcall with hcall | hcall
    · cases hall _ hcall
    · obtain ⟨i, -, heq⟩ := List.mem_map.mp hcall
      cases heq
  · intro rule text i hcall
    rcases List.mem_append.mp hcall with hcall | hcall
    · cases hall _ hcall
    · obtain ⟨j, hj, heq⟩ := List.mem_map.mp hcall
      injection heq with _ _ hji
      subst hji
      exact ⟨hs, Correction.mem_asked hj⟩

/-- **The calls of a turn**, and the record of the pass if it completes one. -/
theorem exists_turn_calls (e : Engine σ) (ac : Bool) {m : Machine} (hm : m.source.Coherent)
    (hd : m.stage ≠ .done) (w : World σ) :
    ∃ made : List Call, (e.step ac m w).world.calls = made.reverse ++ w.calls ∧
      TurnCalls m made ∧
      ∀ p, e.passFrom (m, w) = some p →
        p.version = m.iterations ∧ p.text = m.source.text ∧
        ∃ parsed, Recorded e.correctors (View.ofText m.source.path m.source.text (.ok parsed))
          p.issues made := by
  rcases step_cases e ac hd w with ⟨hc, h⟩ | ⟨hc, hs, h⟩ | ⟨hc, hs, h⟩ | ⟨hc, hs, h⟩
  · -- a run that was cancelled makes no call
    refine ⟨[], ?_, .of_parses fun c hc => absurd hc List.not_mem_nil, fun p hp => ?_⟩
    · rw [h]
      rfl
    · rw [passFrom_of_cancelled hc] at hp
      cases hp
  · -- the only turn that completes a pass
    obtain ⟨made, hcalls, habout, hrec⟩ := exists_analyze_calls e hm w
    refine ⟨made, ?_, .of_analyzing hs habout, fun p hp => ?_⟩
    · rw [h, analyzeStep_world, hcalls]
    · cases ha : (e.analyze m.source w).1 with
      | error f => simp [passFrom, hc, hs, ha] at hp
      | ok a =>
        rw [passFrom_of_analyze hc hs ha] at hp
        injection hp with hp
        subst hp
        exact ⟨rfl, rfl, hrec a ha⟩
  · obtain ⟨made, hcalls, hmade⟩ := exists_correction_calls (e := e) hm hs w
    refine ⟨made, ?_, hmade, fun p hp => ?_⟩
    · rw [h, correctStep_world, hcalls]
    · rw [passFrom_of_stage hs (by decide)] at hp
      cases hp
  · -- one call, of the parser
    refine ⟨[.parse m.source.text], ?_, .of_parses fun c hc => List.mem_singleton.mp hc,
      fun p hp => ?_⟩
    · rw [h, reparseStep_world, Source.reparse_world, World.after_calls]
      rfl
    · rw [passFrom_of_stage hs (by decide)] at hp
      cases hp

/-! ### The log of a run -/

/-- What the log of the calls says about the passes and the rounds. -/
structure Logged (e : Engine σ) (ac : Bool) (s : Source) (past : List (Machine × World σ)) :
    Prop where
  /-- Each call is about the version of the text that it is stamped with. -/
  about : ∀ n c, (n, c) ∈ e.logOf ac past →
    n ≤ (e.roundsOf past).length ∧
      Utf8.ofString c.text = octetsAfter (Utf8.ofString s.text) ((e.roundsOf past).take n)
  recorded : ∀ p ∈ e.passesOf past, ∃ parsed made,
    Recorded e.correctors (View.ofText s.path p.text (.ok parsed)) p.issues made ∧
      ∀ c ∈ made, (p.version, c) ∈ e.logOf ac past
  /-- Before a rule is asked to correct an issue in a text, a rule found the issue in this very
  version of the text. -/
  asked : ∀ before after n rule text i,
    e.logOf ac past = before ++ (n, .correct rule text i) :: after →
      ∃ name found, (n, Call.detect name text found) ∈ before ∧ i ∈ found

theorem Logged.initial (s : Source) : Logged e ac s [] where
  about n c h := absurd h List.not_mem_nil
  recorded p h := absurd h List.not_mem_nil
  asked before after n rule text i h := by
    have hlen := congrArg List.length h
    rw [List.length_append] at hlen
    cases hlen

/-- An entry of two lists put together is one of the first, or one of the second with the whole
first list before it. -/
theorem append_eq_append_cons {α : Type} {xs ys before after : List α} {x : α}
    (h : xs ++ ys = before ++ x :: after) :
    (∃ rest, xs = before ++ x :: rest) ∨ (x ∈ ys ∧ ∀ y ∈ xs, y ∈ before) := by
  -- Either the entry stands behind what the first list reaches into, or inside of it.
  rcases List.append_eq_append_iff.mp h with ⟨mid, hbefore, hys⟩ | ⟨mid, hxs, hmid⟩
  · refine .inr ⟨?_, fun y hy => ?_⟩
    · rw [hys]
      exact List.mem_append_right _ List.mem_cons_self
    · rw [hbefore]
      exact List.mem_append_left _ hy
  · cases mid with
    | nil =>
      rw [List.nil_append] at hmid
      rw [List.append_nil] at hxs
      refine .inr ⟨?_, fun y hy => hxs ▸ hy⟩
      rw [← hmid]
      exact List.mem_cons_self
    | cons z rest =>
      rw [List.cons_append] at hmid
      injection hmid with hxz _
      exact .inl ⟨rest, by rw [hxs, hxz]⟩

/-- A rule is asked about an issue that a rule found in the same version of the text: the machine
has looked at the text, and a pending issue is as it was found. -/
theorem Logged.exists_detect {s : Source} {past : List (Machine × World σ)} {m : Machine}
    (h : Logged e ac s past) (hst : Standing e past m) (hs : m.stage = .correcting) {i : Issue}
    (hi : i ∈ m.issues) (hp : i.isPending = true) :
    ∃ name found, (m.iterations, Call.detect name m.source.text found) ∈ e.logOf ac past ∧
      i ∈ found := by
  cases hst with
  | ahead hne => exact absurd hs hne
  | looked p hl hn hver ht hcur hissues hstage =>
    have hconv : m.converged = true := by
      rcases hstage with ⟨-, hconv⟩ | hdone
      · exact hconv
      · rw [hs] at hdone
        cases hdone
    rw [hissues, listed, if_pos hconv] at hi
    obtain ⟨parsed, made, hrec, hmade⟩ := h.recorded p (List.mem_of_getLast? hl)
    obtain ⟨j, hij, r, -, memory, found, -, hj, hcall⟩ := hrec.sound i hi
    -- a disabled issue is not pending
    have heq : i = j := by
      rcases hij with hij | hij
      · exact hij
      · have hstatus := Issue.status_of_isPending hp
        rw [hij] at hstatus
        cases hstatus
    refine ⟨r.fullName, found, ?_, heq ▸ hj⟩
    rw [← hver, ← ht]
    exact hmade _ hcall

theorem exists_roundsOf_snoc (past : List (Machine × World σ)) (t : Machine × World σ) :
    ∃ more, e.roundsOf (past ++ [t]) = e.roundsOf past ++ more := by
  cases h : e.roundFrom t with
  | none => exact ⟨[], by rw [roundsOf_snoc_none e past t h, List.append_nil]⟩
  | some r => exact ⟨[r], roundsOf_snoc_some e past t h⟩

/-- **A turn keeps the log right**, even one that raises a fault. -/
theorem Logged.step {s : Source} {past : List (Machine × World σ)} {m : Machine} {w : World σ}
    (h : Logged e ac s past) (ht : Tracked e s past m) (hst : Standing e past m)
    (hd : m.stage ≠ .done) : Logged e ac s (past ++ [(m, w)]) := by
  obtain ⟨made, hcalls, hturn, hpass⟩ := exists_turn_calls e ac ht.coherent hd w
  obtain ⟨more, hrounds⟩ := exists_roundsOf_snoc (e := e) past (m, w)
  have hlog : e.logOf ac (past ++ [(m, w)])
      = e.logOf ac past ++ made.map (m.iterations, ·) := by
    rw [logOf_snoc, logFrom, World.since_eq hcalls]
  refine ⟨fun n c hc => ?_, fun p hp => ?_, fun before after n rule text i heq => ?_⟩
  · -- the version of an old call is not affected by a further round
    rw [hlog] at hc
    rw [hrounds, List.length_append]
    rcases List.mem_append.mp hc with hc | hc
    · obtain ⟨hn, htext⟩ := h.about n c hc
      refine ⟨by omega, ?_⟩
      rw [htext, List.take_append_of_le_length hn]
    · obtain ⟨c', hc', heq⟩ := List.mem_map.mp hc
      injection heq with hn hcc
      subst hn hcc
      rw [ht.iterations, List.take_left, hturn.about c' hc', ht.octets]
      exact ⟨by omega, rfl⟩
  · -- the calls of the passes behind stay in the log
    have hold : ∀ q ∈ e.passesOf past, ∃ parsed made',
        Recorded e.correctors (View.ofText s.path q.text (.ok parsed)) q.issues made' ∧
          ∀ c ∈ made', (q.version, c) ∈ e.logOf ac (past ++ [(m, w)]) := by
      intro q hq
      obtain ⟨parsed, made', hrec, hmade⟩ := h.recorded q hq
      refine ⟨parsed, made', hrec, fun c hc => ?_⟩
      rw [hlog]
      exact List.mem_append_left _ (hmade c hc)
    cases hfrom : e.passFrom (m, w) with
    | none =>
      rw [passesOf_snoc_none e past _ hfrom] at hp
      exact hold p hp
    | some q =>
      rw [passesOf_snoc_some e past _ hfrom, List.mem_append, List.mem_singleton] at hp
      rcases hp with hp | rfl
      · exact hold p hp
      · -- the calls of this pass are those of this turn
        obtain ⟨hver, htext, parsed, hrec⟩ := hpass p hfrom
        refine ⟨parsed, made, ?_, fun c hc => ?_⟩
        · rw [htext, ← ht.path]
          exact hrec
        · rw [hlog, hver]
          exact List.mem_append_right _ (List.mem_map_of_mem hc)
  · rw [hlog] at heq
    rcases append_eq_append_cons heq with ⟨rest, hrest⟩ | ⟨hmem, hbefore⟩
    · exact h.asked before rest n rule text i hrest
    · -- the call is one of this turn, so the whole log so far comes before it
      obtain ⟨c, hc, hcall⟩ := List.mem_map.mp hmem
      injection hcall with hn hcc
      subst hn hcc
      obtain ⟨hs, hi, hpend⟩ := hturn.asked rule text i hc
      obtain ⟨name, found, hdetect, hfound⟩ := h.exists_detect hst hs hi hpend
      have htext : text = m.source.text := hturn.about _ hc
      exact ⟨name, found, htext ▸ hbefore _ hdetect, hfound⟩

/-- The calls of the states behind are the calls made since `w`. -/
def Replays (e : Engine σ) (ac : Bool) (w : World σ) (past : List (Machine × World σ))
    (w' : World σ) : Prop :=
  w'.calls = ((e.logOf ac past).map (·.2)).reverse ++ w.calls

theorem Replays.step {w : World σ} {past : List (Machine × World σ)} {m : Machine} {w' : World σ}
    (h : Replays e ac w past w') (hm : m.source.Coherent) (hd : m.stage ≠ .done) :
    Replays e ac w (past ++ [(m, w')]) (e.step ac m w').world := by
  obtain ⟨made, hcalls, -, -⟩ := exists_turn_calls e ac hm hd w'
  have hsnd : (made.map fun c => (m.iterations, c)).map (·.2) = made := by
    rw [List.map_map]
    exact List.map_id made
  unfold Replays at h ⊢
  -- The log grows by the calls of this turn, which the world recorded newest first.
  rw [logOf_snoc, logFrom, World.since_eq hcalls, List.map_append, List.reverse_append, hsnd,
    List.append_assoc, ← h, hcalls]

/-- **The log of a run is right**, however the run ended, and it holds the calls made. -/
theorem finish_logged (e : Engine σ) (ac : Bool) {s : Source} (hs : s.Coherent) (w : World σ) :
    Logged e ac s (e.turns ac (start ac s) w) ∧
      Replays e ac w (e.turns ac (start ac s) w) (e.finish ac (start ac s) w).world := by
  let Inv := fun past (m : Machine) (w' : World σ) =>
    Tracked e s past m ∧ Standing e past m ∧ Logged e ac s past ∧ Replays e ac w past w'
  have hstep : ∀ past m w', Inv past m w' → m.stage ≠ .done → (e.step ac m w').fault = none →
      Inv (past ++ [(m, w')]) (e.step ac m w').machine (e.step ac m w').world := by
    rintro past m w' ⟨ht, hst, hlog, hcalls⟩ hd hf
    have heffect := (moves_step hd hf).effect
    exact ⟨ht.step heffect, hst.step hd heffect, hlog.step ht hst hd, hcalls.step ht.coherent hd⟩
  have hinit : Inv [] (start ac s) w :=
    ⟨Tracked.initial hs, Standing.initial s, Logged.initial s, rfl⟩
  rcases finish_cases Inv hstep hinit with
    ⟨m, w', ⟨-, -, hlog, hcalls⟩, -, hfin⟩ |
    ⟨past, m, w', f, ⟨ht, hst, hlog, hcalls⟩, hd, -, hfin, hturns⟩
  · rw [hfin]
    exact ⟨hlog, hcalls⟩
  · -- the turn that raised the fault has made its calls, too
    rw [hfin, hturns]
    exact ⟨hlog.step ht hst hd, hcalls.step ht.coherent hd⟩

/-! ### Reports -/

theorem exists_of_mem_markUnresolved {issues : List Issue} {i : Issue}
    (h : i ∈ markUnresolved issues) : ∃ k ∈ issues, i = k ∨ i = k.withStatus .unresolved := by
  obtain ⟨k, hk, rfl⟩ := List.mem_map.mp h
  refine ⟨k, hk, ?_⟩
  split
  · exact .inr rfl
  · exact .inl rfl

/-- An issue of the report was found by the last completed pass, in the text that the source holds
at the end: a rule that was shown this text handed it over as `j`, the pass listed it as `k`, and
nothing but the status has changed since. If the rule built it with `Rule.issueAt`, it is located
where its range starts in this text. -/
def Fresh (e : Engine σ) (ac : Bool) (s : Source) (w : World σ) (i : Issue) : Prop :=
  ∃ p, (e.passes ac s w).getLast? = some p ∧ p.version = (e.process ac s w).1.iterations ∧
    p.text = (e.process ac s w).1.source.text ∧
    ∃ parsed rule memory found j k,
      rule ∈ e.correctors ∧
      (rule.detect (View.ofText s.path p.text (.ok parsed)) memory).answer = .ok (some found) ∧
      (p.version, Call.detect rule.fullName p.text found) ∈ e.log ac s w ∧
      j ∈ found ∧ Issue.Silenced k j ∧ k ∈ p.issues ∧ i = j.withStatus i.status ∧
      ∀ profile config start stop message correctable remedy,
        j = Rule.issueAt profile config (View.ofText s.path p.text (.ok parsed)) start stop message
          correctable remedy →
        i.location = locate (Utf8.ofString (e.process ac s w).1.source.text) i.start

theorem Issue.Silenced.eq_withStatus {k j : Issue} (h : Issue.Silenced k j) :
    k = j.withStatus k.status := by
  rcases h with rfl | rfl
  · rfl
  · rfl

/-- What is left of a finding after suppression and after the budget was used up. -/
theorem eq_withStatus_of_left {i k j : Issue} (h : i = k ∨ i = k.withStatus .unresolved)
    (hk : Issue.Silenced k j) : i = j.withStatus i.status := by
  rcases h with rfl | rfl
  · exact hk.eq_withStatus
  · rw [hk.eq_withStatus]
    rfl

theorem issues_fresh (e : Engine σ) (ac : Bool) {s : Source} (hs : s.Coherent) (w : World σ)
    {i : Issue} (hi : i ∈ (e.process ac s w).1.issues) (hc : i.status ≠ .corrected)
    (hx : i.status ≠ .conflict) : Fresh e ac s w i := by
  rcases finish_history e ac hs w with ⟨m, w', ht, hst, -, hfin⟩ | ⟨f, hf⟩
  · have hreport := congrArg Prod.fst (process_of_ok hfin)
    rw [hreport] at hi
    obtain ⟨hcur, hmem⟩ := mem_issues_of_mem_finalIssues ht hi hc hx
    cases hst with
    | ahead _ _ _ _ hnone =>
      -- issues that count as current without a pass are none at all
      rw [(hnone hcur).2] at hmem
      cases hmem
    | looked p hl hn hver htext _ hissues _ =>
      -- the issue as the pass listed it, and as a rule handed it over
      obtain ⟨k, hk, hik⟩ : ∃ k ∈ p.issues, i = k ∨ i = k.withStatus .unresolved := by
        rw [hissues, listed] at hmem
        split at hmem
        · exact ⟨i, hmem, .inl rfl⟩
        · exact exists_of_mem_markUnresolved hmem
      obtain ⟨parsed, made, hrec, hmade⟩ :=
        (finish_logged e ac hs w).1.recorded p (List.mem_of_getLast? hl)
      obtain ⟨j, hkj, rule, hrule, memory, found, hans, hj, hcall⟩ := hrec.sound k hk
      have hij := eq_withStatus_of_left hik hkj
      have hversion : p.version = (e.process ac s w).1.iterations := by
        rw [hreport]
        exact hver
      have hend : p.text = (e.process ac s w).1.source.text := by
        rw [hreport]
        exact htext
      refine ⟨p, hl, hversion, hend, parsed, rule, memory, found, j, k, hrule, hans, hmade _ hcall,
        hj, hkj, hk, hij, ?_⟩
      rintro profile config start stop message correctable remedy rfl
      rw [hij, ← hend]
      rfl
  · -- the report of a source that was given up lists nothing
    rw [process_of_fault hf] at hi
    cases hi

end Lintel.Engine
