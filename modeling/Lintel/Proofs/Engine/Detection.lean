import Lintel.Engine
import Lintel.Proofs.Source.Memo

/-!
# What a detection pass finds

A pass asks rules for findings, puts what they gave in order and applies the suppression comments.
The statements of this module say where the issues of a pass come from, and that none gets lost:

* every issue of a completed pass was handed over by a rule that was shown the text of the source,
  and the call is on record (`Recorded.sound`); a suppression comment may have disabled it, and
  nothing else has happened to it;
* every issue that a rule handed over in one of the calls is an issue of the pass, whatever the
  other rules did (`Recorded.complete`).

The calls made on the way from one world to another are `World.since`. A pass calls the parser if
need be and then rules for findings, each about the text of the source (`exists_analyze_calls`).
-/

namespace Lintel

variable {σ : Type}

/-! ### Calls made meanwhile -/

/-- The calls that were made between two worlds, in order. -/
def World.since (before after : World σ) : List Call :=
  (after.calls.take (after.calls.length - before.calls.length)).reverse

theorem World.since_eq {before after : World σ} {made : List Call}
    (h : after.calls = made.reverse ++ before.calls) : World.since before after = made := by
  have hlen : after.calls.length - before.calls.length = made.reverse.length := by
    rw [h, List.length_append]
    omega
  rw [World.since, hlen, h, List.take_left, List.reverse_reverse]

def Call.text : Call → String
  | .parse text => text
  | .detect _ text _ => text
  | .correct _ text _ => text

def Call.isCorrect : Call → Bool
  | .correct .. => true
  | _ => false

/-! ### Suppression and order -/

theorem exists_of_mem_silence {text : String} {issues : List Issue} {i : Issue}
    (h : i ∈ silence text issues) : ∃ j ∈ issues, i = j ∨ i = j.withStatus .disabled := by
  obtain ⟨j, hj, rfl⟩ := List.mem_map.mp h
  refine ⟨j, hj, ?_⟩
  split
  · exact .inr rfl
  · exact .inl rfl

theorem exists_mem_silence (text : String) {issues : List Issue} {j : Issue} (h : j ∈ issues) :
    ∃ i ∈ silence text issues, i = j ∨ i = j.withStatus .disabled := by
  refine ⟨_, List.mem_map_of_mem h, ?_⟩
  split
  · exact .inr rfl
  · exact .inl rfl

namespace Engine

theorem mem_byStart {issues : List Issue} {i : Issue} : i ∈ byStart issues ↔ i ∈ issues :=
  List.mem_mergeSort

/-! ### One rule -/

/-- The issues that a rule hands over in a memory; none if it fails. -/
def findings (v : View) (r : Rule σ) (memory : σ) : List Issue :=
  match (r.detect v memory).answer with
  | .ok found => found.getD []
  | .error _ => []

theorem detect_of_mem_findings {v : View} {r : Rule σ} {memory : σ} {i : Issue}
    (h : i ∈ findings v r memory) :
    (r.detect v memory).answer = .ok (some (findings v r memory)) := by
  unfold findings at h ⊢
  split
  · next found hf =>
    rw [hf] at h
    cases found with
    -- a rule that gives no list has found nothing
    | none => cases h
    | some found => exact hf
  · next f hf =>
    rw [hf] at h
    cases h

theorem detectWith_found (v : View) (r : Rule σ) (w : World σ) :
    (detectWith v r w).1.found = findings v r w.memory := by
  unfold detectWith findings
  simp only
  cases (r.detect v w.memory).answer with
  | ok found => rfl
  | error f => rfl

theorem detectWith_world (v : View) (r : Rule σ) (w : World σ) :
    (detectWith v r w).2
      = w.after (.detect r.fullName v.text (findings v r w.memory)) (r.detect v w.memory) := by
  unfold detectWith findings
  simp only
  cases (r.detect v w.memory).answer with
  | ok found => rfl
  | error f => rfl

theorem detectWith_phase {v : View} {r : Rule σ} {w : World σ} {d : Diagnostic}
    (h : (detectWith v r w).1.diagnostic = some d) : d.phase = .detect := by
  unfold detectWith at h
  simp only at h
  split at h
  · cases h
  · injection h with h
    rw [← h]
    rfl

/-! ### All rules of a pass -/

theorem detectAll_cons (v : View) (r : Rule σ) (rs : List (Rule σ)) (w : World σ) :
    detectAll v (r :: rs) w
      = ((detectWith v r w).1 :: (detectAll v rs (detectWith v r w).2).1,
          (detectAll v rs (detectWith v r w).2).2) := rfl

theorem detectAll_append (v : View) (rs qs : List (Rule σ)) (w : World σ) :
    detectAll v (rs ++ qs) w
      = ((detectAll v rs w).1 ++ (detectAll v qs (detectAll v rs w).2).1,
          (detectAll v qs (detectAll v rs w).2).2) := by
  induction rs generalizing w with
  | nil => rfl
  | cons r rs ih => rw [List.cons_append, detectAll_cons, ih, detectAll_cons, List.cons_append]

theorem detectWith_congr {v : View} {r : Rule σ}
    (h : ∀ memory memory', (r.detect v memory).answer = (r.detect v memory').answer)
    (w w' : World σ) : (detectWith v r w).1 = (detectWith v r w').1 := by
  unfold detectWith
  simp only
  rw [h w.memory w'.memory]
  split <;> rfl

theorem detectAll_congr {v : View} {rs : List (Rule σ)}
    (h : ∀ r ∈ rs, ∀ memory memory', (r.detect v memory).answer = (r.detect v memory').answer)
    (w w' : World σ) : (detectAll v rs w).1 = (detectAll v rs w').1 := by
  induction rs generalizing w w' with
  | nil => rfl
  | cons r rs ih =>
    rw [detectAll_cons, detectAll_cons, detectWith_congr (h r List.mem_cons_self) w w',
      ih (fun q hq => h q (List.mem_cons_of_mem _ hq))]

/-- A rule of a list handed over an issue when it was shown a view, and the call is among those
made. -/
def FoundBy (rs : List (Rule σ)) (v : View) (made : List Call) (i : Issue) : Prop :=
  ∃ r ∈ rs, ∃ memory found, (r.detect v memory).answer = .ok (some found) ∧ i ∈ found ∧
    Call.detect r.fullName v.text found ∈ made

def Issue.Silenced (i found : Issue) : Prop :=
  i = found ∨ i = found.withStatus .disabled

/-- **The record of a pass.** The calls of a pass are about the text of the view, and its issues
are exactly what the rules handed over in these calls, up to suppression. -/
structure Recorded (rs : List (Rule σ)) (v : View) (issues : List Issue) (made : List Call) :
    Prop where
  /-- Each call is about the text of the view, and none asks for a correction. -/
  about : ∀ c ∈ made, c.text = v.text ∧ c.isCorrect = false
  sound : ∀ i ∈ issues, ∃ j, Issue.Silenced i j ∧ FoundBy rs v made j
  complete : ∀ name text found, Call.detect name text found ∈ made →
    ∀ j ∈ found, ∃ i ∈ issues, Issue.Silenced i j

theorem FoundBy.mono {rs rs' : List (Rule σ)} {v : View} {made made' : List Call} {i : Issue}
    (h : FoundBy rs v made i) (hrs : ∀ r ∈ rs, r ∈ rs') (hmade : ∀ c ∈ made, c ∈ made') :
    FoundBy rs' v made' i := by
  obtain ⟨r, hr, memory, found, hans, hi, hcall⟩ := h
  exact ⟨r, hrs r hr, memory, found, hans, hi, hmade _ hcall⟩

theorem exists_detectAll_calls (v : View) (rs : List (Rule σ)) (w : World σ) :
    ∃ made : List Call, (detectAll v rs w).2.calls = made.reverse ++ w.calls ∧
      Recorded rs v ((detectAll v rs w).1.flatMap (·.found)) made := by
  induction rs generalizing w with
  | nil =>
    refine ⟨[], rfl, fun c hc => ?_, fun i hi => ?_, fun name text found hcall => ?_⟩
    · cases hc
    · cases hi
    · cases hcall
  | cons r rs ih =>
    obtain ⟨made, hcalls, hrec⟩ := ih (detectWith v r w).2
    -- the call to the first rule comes before those to the others
    refine ⟨.detect r.fullName v.text (findings v r w.memory) :: made, ?_, ?_, ?_, ?_⟩
    · rw [detectAll_cons, hcalls, detectWith_world, World.after_calls, List.reverse_cons,
        List.append_assoc]
      rfl
    · intro c hc
      rcases List.mem_cons.mp hc with rfl | hc
      · exact ⟨rfl, rfl⟩
      · exact hrec.about c hc
    · intro i hi
      rw [detectAll_cons, List.flatMap_cons, detectWith_found] at hi
      rcases List.mem_append.mp hi with hi | hi
      · exact ⟨i, .inl rfl, r, List.mem_cons_self, w.memory, _, detect_of_mem_findings hi, hi,
          List.mem_cons_self⟩
      · obtain ⟨j, hij, hj⟩ := hrec.sound i hi
        exact ⟨j, hij, hj.mono (fun _ => List.mem_cons_of_mem _) (fun _ => List.mem_cons_of_mem _)⟩
    · intro name text found hcall j hj
      rw [detectAll_cons, List.flatMap_cons, detectWith_found]
      -- a call records what was handed over, so it tells of the first rule or of a later one
      rcases List.mem_cons.mp hcall with heq | hcall
      · injection heq with _ _ hfound
        exact ⟨j, List.mem_append_left _ (hfound ▸ hj), .inl rfl⟩
      · obtain ⟨i, hi, hij⟩ := hrec.complete name text found hcall j hj
        exact ⟨i, List.mem_append_right _ hi, hij⟩

theorem detectAll_phase {v : View} {rs : List (Rule σ)} {w : World σ} {d : Diagnostic}
    (h : d ∈ (detectAll v rs w).1.filterMap (·.diagnostic)) : d.phase = .detect := by
  induction rs generalizing w with
  | nil => cases h
  | cons r rs ih =>
    rw [detectAll_cons] at h
    cases hd : (detectWith v r w).1.diagnostic with
    | none =>
      rw [List.filterMap_cons_none hd] at h
      exact ih h
    | some d' =>
      rw [List.filterMap_cons_some hd] at h
      -- of this rule, or of one of those after it
      rcases List.mem_cons.mp h with rfl | h
      · exact detectWith_phase hd
      · exact ih h

theorem detectAll_diagnostics_eq_nil {v : View} {rs : List (Rule σ)}
    (h : ∀ r ∈ rs, ∀ memory, ∃ found, (r.detect v memory).answer = .ok found) (w : World σ) :
    (detectAll v rs w).1.filterMap (·.diagnostic) = [] := by
  induction rs generalizing w with
  | nil => rfl
  | cons r rs ih =>
    obtain ⟨found, hfound⟩ := h r List.mem_cons_self w.memory
    -- asked in this memory, the rule does not fail
    have hnone : (detectWith v r w).1.diagnostic = none := by
      unfold detectWith
      simp only [hfound]
    rw [detectAll_cons, List.filterMap_cons_none hnone]
    exact ih (fun r' hr' => h r' (List.mem_cons_of_mem _ hr')) _

/-! ### The pass as a whole -/

theorem Issue.Silenced.trans {i j k : Issue} (hij : Issue.Silenced i j)
    (hjk : Issue.Silenced j k) : Issue.Silenced i k := by
  rcases hij with rfl | rfl
  · exact hjk
  · rcases hjk with rfl | rfl
    · exact .inr rfl
    · exact .inr rfl

/-- Putting findings in order and applying suppression comments keeps a record. -/
theorem Recorded.silence {rs : List (Rule σ)} {v : View} {issues : List Issue} {made : List Call}
    (h : Recorded rs v issues made) :
    Recorded rs v (Lintel.silence v.text (byStart issues)) made where
  about := h.about
  sound i hi := by
    -- Silencing changes statuses and sorting changes places; each listed issue still comes from a
    -- found one.
    obtain ⟨j, hj, hij⟩ := exists_of_mem_silence hi
    obtain ⟨k, hjk, hk⟩ := h.sound j (mem_byStart.mp hj)
    exact ⟨k, Issue.Silenced.trans hij hjk, hk⟩
  complete name text found hcall j hj := by
    obtain ⟨k, hk, hkj⟩ := h.complete name text found hcall j hj
    obtain ⟨i, hi, hik⟩ := exists_mem_silence v.text (mem_byStart.mpr hk)
    exact ⟨i, hi, Issue.Silenced.trans hik hkj⟩

theorem Recorded.cons_parse {rs : List (Rule σ)} {v : View} {issues : List Issue}
    {made parses : List Call} (h : Recorded rs v issues made)
    (hp : ∀ c ∈ parses, c = .parse v.text) : Recorded rs v issues (parses ++ made) where
  about c hc := by
    -- the parser was asked about this very text
    rcases List.mem_append.mp hc with hc | hc
    · rw [hp c hc]
      exact ⟨rfl, rfl⟩
    · exact h.about c hc
  sound i hi := by
    obtain ⟨j, hij, hj⟩ := h.sound i hi
    exact ⟨j, hij, hj.mono (fun _ hr => hr) (fun _ => List.mem_append_right _)⟩
  complete name text found hcall := by
    rcases List.mem_append.mp hcall with hcall | hcall
    · cases hp _ hcall
    · exact h.complete name text found hcall

theorem Recorded.mono {rs rs' : List (Rule σ)} {v : View} {issues : List Issue}
    {made : List Call} (h : Recorded rs v issues made) (hrs : ∀ r ∈ rs, r ∈ rs') :
    Recorded rs' v issues made where
  about := h.about
  sound i hi := by
    obtain ⟨j, hij, hj⟩ := h.sound i hi
    exact ⟨j, hij, hj.mono hrs (fun _ hc => hc)⟩
  complete := h.complete

theorem mem_correctors {e : Engine σ} {r : Rule σ} :
    r ∈ e.correctors ↔ r ∈ e.rules ∨ r = e.parseRule := by
  rw [correctors, List.mem_append, List.mem_singleton]

/-- Asking for the outcome of parsing calls the parser at most, and about the text. -/
theorem exists_parse_calls (parser : Parser σ) (s : Source) (w : World σ) :
    ∃ made : List Call, (s.parse parser w).2.2.calls = made.reverse ++ w.calls ∧
      ∀ c ∈ made, c = .parse s.text := by
  rw [Source.parse_eq]
  split
  · exact ⟨[], rfl, fun c hc => absurd hc List.not_mem_nil⟩
  · refine ⟨[.parse s.text], ?_, fun c hc => List.mem_singleton.mp hc⟩
    rw [Source.reparse_world, World.after_calls]
    rfl

@[simp] theorem analyze_source (e : Engine σ) (s : Source) (w : World σ) :
    (e.analyze s w).2.1 = (s.view e.parser w).2.1 := by
  unfold analyze
  simp only
  split
  · rfl
  · split <;> rfl

/-- A pass over a text that parses. -/
theorem exists_analyzeValid_calls (e : Engine σ) (v : View) (w : World σ) :
    ∃ made : List Call, (e.analyzeValid v w).2.calls = made.reverse ++ w.calls ∧
      Recorded e.correctors v (e.analyzeValid v w).1.issues made := by
  obtain ⟨made, hcalls, hrec⟩ := exists_detectAll_calls v (e.applicable v.path) w
  refine ⟨made, hcalls, hrec.silence.mono fun r hr => ?_⟩
  exact mem_correctors.mpr (.inl (List.mem_filter.mp hr).1)

/-- A pass over a text that does not parse. -/
theorem exists_analyzeBroken_calls (e : Engine σ) (v : View) (w : World σ) :
    ∃ made : List Call, (e.analyzeBroken v w).2.calls = made.reverse ++ w.calls ∧
      (∀ c ∈ made, c.text = v.text ∧ c.isCorrect = false) ∧
      ∀ a, (e.analyzeBroken v w).1 = .ok a → Recorded e.correctors v a.issues made := by
  unfold analyzeBroken
  simp only
  -- The rule on parsing is the only one asked, and asked once, whatever it answers.
  split
  · refine ⟨[_], rfl, fun c hc => ?_, fun a ha => by cases ha⟩
    rw [List.mem_singleton.mp hc]
    exact ⟨rfl, rfl⟩
  · refine ⟨[_], rfl, fun c hc => ?_, fun a ha => by cases ha⟩
    rw [List.mem_singleton.mp hc]
    exact ⟨rfl, rfl⟩
  · next found hfound =>
    have habout : ∀ c ∈ [Call.detect e.parseRule.fullName v.text found],
        c.text = v.text ∧ c.isCorrect = false := by
      intro c hc
      rw [List.mem_singleton.mp hc]
      exact ⟨rfl, rfl⟩
    refine ⟨[_], rfl, habout, fun a ha => ?_⟩
    cases ha
    refine ⟨habout, fun i hi => ?_, fun name text found' hcall j hj => ?_⟩
    · exact ⟨i, .inl rfl, e.parseRule, mem_correctors.mpr (.inr rfl), w.memory, found, hfound, hi,
        List.mem_singleton.mpr rfl⟩
    · injection List.mem_singleton.mp hcall with _ _ heq
      exact ⟨j, heq ▸ hj, .inl rfl⟩

/-- **The calls of a pass.** They are about the text of the source, and if the pass is completed
they are the record of its issues. -/
theorem exists_analyze_calls (e : Engine σ) {s : Source} (hs : s.Coherent) (w : World σ) :
    ∃ made : List Call, (e.analyze s w).2.2.calls = made.reverse ++ w.calls ∧
      (∀ c ∈ made, c.text = s.text ∧ c.isCorrect = false) ∧
      ∀ a, (e.analyze s w).1 = .ok a →
        ∃ p, Recorded e.correctors (View.ofText s.path s.text (.ok p)) a.issues made := by
  obtain ⟨parses, hparses, hall⟩ := exists_parse_calls e.parser s w
  have hview := Source.view_fst hs e.parser w
  unfold analyze
  simp only
  rw [hview, View.ofText_parsed, Source.view_world]
  cases hp : (s.parse e.parser w).1 with
  -- without an outcome no rule is asked
  | error f =>
    refine ⟨parses, hparses, fun c hc => ?_, fun a ha => by cases ha⟩
    rw [hall c hc]
    exact ⟨rfl, rfl⟩
  | ok p =>
    -- the parser, if it is called, is called before the rules
    have hjoin : ∀ {made : List Call} {w' : World σ},
        w'.calls = made.reverse ++ (s.parse e.parser w).2.2.calls →
        w'.calls = (parses ++ made).reverse ++ w.calls := by
      intro made w' h
      rw [h, hparses, List.reverse_append, List.append_assoc]
    simp only
    split
    · obtain ⟨made, hcalls, hrec⟩ := e.exists_analyzeValid_calls
        (View.ofText s.path s.text (.ok p)) (s.parse e.parser w).2.2
      refine ⟨parses ++ made, hjoin hcalls, (hrec.cons_parse hall).about, fun a ha => ⟨p, ?_⟩⟩
      cases ha
      exact hrec.cons_parse hall
    · obtain ⟨made, hcalls, habout, hrec⟩ := e.exists_analyzeBroken_calls
        (View.ofText s.path s.text (.ok p)) (s.parse e.parser w).2.2
      refine ⟨parses ++ made, hjoin hcalls, fun c hc => ?_, fun a ha => ⟨p, ?_⟩⟩
      · rcases List.mem_append.mp hc with hc | hc
        · rw [hall c hc]
          exact ⟨rfl, rfl⟩
        · exact habout c hc
      · exact (hrec a ha).cons_parse hall

theorem analyze_phase {e : Engine σ} {s : Source} {w : World σ} {a : Analysis}
    (h : (e.analyze s w).1 = .ok a) {d : Diagnostic} (hd : d ∈ a.diagnostics) :
    d.phase = .detect := by
  unfold analyze at h
  simp only at h
  split at h
  · cases h
  · split at h
    · cases h
      exact detectAll_phase hd
    · -- the parse rule puts nothing on record
      unfold analyzeBroken at h
      simp only at h
      split at h
      · cases h
      · cases h
      · cases h
        cases hd

end Engine

end Lintel
