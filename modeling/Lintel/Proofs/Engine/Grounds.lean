import Lintel.Proofs.Edit.Graded
import Lintel.Proofs.Engine.Disturbance
import Lintel.Proofs.Engine.Fixpoint
import Lintel.Proofs.Engine.Isolation
import Lintel.Proofs.Rules.Mending

/-!
# The grounds of edits

No edit is applied without grounds: some rule was shown the text, handed over an issue, and the
rule of the issue, shown the same text, proposed the edit for it (`Engine.Grounds`). What all such
edits have in common therefore carries over to whole runs. If each of them replaces octets by
others that stand in a graded relation to them (`Engine.Upholds`), then so does the whole run, and
the number for the run is the sum over the corrected issues (`Loops.upheld`). This holds whatever
disturbs the run, and also if the source is given up in the end.
-/

namespace Lintel.Engine

variable {σ : Type} {e : Engine σ} {ac : Bool}

/-- Some rule hands over an issue when it is shown a view. -/
def Found (e : Engine σ) (v : View) (i : Issue) : Prop :=
  ∃ r ∈ e.correctors, r.Finds v i

/-- **The grounds of an edit**: an issue that was found in the text, and for which the edit was
proposed. The parser need not have given the same answer on both occasions. -/
def Grounds (e : Engine σ) (path : Option String) (text : String) (i : Issue) (edit : Edit) :
    Prop :=
  (∃ memory, e.Found (e.shown path text memory) i) ∧
    ∃ memory, Correction.Proposes e.correctors (e.shown path text memory) i edit

/-! ### What a pass has found -/

theorem exists_shown {s : Source} (hs : s.Coherent) (hp : s.ParsedBy e.parser) (w : World σ) :
    ∃ memory, (s.view e.parser w).1 = e.shown s.path s.text memory := by
  obtain ⟨memory, hparse⟩ := hp.parse_fst w
  refine ⟨memory, ?_⟩
  rw [Source.view_fst hs, hparse]
  rfl

theorem Recorded.found {v : View} {issues : List Issue} {made : List Call}
    (h : Recorded e.correctors v issues made) {i : Issue} (hi : i ∈ issues) :
    ∃ j, Issue.Silenced i j ∧ e.Found v j := by
  obtain ⟨j, hij, r, hr, memory, found, hans, hj, -⟩ := h.sound i hi
  exact ⟨j, hij, r, hr, memory, found, hans, hj⟩

/-- **The issues of a completed pass were found in the text**, and no more than silenced. -/
theorem found_of_analyze {s : Source} {w : World σ} {a : Analysis}
    (ha : (e.analyze s w).1 = .ok a) {i : Issue} (hi : i ∈ a.issues) :
    ∃ j, Issue.Silenced i j ∧ e.Found (s.view e.parser w).1 j := by
  unfold analyze at ha
  simp only at ha
  split at ha
  · cases ha
  · split at ha
    · -- the text parses, and the rules that apply to its path are asked
      cases ha
      obtain ⟨made, -, hrec⟩ := e.exists_analyzeValid_calls (s.view e.parser w).1
        (s.view e.parser w).2.2
      exact hrec.found hi
    · -- it does not, and the parse rule alone is asked
      obtain ⟨made, -, -, hrec⟩ := e.exists_analyzeBroken_calls (s.view e.parser w).1
        (s.view e.parser w).2.2
      exact (hrec a ha).found hi

theorem eq_of_isPending {i j : Issue} (h : Issue.Silenced i j) (hp : i.isPending = true) :
    i = j := by
  rcases h with rfl | rfl
  · rfl
  · have hstatus := Issue.status_of_isPending hp
    cases hstatus

/-! ### What was found in the present text -/

/-- What was found in the present text is as it was found, or silenced, or left over by a loop that
has not converged. -/
def Untouched (e : Engine σ) (m : Machine) : Prop :=
  m.current = true → ∀ i ∈ m.issues, ∃ v j, e.Found v j ∧
    (Issue.Silenced i j ∨ i = j.withStatus .unresolved ∧ m.converged = false)

theorem Untouched.initial (s : Source) : Untouched e (start ac s) :=
  fun _ _ hi => absurd hi List.not_mem_nil

/-- **A turn leaves what was found in the present text as it is.** Where it corrects, the text is
not the present one any more. -/
theorem Untouched.step {m m' : Machine} {w w' : World σ} (h : Untouched e m)
    (hm : Moves e ac m w m' w') : Untouched e m' := by
  cases hm with
  | abort hc => exact h
  | settle hc hs a ha hp =>
    intro _ i hi
    obtain ⟨j, hij, hfound⟩ := found_of_analyze ha hi
    exact ⟨_, j, hfound, .inl hij⟩
  | exhaust hc hs a ha hac hp hb =>
    -- the budget is used up, and what could still be corrected is left over
    intro _ i hi
    obtain ⟨k, hk, hik⟩ := exists_of_mem_markUnresolved hi
    obtain ⟨j, hkj, hfound⟩ := found_of_analyze ha hk
    refine ⟨_, j, hfound, ?_⟩
    rcases hik with rfl | rfl
    · exact .inl hkj
    · rcases hkj with rfl | rfl
      · exact .inr ⟨rfl, rfl⟩
      · exact .inr ⟨rfl, rfl⟩
  | proceed hc hs a ha hac hp hb =>
    intro _ i hi
    obtain ⟨j, hij, hfound⟩ := found_of_analyze ha hi
    exact ⟨_, j, hfound, .inl hij⟩
  | rest hc hs hn => exact h
  | revise hc hs hch hr =>
    -- the text is a new one, in which nothing has been looked for yet
    exact fun hcur => by cases hcur
  | reparse hc hs p hp => exact h

theorem Untouched.found_of_corrected {m : Machine} (h : Untouched e m) (hc : m.current = true)
    {i : Issue} (hi : i ∈ m.issues) (hs : i.status = .corrected) : ∃ v, e.Found v i := by
  obtain ⟨v, j, hfound, (rfl | rfl) | ⟨rfl, -⟩⟩ := h hc i hi
  · exact ⟨v, hfound⟩
  · cases hs
  · cases hs

theorem Loops.untouched {s : Source} {w : World σ} {states : List (Machine × World σ)}
    {t : Turn σ} (h : e.Loops ac (start ac s) w states t) (hf : t.fault = none) :
    Untouched e t.machine := by
  have hstep : ∀ (past : List (Machine × World σ)) (m : Machine) (w : World σ),
      Untouched e m → m.stage ≠ .done → (e.step ac m w).fault = none →
      Untouched e (e.step ac m w).machine :=
    fun past m w hm hd hfault => hm.step (moves_step hd hfault)
  exact h.invariant hstep (Untouched.initial s) hf

/-! ### Along a run -/

/-- The source keeps to its text and to the parser, and what is to be corrected was found in the
text. -/
structure Grounded (e : Engine σ) (m : Machine) : Prop where
  coherent : m.source.Coherent
  parsed : m.source.ParsedBy e.parser
  found : m.stage = .correcting → ∃ memory, ∀ i ∈ m.issues, i.isPending = true →
    e.Found (e.shown m.source.path m.source.text memory) i

theorem Grounded.initial {s : Source} (hs : s.Coherent) (hp : s.ParsedBy e.parser) :
    Grounded e (start ac s) where
  coherent := ⟨hs.bytes, hs.starts⟩
  parsed := hp
  found h := by cases h

/-- A completed pass finds its issues in the text, whatever is made of them. -/
theorem Grounded.look {m m' : Machine} {w : World σ} (h : Grounded e m) {a : Analysis}
    (ha : (e.analyze m.source w).1 = .ok a) (hs : m'.source = (e.analyze m.source w).2.1)
    (hi : m'.stage = .correcting → m'.issues = a.issues) : Grounded e m' := by
  rw [analyze_source] at hs
  obtain ⟨memory, hview⟩ := exists_shown h.coherent h.parsed w
  refine ⟨?_, ?_, fun hstage => ⟨memory, fun i himem hpend => ?_⟩⟩
  · rw [hs]
    exact h.coherent.view e.parser w
  · rw [hs]
    exact h.parsed.view w
  · rw [hi hstage] at himem
    obtain ⟨j, hij, hfound⟩ := found_of_analyze ha himem
    rw [hview] at hfound
    -- an issue that can be corrected is as it was found
    rw [eq_of_isPending hij hpend, hs, Source.view_path, Source.view_text]
    exact hfound

/-- **A turn keeps the grounds.** -/
theorem Grounded.step {m m' : Machine} {w w' : World σ} (h : Grounded e m)
    (hm : Moves e ac m w m' w') : Grounded e m' := by
  -- Where the next stage does not ask for a parsed source, only the source itself is to be
  -- followed.
  cases hm with
  | abort hc => exact ⟨h.coherent, h.parsed, fun hs => by cases hs⟩
  | settle hc hs a ha hp => exact h.look ha rfl fun hs => by cases hs
  | exhaust hc hs a ha hac hp hb => exact h.look ha rfl fun hs => by cases hs
  | proceed hc hs a ha hac hp hb => exact h.look ha rfl fun _ => rfl
  | rest hc hs hn =>
    exact ⟨h.coherent.view e.parser w, h.parsed.view w, fun hs => by cases hs⟩
  | revise hc hs hch hr =>
    refine ⟨?_, ?_, fun hs => by cases hs⟩
    · change (e.correction m w).source.Coherent
      rw [hr.source_eq]
      exact Source.coherent_setText _ _
    · change (e.correction m w).source.ParsedBy e.parser
      rw [hr.source_eq]
      exact Source.parsedBy_setText e.parser _ _
  | reparse hc hs p hp =>
    exact ⟨h.coherent.reparse e.parser w, h.parsed.reparse w, fun hs => by cases hs⟩

section Correcting

variable {m : Machine} {w : World σ}

theorem Grounded.grounds (h : Grounded e m) (hs : m.stage = .correcting) {i : Issue} {edit : Edit}
    (hi : i ∈ m.issues)
    (hp : Correction.Proposes e.correctors (m.source.view e.parser w).1 i edit) :
    e.Grounds m.source.path m.source.text i edit := by
  -- the parser may have been asked again, so the two views need not agree on the tree
  obtain ⟨memory, hfound⟩ := h.found hs
  obtain ⟨memory', hview⟩ := exists_shown h.coherent h.parsed w
  have hpend : i.isPending = true := by
    obtain ⟨rule, -, hans, -⟩ := hp
    exact (Correction.answerer_eq_some.mp hans).1
  refine ⟨⟨memory, hfound i hi hpend⟩, memory', ?_⟩
  rw [← hview]
  exact hp

/-- The edits that a turn goes on to apply have grounds. -/
theorem Grounded.grounds_of_mem (h : Grounded e m) (hs : m.stage = .correcting) {edit : Edit}
    (hedit : edit ∈ e.editsFrom m w) :
    ∃ i, e.Grounds m.source.path m.source.text i edit := by
  obtain ⟨p, hp, rfl⟩ := List.mem_map.mp hedit
  obtain ⟨k, i, -, hi, hproposes⟩ := Correction.exists_of_mem_proposals
    (Correction.mem_proposals_of_mem_accepted _ _ _ _ hp)
  exact ⟨i, h.grounds hs (List.mem_of_getElem? hi) hproposes⟩

/-- **The grounds of a round**: its corrected issues, each with the edit that it is the ground
of. -/
theorem Grounded.exists_pairs (h : Grounded e m) (hs : m.stage = .correcting)
    (hch : (e.correction m w).changed = true) :
    ∃ qs : List (Issue × Edit),
      (e.correction m w).issuesAt (e.correction m w).corrected
        = qs.map (fun q => q.1.withStatus .corrected) ∧
      (e.correction m w).edits = qs.map (·.2) ∧
      ∀ q ∈ qs, e.Grounds m.source.path m.source.text q.1 q.2 := by
  obtain ⟨qs, hissues, hedits, hall⟩ := Correction.exists_pairs_of_changed _ _ _ _ _ hch
  exact ⟨qs, hissues, hedits, fun q hq => h.grounds hs (hall q hq).1 (hall q hq).2⟩

end Correcting

/-! ### Relations that all edits uphold -/

/-- **All edits with grounds replace octets by others in a relation to them.** The number that goes
with the relation depends on the rule. -/
def Upholds (e : Engine σ) (R : Nat → Bytes → Bytes → Prop) (cost : String → Nat) : Prop :=
  ∀ path text i edit, e.Grounds path text i edit →
    ∃ old, edit.Replaces (Utf8.ofString text) old ∧ R (cost i.rule) old edit.octets

/-- The number for some rounds: that of the rule, for each issue they corrected. -/
def total (cost : String → Nat) (rounds : List Round) : Nat :=
  ((rounds.flatMap (·.corrected)).map fun i => cost i.rule).sum

theorem total_cons (cost : String → Nat) (r : Round) (rounds : List Round) :
    total cost (r :: rounds) = (r.corrected.map fun i => cost i.rule).sum + total cost rounds := by
  rw [total, List.flatMap_cons, List.map_append, List.sum_append, total]

theorem total_snoc (cost : String → Nat) (rounds : List Round) (r : Round) :
    total cost (rounds ++ [r])
      = total cost rounds + (r.corrected.map fun i => cost i.rule).sum := by
  rw [total, List.flatMap_append, List.flatMap_singleton, List.map_append, List.sum_append, total]

/-- Between the first text and the present one the relation holds. -/
structure Upheld (e : Engine σ) (R : Nat → Bytes → Bytes → Prop) (cost : String → Nat)
    (s : Source) (past : List (Machine × World σ)) (m : Machine) : Prop where
  grounded : Grounded e m
  kept : R (total cost (e.roundsOf past)) (Utf8.ofString s.text) (Utf8.ofString m.source.text)

variable {R : Nat → Bytes → Bytes → Prop} {cost : String → Nat} {s : Source}

/-- One round relates the text before it and the text after it. -/
theorem Grounded.revise (hR : Graded R) (he : e.Upholds R cost) {m : Machine} {w : World σ}
    (h : Grounded e m) (hs : m.stage = .correcting) (hch : (e.correction m w).changed = true)
    (hv : Correction.Revised (m.source.view e.parser w).2.1 (m.source.view e.parser w).1 m.issues
      (e.correction m w)) :
    R (((e.correction m w).issuesAt (e.correction m w).corrected).map fun i => cost i.rule).sum
      (Utf8.ofString m.source.text) (Utf8.ofString (e.correction m w).source.text) := by
  obtain ⟨qs, hissues, hedits, hall⟩ := h.exists_pairs hs hch
  have hbytes : (m.source.view e.parser w).1.bytes = Utf8.ofString m.source.text := by
    rw [Source.view_fst h.coherent, View.ofText_bytes]
  -- each edit with the number for its rule
  let es : List (Nat × Edit) := qs.map fun q => (cost q.1.rule, q.2)
  have hsnd : es.map (·.2) = (e.correction m w).edits := by
    rw [hedits, List.map_map]
    rfl
  have hfst : es.map (·.1)
      = ((e.correction m w).issuesAt (e.correction m w).corrected).map fun i => cost i.rule := by
    rw [hissues, List.map_map, List.map_map]
    rfl
  have hsep : (es.map (·.2)).Pairwise fun a b => a.stop < b.start := by
    rw [hsnd]
    exact hv.separated
  have happly := hR.applyEdits hsep fun p hp => by
    obtain ⟨q, hq, rfl⟩ := List.mem_map.mp hp
    exact he _ _ _ _ (hall q hq)
  rw [hsnd, hfst, ← hbytes, ← hv.octets, hbytes] at happly
  exact happly

theorem Upheld.step (hR : Graded R) (he : e.Upholds R cost) {past : List (Machine × World σ)}
    {m : Machine} {w : World σ} (h : Upheld e R cost s past m) (hd : m.stage ≠ .done)
    (hf : (e.step ac m w).fault = none) :
    Upheld e R cost s (past ++ [(m, w)]) (e.step ac m w).machine := by
  have hmoves := moves_step hd hf
  refine ⟨h.grounded.step hmoves, ?_⟩
  -- a turn that makes no round leaves the text alone
  cases hmoves.effect with
  | idle hp hr hk hs =>
    rw [roundsOf_snoc_none e past _ hr, hk.text]
    exact h.kept
  | look a ha hs hp hr hm =>
    obtain ⟨stage, issues, converged, hm, -⟩ := hm
    rw [roundsOf_snoc_none e past _ hr, hm]
    change R _ _ (Utf8.ofString (e.analyze m.source w).2.1.text)
    rw [analyze_source, Source.view_text]
    exact h.kept
  | revise hs hp hr hv hm =>
    have hch : (e.correction m w).changed = true := by
      rw [Correction.changed, Bool.not_eq_true', List.isEmpty_eq_false_iff]
      intro hnil
      have hlen := hv.length_corrected
      rw [hnil] at hlen
      exact hv.edits_ne_nil (List.length_eq_zero_iff.mp hlen.symm)
    rw [roundsOf_snoc_some e past _ hr, total_snoc, hm]
    exact hR.follow h.kept (h.grounded.revise hR he hs hch hv)

theorem step_text_of_fault {m : Machine} {w : World σ} {f : Fault} (hd : m.stage ≠ .done)
    (hf : (e.step ac m w).fault = some f) :
    (e.step ac m w).machine.source.text = m.source.text := by
  rcases step_cases e ac hd w with ⟨-, h⟩ | ⟨-, -, h⟩ | ⟨-, -, h⟩ | ⟨-, -, h⟩
  · rw [h] at hf
    cases hf
  · rw [h, analyzeStep_eq] at hf ⊢
    split at hf
    · change (e.analyze m.source w).2.1.text = m.source.text
      rw [analyze_source, Source.view_text]
    · cases hf
  · rw [h, correctStep_eq] at hf ⊢
    split at hf
    · next f' hf' =>
      -- the edits were not text when applied, and the source was left as it was
      change (e.correction m w).source.text = m.source.text
      have hsource := Correction.apply_source_of_fault _ _ _ _ _ hf'
      rw [correction, hsource, Source.view_text]
    · cases hf
  · rw [h, reparseStep_eq] at hf ⊢
    split at hf
    · exact Source.reparse_text e.parser m.source w
    · cases hf

/-- **What all edits uphold, a run upholds**, whatever disturbs it. Unless the source is given up,
the number is that of all rounds. -/
theorem Loops.upheld (hR : Graded R) (he : e.Upholds R cost) (hs : s.Coherent)
    (hp : s.ParsedBy e.parser) {w : World σ} {states : List (Machine × World σ)} {t : Turn σ}
    (h : e.Loops ac (start ac s) w states t) :
    ∃ n, R n (Utf8.ofString s.text) (Utf8.ofString t.machine.source.text) ∧
      (t.fault = none → n = total cost (e.roundsOf states)) := by
  have hinit : Upheld e R cost s [] (start ac s) :=
    ⟨Grounded.initial hs hp, hR.same _⟩
  -- ended as it should, or given up: then the last turn left the text as it was
  rcases h.cases (fun past m w h hd hf => h.step hR he hd hf) hinit with
    ⟨hend, -, -⟩ | ⟨past, m, w', f, hm, hd, hf, rfl, -⟩
  · exact ⟨_, hend.kept, fun _ => rfl⟩
  · refine ⟨total cost (e.roundsOf past), ?_, fun hnone => ?_⟩
    · rw [step_text_of_fault hd hf]
      exact hm.kept
    · rw [hf] at hnone
      cases hnone

end Lintel.Engine
