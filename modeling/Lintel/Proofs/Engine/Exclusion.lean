import Lintel.Proofs.Engine.Keeping
import Lintel.Proofs.Engine.Library
import Lintel.Proofs.Engine.Origin

/-!
# Rules that are not asked

A pass asks the rules that apply to the path of the source and, if the text does not parse, the
parse rule. All that a report lists goes back to one of these (`Loops.asked`): whether an issue was
corrected, lost against a correction, was found by the last pass or was left over, it was found by
a rule that was asked at some point of the run.

So of the library's rules one that is disabled, or that excludes the path, does not occur in the
report (`applies_of_reported`). This holds for whole runs, however often the text is revised,
because a run keeps the path of its source.
-/

namespace Lintel

variable {σ : Type}

namespace Engine

variable {e : Engine σ} {ac : Bool}

/-! ### Where issues come from -/

def asked (e : Engine σ) (path : Option String) : List (Rule σ) :=
  e.applicable path ++ [e.parseRule]

theorem mem_correctors_of_mem_asked {path : Option String} {r : Rule σ} (h : r ∈ e.asked path) :
    r ∈ e.correctors := by
  rcases List.mem_append.mp h with h | h
  · exact mem_correctors.mpr (.inl (List.mem_filter.mp h).1)
  · exact mem_correctors.mpr (.inr (List.mem_singleton.mp h))

def FoundFor (e : Engine σ) (path : Option String) (i : Issue) : Prop :=
  ∃ r ∈ e.asked path, ∃ v j, r.Finds v j ∧ i = j.withStatus i.status

theorem FoundFor.withStatus {path : Option String} {i : Issue} (h : e.FoundFor path i)
    (status : Status) : e.FoundFor path (i.withStatus status) := by
  obtain ⟨r, hr, v, j, hfinds, hi⟩ := h
  refine ⟨r, hr, v, j, hfinds, ?_⟩
  rw [hi]
  rfl

theorem Recorded.foundFor {path : Option String} {rs : List (Rule σ)} {v : View}
    {issues : List Issue} {made : List Call} (h : Recorded rs v issues made)
    (hrs : ∀ r ∈ rs, r ∈ e.asked path) {i : Issue} (hi : i ∈ issues) : e.FoundFor path i := by
  obtain ⟨j, hij, r, hr, memory, found, hans, hj, -⟩ := h.sound i hi
  have hfound : e.FoundFor path j := ⟨r, hrs r hr, v, j, ⟨memory, found, hans, hj⟩, rfl⟩
  rcases hij with rfl | rfl
  · exact hfound
  · exact hfound.withStatus .disabled

theorem view_path (s : Source) (w : World σ) : (s.view e.parser w).1.path = s.path := by
  have hsame : (s.view e.parser w).1.path = (s.view e.parser w).2.1.path := rfl
  rw [hsame]
  exact (s.view_origin e.parser w).path

theorem foundFor_of_analyze {s : Source} {w : World σ} {a : Analysis}
    (ha : (e.analyze s w).1 = .ok a) {i : Issue} (hi : i ∈ a.issues) : e.FoundFor s.path i := by
  have hpath := view_path (e := e) s w
  unfold analyze at ha
  simp only at ha
  split at ha
  · cases ha
  · split at ha
    · -- the text parses, and the rules that apply to its path are asked
      cases ha
      obtain ⟨made, -, hrec⟩ := exists_detectAll_calls (s.view e.parser w).1
        (e.applicable (s.view e.parser w).1.path) (s.view e.parser w).2.2
      rw [hpath] at hrec
      refine hrec.silence.foundFor (fun r hr => List.mem_append_left _ hr) ?_
      rw [← hpath]
      exact hi
    · -- it does not, and the parse rule alone is asked
      unfold analyzeBroken at ha
      simp only at ha
      split at ha
      · cases ha
      · cases ha
      · next found hfound =>
        cases ha
        have hmem : e.parseRule ∈ e.asked s.path :=
          List.mem_append_right _ (List.mem_singleton.mpr rfl)
        exact ⟨e.parseRule, hmem, _, i, ⟨_, found, hfound, hi⟩, rfl⟩

def Asked (e : Engine σ) (path : Option String) (m : Machine) : Prop :=
  ∀ i ∈ m.corrected ++ m.conflicts ++ m.issues, e.FoundFor path i

theorem Asked.initial (path : Option String) (s : Source) : Asked e path (start ac s) :=
  fun _ hi => absurd hi List.not_mem_nil

/-- **A turn keeps to the rules that may be asked.** -/
theorem Asked.step {path : Option String} {m m' : Machine} {w w' : World σ} (h : Asked e path m)
    (hpath : m.source.path = path) (hm : Moves e ac m w m' w') : Asked e path m' := by
  refine hm.forall_kept (fun i status hi => hi.withStatus status) (fun a ha i hi => ?_) h
  rw [← hpath]
  exact foundFor_of_analyze ha hi

/-- **A loop keeps to the rules that may be asked**, whatever disturbs it. What is reported in the
end was found by one of them. -/
theorem Loops.asked {s : Source} {w : World σ} {states : List (Machine × World σ)} {t : Turn σ}
    (h : e.Loops ac (start ac s) w states t) {i : Issue} (hi : i ∈ (e.reportAfter t).issues) :
    e.FoundFor s.path i := by
  -- the path of the source never changes, and what is kept was found under it
  have hstep : ∀ (past : List (Machine × World σ)) m w,
      m.source.path = s.path ∧ Asked e s.path m → m.stage ≠ .done →
      (e.step ac m w).fault = none →
      (e.step ac m w).machine.source.path = s.path ∧ Asked e s.path (e.step ac m w).machine := by
    rintro past m w ⟨hpath, hasked⟩ hd hf
    exact ⟨(step_origin m w).path.trans hpath, hasked.step hpath (moves_step hd hf)⟩
  obtain ⟨hf, hkept⟩ := mem_kept_of_mem_reportAfter hi
  exact (h.invariant hstep ⟨rfl, Asked.initial s.path s⟩ hf).2 i hkept

/-! ### Rules of the library -/

theorem Shipped.exists_rule (he : e.Shipped) {path : Option String} {i : Issue}
    (h : e.FoundFor path i) : ∃ r ∈ e.asked path, r.fullName = i.rule := by
  obtain ⟨r, hr, v, j, hfinds, hi⟩ := h
  refine ⟨r, hr, ?_⟩
  rw [hi]
  exact (Rules.finds_cases (he r (mem_correctors_of_mem_asked hr)) hfinds).1.symm

/-- **What is reported under the name of a rule**, the rule applies to. Let the rules of an engine
be of the library, and no two of one name. Then a rule whose name occurs in the report on a source
is enabled and does not exclude its path, whatever disturbs the run. -/
theorem applies_of_reported {rules : List (Rule σ)} (hkinds : ∀ r ∈ rules, r.kind ∈ Rules.shipped)
    (hone : ∀ q ∈ rules, ∀ r ∈ rules, q.fullName = r.fullName → q = r) {parser : Parser σ}
    {cwd : String} {budget : Int} (he : ofRules rules parser cwd budget = .ok e) {s : Source}
    {w : World σ} {states : List (Machine × World σ)} {t : Turn σ}
    (h : e.Loops ac (start ac s) w states t) {i : Issue} (hi : i ∈ (e.reportAfter t).issues)
    {q : Rule σ} (hq : q ∈ rules) (hname : q.fullName = i.rule) :
    q.enabled = true ∧ q.excludes cwd s.path = false := by
  have hne : rules ≠ [] := List.ne_nil_of_mem hq
  obtain ⟨e', he', hshipped, -⟩ := shipped_of_ofRules hne hkinds parser cwd budget
  obtain rfl : e = e' := Except.ok.inj (he.symm.trans he')
  obtain ⟨hparse, hrules, hcwd⟩ : e.parseRule = (takeParseRule rules).1 ∧
      e.rules = (takeParseRule rules).2 ∧ e.cwd = cwd := by
    unfold ofRules at he
    rw [List.isEmpty_eq_false_iff.mpr hne] at he
    cases he
    exact ⟨rfl, rfl, rfl⟩
  obtain ⟨r, hr, hrname⟩ := hshipped.exists_rule (h.asked hi)
  rcases List.mem_append.mp hr with hr | hr
  · -- a rule that is asked if the text parses
    obtain ⟨hmem, happlies⟩ := List.mem_filter.mp hr
    rw [hrules] at hmem
    obtain rfl : q = r := hone q hq r (mem_of_mem_takeParseRule hmem) (hname.trans hrname.symm)
    rw [Bool.and_eq_true, Bool.not_eq_true', hcwd] at happlies
    exact happlies
  · -- the parse rule, which can be neither disabled nor excluded
    have hkind : q.kind = Rules.unparsable := by
      rw [List.mem_singleton.mp hr, hparse, ← hname, Rule.fullName, takeParseRule_kind hkinds]
        at hrname
      exact Rules.eq_of_fullName (hkinds q hq) List.mem_cons_self hrname.symm
    rw [Rule.enabled, Rule.excludes, hkind]
    exact ⟨rfl, rfl⟩

end Engine

end Lintel
