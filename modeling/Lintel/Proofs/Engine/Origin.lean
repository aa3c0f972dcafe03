import Lintel.Proofs.Engine.Disturbance

/-!
# Where sources come from

Whatever is done to a source, it keeps its path and the text it was given at first
(`Source.SameOrigin`). This holds for every turn, also for one that gives up the source
(`step_origin`), so the report on a source tells where it came from and what it was.
-/

namespace Lintel

variable {σ : Type}

theorem Correction.apply_origin (rules : List (Rule σ)) (s : Source) (v : View)
    (issues : List Issue) (w : World σ) : s.SameOrigin (apply rules s v issues w).source := by
  unfold apply
  simp only
  split
  · exact .refl s
  · split
    · exact .refl s
    · exact s.setText_origin _

namespace Engine

variable {e : Engine σ} {ac : Bool}

theorem afterAnalysis_origin (m : Machine) (a : Analysis) :
    m.source.SameOrigin (e.afterAnalysis ac m a).source := by
  unfold afterAnalysis
  simp only
  split
  · exact .refl m.source
  · split
    · exact .refl m.source
    · exact .refl m.source

theorem correction_origin (m : Machine) (w : World σ) :
    m.source.SameOrigin (e.correction m w).source :=
  (m.source.view_origin e.parser w).trans (Correction.apply_origin _ _ _ _ _)

theorem afterCorrection_origin {m : Machine} {c : Correction σ}
    (h : m.source.SameOrigin c.source) : m.source.SameOrigin (afterCorrection m c).source := by
  unfold afterCorrection
  simp only
  split
  · exact h
  · exact h

/-- **No turn changes where a source comes from**, not even one that gives it up. -/
theorem step_origin (m : Machine) (w : World σ) :
    m.source.SameOrigin (e.step ac m w).machine.source := by
  by_cases hd : m.stage = .done
  · rw [step, if_pos hd]
    exact .refl m.source
  -- cancelled, or one of the three stages
  rcases step_cases e ac hd w with ⟨-, h⟩ | ⟨-, -, h⟩ | ⟨-, -, h⟩ | ⟨-, -, h⟩
  · rw [h]
    exact .refl m.source
  · have hview := m.source.view_origin e.parser w
    rw [← analyze_source] at hview
    rw [h]
    cases ha : (e.analyze m.source w).1 with
    | error f =>
      rw [analyzeStep_of_error ha]
      exact hview
    | ok a =>
      rw [analyzeStep_of_ok ha]
      exact hview.trans (afterAnalysis_origin { m with source := (e.analyze m.source w).2.1 } a)
  · have hcorrection : m.source.SameOrigin (e.correction m w).source := correction_origin m w
    rw [h]
    cases hf : (e.correction m w).fault with
    | some f =>
      rw [correctStep_of_fault hf]
      exact hcorrection
    | none =>
      rw [correctStep_of_none hf]
      exact afterCorrection_origin hcorrection
  · have hreparse := m.source.reparse_origin e.parser w
    rw [h]
    cases hp : (m.source.reparse e.parser w).1 with
    | error f =>
      rw [reparseStep_of_error hp]
      exact hreparse
    | ok p =>
      rw [reparseStep_of_ok hp]
      exact hreparse

/-- **A run keeps where a source comes from.** -/
theorem Loops.origin {m : Machine} {w : World σ} {states : List (Machine × World σ)} {t : Turn σ}
    (h : e.Loops ac m w states t) : m.source.SameOrigin t.machine.source := by
  induction h with
  | ended hd => exact .refl _
  | failed hd hw hf => exact step_origin _ _
  | turned hd hw hf h ih => exact (step_origin _ _).trans ih

theorem reportAfter_origin (t : Turn σ) :
    t.machine.source.SameOrigin (e.reportAfter t).source ∧
      (e.reportAfter t).source.text = t.machine.source.text := by
  unfold reportAfter
  split
  · exact ⟨.refl _, rfl⟩
  · exact ⟨⟨rfl, rfl⟩, rfl⟩

end Engine

end Lintel
