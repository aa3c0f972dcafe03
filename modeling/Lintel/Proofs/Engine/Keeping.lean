import Lintel.Proofs.Engine.Grounds

/-!
# What is true of all issues

A machine keeps issues in three lists: those that were corrected, the conflicts of the latest round,
and the issues of the last pass. When an issue is put from one list into another, nothing but its
status changes. So what does not depend on the status and is true of all that passes find is true of
everything that is kept after any turn (`Moves.forall_kept`), and of everything that is reported in
the end (`Loops.forall_reported`), whatever disturbs the run.
-/

namespace Lintel

variable {σ : Type}

/-- A property of issues that does not depend on their status. -/
def Issue.Lasting (P : Issue → Prop) : Prop :=
  ∀ i status, P i → P (i.withStatus status)

def Machine.kept (m : Machine) : List Issue := m.corrected ++ m.conflicts ++ m.issues

/-! ### Corrections change no more than statuses -/

namespace Correction

theorem exists_of_mem_mark {positions : List Nat} {status : Status} {issues : List Issue}
    {i : Issue} (h : i ∈ mark positions status issues) :
    ∃ j ∈ issues, i = j.withStatus i.status := by
  obtain ⟨k, hk⟩ := List.getElem?_of_mem h
  -- Marking keeps places, so the issue at the same position is the one that was there.
  rw [getElem?_mark, Option.map_eq_some_iff] at hk
  obtain ⟨j, hj, rfl⟩ := hk
  refine ⟨j, List.mem_of_getElem? hj, ?_⟩
  split
  · rfl
  · rfl

theorem exists_of_mem_apply {rules : List (Rule σ)} {s : Source} {v : View} {issues : List Issue}
    {w : World σ} {i : Issue} (h : i ∈ (apply rules s v issues w).issues) :
    ∃ j ∈ issues, i = j.withStatus i.status := by
  unfold apply at h
  simp only at h
  split at h
  · exact ⟨i, h, rfl⟩
  · split at h
    · exact exists_of_mem_mark h
    · obtain ⟨j, hj, hi⟩ := exists_of_mem_mark h
      -- marked twice, as a conflict and as corrected, it is still an issue of the pass
      obtain ⟨k, hk, hjk⟩ := exists_of_mem_mark hj
      refine ⟨k, hk, ?_⟩
      rw [hi, hjk]
      rfl

end Correction

namespace Engine

variable {e : Engine σ} {ac : Bool} {P : Issue → Prop} (hP : Issue.Lasting P)
include hP

/-! ### Turns -/

/-- **A turn keeps to a lasting property** that all findings of a pass have. -/
theorem Moves.forall_kept {m m' : Machine} {w w' : World σ} (hm : Moves e ac m w m' w')
    (hlook : ∀ a, (e.analyze m.source w).1 = .ok a → ∀ i ∈ a.issues, P i)
    (h : ∀ i ∈ m.kept, P i) : ∀ i ∈ m'.kept, P i := by
  have hbefore : ∀ i ∈ m.corrected ++ m.conflicts, P i := fun i hi => h i (List.mem_append_left _ hi)
  have hissues : ∀ i ∈ m.issues, P i := fun i hi => h i (List.mem_append_right _ hi)
  cases hm with
  | abort hc => exact h
  | settle hc hs a ha hp => exact List.forall_mem_append.mpr ⟨hbefore, hlook a ha⟩
  | exhaust hc hs a ha hac hp hb =>
    refine List.forall_mem_append.mpr ⟨hbefore, fun i hi => ?_⟩
    obtain ⟨k, hk, rfl | rfl⟩ := exists_of_mem_markUnresolved hi
    · exact hlook a ha i hk
    · exact hP k .unresolved (hlook a ha k hk)
  | proceed hc hs a ha hac hp hb => exact List.forall_mem_append.mpr ⟨hbefore, hlook a ha⟩
  | rest hc hs hn => exact h
  | revise hc hs hch hv =>
    -- The issues kept come from four places: the rounds before, the edits taken, those in conflict,
    -- and the rest, each an issue of before under another status.
    refine List.forall_mem_append.mpr ⟨List.forall_mem_append.mpr
      ⟨List.forall_mem_append.mpr ⟨fun i hi => ?_, fun i hi => ?_⟩, fun i hi => ?_⟩, fun i hi => ?_⟩
    · exact hbefore i (List.mem_append_left _ hi)
    · obtain ⟨j, hj, -, rfl⟩ := hv.corrected_origin i hi
      exact hP j .corrected (hissues j hj)
    · obtain ⟨j, hj, -, rfl⟩ := hv.conflict_origin i hi
      exact hP j .conflict (hissues j hj)
    · obtain ⟨j, hj, hi⟩ := Correction.exists_of_mem_apply hi
      rw [hi]
      exact hP j i.status (hissues j hj)
  | reparse hc hs p hp => exact h

/-! ### Reports -/

omit hP in
theorem mem_kept_of_mem_reportAfter {t : Turn σ} {i : Issue} (hi : i ∈ (e.reportAfter t).issues) :
    t.fault = none ∧ i ∈ t.machine.kept := by
  unfold reportAfter at hi
  cases hf : t.fault with
  | some f =>
    -- a source that is given up lists nothing
    rw [hf] at hi
    exact absurd hi List.not_mem_nil
  | none =>
    rw [hf] at hi
    refine ⟨rfl, ?_⟩
    rcases mem_finalIssues hi with hmem | hmem | ⟨-, hmem⟩
    · exact List.mem_append_left _ (List.mem_append_left _ hmem)
    · exact List.mem_append_left _ (List.mem_append_right _ hmem)
    · exact List.mem_append_right _ hmem

/-- **A lasting property of all findings is one of all that is reported.** -/
theorem Loops.forall_reported
    (hfound : ∀ path text memory i, e.Found (e.shown path text memory) i → P i) {s : Source}
    (hs : s.Coherent) (hp : s.ParsedBy e.parser) {w : World σ} {states : List (Machine × World σ)}
    {t : Turn σ} (h : e.Loops ac (start ac s) w states t) {i : Issue}
    (hi : i ∈ (e.reportAfter t).issues) : P i := by
  obtain ⟨hf, hkept⟩ := mem_kept_of_mem_reportAfter hi
  have hstep : ∀ (past : List (Machine × World σ)) m w,
      Grounded e m ∧ (∀ i ∈ m.kept, P i) → m.stage ≠ .done → (e.step ac m w).fault = none →
      Grounded e (e.step ac m w).machine ∧ ∀ i ∈ (e.step ac m w).machine.kept, P i := by
    rintro past m w ⟨hgrounded, hall⟩ hd hf
    have hmoves := moves_step hd hf
    refine ⟨hgrounded.step hmoves, hmoves.forall_kept hP (fun a ha i hi => ?_) hall⟩
    -- what a pass lists was found, in what the rules are shown of the text
    obtain ⟨j, hij, hfind⟩ := found_of_analyze ha hi
    obtain ⟨memory, hview⟩ := exists_shown hgrounded.coherent hgrounded.parsed w
    rw [hview] at hfind
    rw [hij.eq_withStatus]
    exact hP j i.status (hfound _ _ _ j hfind)
  exact (h.invariant hstep ⟨Grounded.initial hs hp, fun _ hi => absurd hi List.not_mem_nil⟩ hf).2 i
    hkept

end Engine

end Lintel
