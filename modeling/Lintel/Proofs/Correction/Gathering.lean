import Lintel.Correction

/-!
# Asking for corrections

`Correction.gatherFrom` goes through the issues of a pass and asks the rule of each pending one
for an edit. What comes of it is said here once, for arbitrary rules:

* `gatherFrom_calls` — which calls are made: one for each issue in `asked`, in order, with the
  text of the view;
* `exists_of_mem_proposals` — a proposal is an edit that the rule of its issue gave and that
  passed the bounds check, and `pairwise_index` — proposals are in the order of their issues, no
  two for the same one;
* `proposals_eq_nil` and `not_proposed_of_nil` — when there is no proposal;
* `gatherFrom_phase` — what is put on record is put on record as a failed correction.
-/

namespace Lintel

theorem Issue.status_of_isPending {i : Issue} (h : i.isPending = true) : i.status = .reported := by
  simp only [Issue.isPending, Bool.and_eq_true, beq_iff_eq] at h
  exact h.2

namespace Correction

variable {σ : Type} {rules : List (Rule σ)} {v : View}

def answerer (rules : List (Rule σ)) (i : Issue) : Option (Rule σ) :=
  if i.isPending then ruleFor rules i else none

theorem answerer_eq_some {i : Issue} {rule : Rule σ} :
    answerer rules i = some rule ↔ i.isPending = true ∧ ruleFor rules i = some rule := by
  unfold answerer
  split
  · next h => simp [h]
  · next h => simp [h]

theorem mem_of_answerer {i : Issue} {rule : Rule σ} (h : answerer rules i = some rule) :
    rule ∈ rules :=
  List.mem_reverse.mp (List.mem_of_find?_eq_some (answerer_eq_some.mp h).2)

/-- The issues for which a correction is asked: the pending ones whose rule is known. -/
def asked (rules : List (Rule σ)) (issues : List Issue) : List Issue :=
  issues.filter fun i => (answerer rules i).isSome

theorem mem_asked {issues : List Issue} {i : Issue} (h : i ∈ asked rules issues) :
    i ∈ issues ∧ i.isPending = true := by
  obtain ⟨hi, hs⟩ := List.mem_filter.mp h
  obtain ⟨rule, hrule⟩ := Option.isSome_iff_exists.mp hs
  exact ⟨hi, (answerer_eq_some.mp hrule).1⟩

/-- An issue that nobody is asked about is passed over. -/
theorem gatherFrom_cons_none {i : Issue} (h : answerer rules i = none) (index : Nat)
    (more : List Issue) (w : World σ) :
    gatherFrom rules v index (i :: more) w = gatherFrom rules v (index + 1) more w := by
  rw [answerer] at h
  rw [gatherFrom, h]

def Gathered.add (rest : Gathered σ) (index : Nat) (rule : String) (path : Option String) :
    Except Fault (Option Edit) → Gathered σ
  | .error f => { rest with diagnostics := .ofFault rule path .correct f :: rest.diagnostics }
  | .ok none => rest
  | .ok (some e) => { rest with proposals := ⟨index, e⟩ :: rest.proposals }

@[simp] theorem Gathered.add_world (rest : Gathered σ) (index : Nat) (rule : String)
    (path : Option String) (answer : Except Fault (Option Edit)) :
    (rest.add index rule path answer).world = rest.world := by
  unfold Gathered.add
  split <;> rfl

/-- An issue that a rule is asked about: the rule's verdict is added to what the rest gives. -/
theorem gatherFrom_cons_some {i : Issue} {rule : Rule σ} (h : answerer rules i = some rule)
    (index : Nat) (more : List Issue) (w : World σ) :
    gatherFrom rules v index (i :: more) w
      = (gatherFrom rules v (index + 1) more
          (w.after (.correct i.rule v.text i) (rule.correct v i w.memory))).add index i.rule v.path
          (verdict v.bytes.length i (rule.correct v i w.memory).answer) := by
  rw [answerer] at h
  rw [gatherFrom, h]
  simp only
  rcases verdict v.bytes.length i (rule.correct v i w.memory).answer with f | (_ | e) <;> rfl

/-- **The calls that are made**: one for each issue asked about, the newest first. -/
theorem gatherFrom_calls (index : Nat) (issues : List Issue) (w : World σ) :
    (gatherFrom rules v index issues w).world.calls
      = ((asked rules issues).map fun i => Call.correct i.rule v.text i).reverse ++ w.calls := by
  induction issues generalizing index w with
  | nil => rfl
  | cons i more ih =>
    cases h : answerer rules i with
    | none =>
      -- nobody is asked, and no call is made
      have hasked : asked rules (i :: more) = asked rules more := by
        rw [asked, List.filter_cons_of_neg (by simp [h]), ← asked]
      rw [gatherFrom_cons_none h, ih, hasked]
    | some rule =>
      have hasked : asked rules (i :: more) = i :: asked rules more := by
        rw [asked, List.filter_cons_of_pos (by simp [h]), ← asked]
      rw [gatherFrom_cons_some h, Gathered.add_world, ih, hasked, World.after_calls, List.map_cons,
        List.reverse_cons, List.append_assoc]
      rfl

/-! ### Proposals -/

/-- The rule of the issue proposed this edit, and the edit passed the bounds check. -/
def Proposes (rules : List (Rule σ)) (v : View) (i : Issue) (e : Edit) : Prop :=
  ∃ rule memory, answerer rules i = some rule ∧
    verdict v.bytes.length i (rule.correct v i memory).answer = .ok (some e)

theorem mem_add_proposals {rest : Gathered σ} {index : Nat} {rule : String} {path : Option String}
    {answer : Except Fault (Option Edit)} {p : Proposal} :
    p ∈ (rest.add index rule path answer).proposals ↔
      (answer = .ok (some p.edit) ∧ p.index = index) ∨ p ∈ rest.proposals := by
  unfold Gathered.add
  split
  · simp
  · simp
  · -- only an edit that passed the check adds a proposal
    next e =>
    rw [List.mem_cons]
    constructor
    · rintro (rfl | h)
      · exact .inl ⟨rfl, rfl⟩
      · exact .inr h
    · rintro (⟨h, rfl⟩ | h)
      · injection h with h
        injection h with h
        exact .inl (by rw [h])
      · exact .inr h

theorem add_proposals_eq_nil {rest : Gathered σ} {index : Nat} {rule : String}
    {path : Option String} {answer : Except Fault (Option Edit)} :
    (rest.add index rule path answer).proposals = [] ↔
      (∀ e, answer ≠ .ok (some e)) ∧ rest.proposals = [] := by
  unfold Gathered.add
  split <;> simp

/-- **Where a proposal comes from.** -/
theorem exists_of_mem_proposals {index : Nat} {issues : List Issue} {w : World σ} {p : Proposal}
    (h : p ∈ (gatherFrom rules v index issues w).proposals) :
    ∃ k i, p.index = index + k ∧ issues[k]? = some i ∧ Proposes rules v i p.edit := by
  induction issues generalizing index w with
  | nil => cases h
  | cons i more ih =>
    -- a proposal of the rest refers to an issue one position further on
    have hrest : ∀ w', p ∈ (gatherFrom rules v (index + 1) more w').proposals →
        ∃ k j, p.index = index + k ∧ (i :: more)[k]? = some j ∧ Proposes rules v j p.edit := by
      intro w' hp
      obtain ⟨k, j, hk, hj, hpr⟩ := ih hp
      exact ⟨k + 1, j, by omega, hj, hpr⟩
    cases ha : answerer rules i with
    | none =>
      rw [gatherFrom_cons_none ha] at h
      exact hrest _ h
    | some rule =>
      rw [gatherFrom_cons_some ha, mem_add_proposals] at h
      rcases h with ⟨hv, hi⟩ | h
      · exact ⟨0, i, hi, rfl, rule, w.memory, ha, hv⟩
      · exact hrest _ h

/-- Proposals come in the order of their issues, and at most one for each. -/
theorem pairwise_index (index : Nat) (issues : List Issue) (w : World σ) :
    (gatherFrom rules v index issues w).proposals.Pairwise fun a b => a.index < b.index := by
  induction issues generalizing index w with
  | nil => exact List.Pairwise.nil
  | cons i more ih =>
    cases ha : answerer rules i with
    | none =>
      rw [gatherFrom_cons_none ha]
      exact ih _ _
    | some rule =>
      rw [gatherFrom_cons_some ha]
      unfold Gathered.add
      split
      · exact ih _ _
      · exact ih _ _
      · -- the proposals of the rest are numbered from the next position on
        refine List.Pairwise.cons (fun p hp => ?_) (ih _ _)
        obtain ⟨k, j, hk, -, -⟩ := exists_of_mem_proposals hp
        change index < p.index
        omega

theorem proposals_eq_nil {issues : List Issue}
    (h : ∀ i ∈ issues, ∀ e, ¬ Proposes rules v i e) (index : Nat) (w : World σ) :
    (gatherFrom rules v index issues w).proposals = [] := by
  rw [List.eq_nil_iff_forall_not_mem]
  intro p hp
  obtain ⟨k, i, -, hi, hpr⟩ := exists_of_mem_proposals hp
  exact h i (List.mem_of_getElem? hi) p.edit hpr

/-- If there is no proposal, each rule that was asked declined or failed the check, in some
memory: the one in which it was asked. -/
theorem not_proposed_of_nil {index : Nat} {issues : List Issue} {w : World σ}
    (h : (gatherFrom rules v index issues w).proposals = []) {i : Issue} (hi : i ∈ issues)
    {rule : Rule σ} (ha : answerer rules i = some rule) :
    ∃ memory, ∀ e, verdict v.bytes.length i (rule.correct v i memory).answer ≠ .ok (some e) := by
  induction issues generalizing index w with
  | nil => cases hi
  | cons j more ih =>
    cases hj : answerer rules j with
    | none =>
      rw [gatherFrom_cons_none hj] at h
      rcases List.mem_cons.mp hi with rfl | hi
      · rw [hj] at ha
        cases ha
      · exact ih h hi
    | some other =>
      rw [gatherFrom_cons_some hj, add_proposals_eq_nil] at h
      rcases List.mem_cons.mp hi with rfl | hi
      · -- the issue in front: its rule was asked in the memory of `w`
        obtain rfl : other = rule := by
          rw [hj] at ha
          injection ha
        exact ⟨w.memory, h.1⟩
      · exact ih h.2 hi

/-! ### Other rules and other worlds -/

/-- **What is proposed, and who fails**, is the same for two lists of rules and in any two worlds,
if the same rules answer for the issues and their answers do not depend on the memory. -/
theorem gatherFrom_congr {rules' : List (Rule σ)} {issues : List Issue}
    (ha : ∀ i ∈ issues, answerer rules' i = answerer rules i)
    (hc : ∀ i ∈ issues, ∀ rule, answerer rules i = some rule →
      ∀ memory memory', (rule.correct v i memory).answer = (rule.correct v i memory').answer)
    (index : Nat) (w w' : World σ) :
    (gatherFrom rules' v index issues w').proposals = (gatherFrom rules v index issues w).proposals ∧
      (gatherFrom rules' v index issues w').diagnostics
        = (gatherFrom rules v index issues w).diagnostics := by
  induction issues generalizing index w w' with
  | nil => exact ⟨rfl, rfl⟩
  | cons i more ih =>
    have hrest := ih (fun j hj => ha j (List.mem_cons_of_mem _ hj))
      (fun j hj => hc j (List.mem_cons_of_mem _ hj)) (index + 1)
    have hi := ha i List.mem_cons_self
    cases hans : answerer rules i with
    | none =>
      rw [gatherFrom_cons_none hans, gatherFrom_cons_none (hi.trans hans)]
      exact hrest _ _
    | some rule =>
      rw [gatherFrom_cons_some hans, gatherFrom_cons_some (hi.trans hans),
        hc i List.mem_cons_self rule hans w'.memory w.memory]
      obtain ⟨hproposals, hdiagnostics⟩ := hrest
        (w.after (.correct i.rule v.text i) (rule.correct v i w.memory))
        (w'.after (.correct i.rule v.text i) (rule.correct v i w'.memory))
      -- the verdict on the answer is the same, so the same is added to what the others come to
      unfold Gathered.add
      split
      · exact ⟨hproposals, by rw [hdiagnostics]⟩
      · exact ⟨hproposals, hdiagnostics⟩
      · exact ⟨by rw [hproposals], hdiagnostics⟩

/-! ### Diagnostics -/

theorem gatherFrom_phase {index : Nat} {issues : List Issue} {w : World σ} {d : Diagnostic}
    (h : d ∈ (gatherFrom rules v index issues w).diagnostics) : d.phase = .correct := by
  induction issues generalizing index w with
  | nil => cases h
  | cons i more ih =>
    cases ha : answerer rules i with
    | none =>
      rw [gatherFrom_cons_none ha] at h
      exact ih h
    | some rule =>
      rw [gatherFrom_cons_some ha] at h
      unfold Gathered.add at h
      split at h
      · -- a failure stands in front of those of the issues behind
        rcases List.mem_cons.mp h with rfl | h
        · rfl
        · exact ih h
      · exact ih h
      · exact ih h

theorem diagnostics_eq_nil {issues : List Issue}
    (h : ∀ i ∈ issues, ∀ rule, answerer rules i = some rule → ∀ memory,
      ∃ proposed, verdict v.bytes.length i (rule.correct v i memory).answer = .ok proposed)
    (index : Nat) (w : World σ) : (gatherFrom rules v index issues w).diagnostics = [] := by
  induction issues generalizing index w with
  | nil => rfl
  | cons i more ih =>
    have hrest := ih fun j hj => h j (List.mem_cons_of_mem _ hj)
    cases ha : answerer rules i with
    | none =>
      rw [gatherFrom_cons_none ha]
      exact hrest _ _
    | some rule =>
      obtain ⟨proposed, hproposed⟩ := h i List.mem_cons_self rule ha w.memory
      rw [gatherFrom_cons_some ha, hproposed]
      -- an answer adds a proposal, or nothing
      cases proposed with
      | none => exact hrest _ _
      | some e => exact hrest _ _

end Correction

end Lintel
