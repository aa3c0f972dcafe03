import Lintel.Proofs.Correction.Outcome
import Lintel.Proofs.Edit.Graded
import Lintel.Scripted
import Mathlib.Data.List.Basic
import Mathlib.Data.List.Pairwise
import Mathlib.Data.List.Sort

/-!
# Which corrections are applied

A pass of correction chooses among the edits that it is offered. `Offers` says what an offer is,
told by the calls that are made: the rule of an issue, asked in its turn, returned an edit, and the
edit lies inside the range of the issue and inside the text. All other answers count for nothing.

`apply_selects` says which offers are taken. If the pass comes to an end, that is, if the edited
octets are text, then:

* the issues with an offer are divided into the corrected ones and those in conflict, each of which
  is marked as what it is, and no other issue is touched;
* the applied edits are those offered for the corrected issues. Each ends before the next one
  starts, with at least one octet between them, and all lie in the text;
* a conflict has a reason: an applied edit comes before the rejected one and touches or overlaps
  it. So the choice cannot be enlarged;
* something is applied if there is any offer at all, and otherwise nothing changes.

**How.** The selection goes through the proposals in the order of their starts, the earlier issue
first where starts are equal (`inOrder_ahead`), and keeps in mind where the last accepted edit
ends. That offset is all it needs: as starts only grow, an edit that starts behind it lies behind
every accepted edit (`selectFrom_separated`), and one that does not is blocked by the last accepted
one (`exists_blocker`).
-/

namespace Lintel

/-- The ranges of two edits touch or overlap. -/
def Edit.Touches (a b : Edit) : Prop := a.start ≤ b.stop ∧ b.start ≤ a.stop

namespace Correction

variable {σ : Type} {rules : List (Rule σ)} {v : View}

/-! ### Offers -/

/-- The memory in which the rule of the issue at a position is asked: what the calls for the issues
before it have left. -/
def memoryAt (rules : List (Rule σ)) (v : View) (issues : List Issue) (w : World σ) (k : Nat) : σ :=
  (gatherFrom rules v 0 (issues.take k) w).world.memory

/-- **An edit is offered for the issue at a position**: the issue is pending, its rule is known, and
the rule returned the edit, which lies inside the range of the issue and inside the text. -/
def Offers (rules : List (Rule σ)) (v : View) (issues : List Issue) (w : World σ) (k : Nat)
    (e : Edit) : Prop :=
  ∃ i rule, issues[k]? = some i ∧ i.isPending = true ∧ ruleFor rules i = some rule ∧
    (rule.correct v i (memoryAt rules v issues w k)).answer = .ok (some e) ∧
    i.start ≤ e.start ∧ e.stop ≤ i.stop ∧ e.stop ≤ v.bytes.length

theorem Offers.stop_le {issues : List Issue} {w : World σ} {k : Nat} {e : Edit}
    (h : Offers rules v issues w k e) : e.stop ≤ v.bytes.length := by
  obtain ⟨i, rule, -, -, -, -, -, -, hstop⟩ := h
  exact hstop

theorem Offers.unique {issues : List Issue} {w : World σ} {k : Nat} {e e' : Edit}
    (h : Offers rules v issues w k e) (h' : Offers rules v issues w k e') : e = e' := by
  obtain ⟨i, rule, hi, -, hrule, hanswer, -⟩ := h
  obtain ⟨i', rule', hi', -, hrule', hanswer', -⟩ := h'
  obtain rfl : i = i' := Option.some.inj (hi.symm.trans hi')
  obtain rfl : rule = rule' := Option.some.inj (hrule.symm.trans hrule')
  -- Issue and rule are settled by the position, and the rule was asked in one world only.
  rw [hanswer] at hanswer'
  injection hanswer' with hanswer'
  exact Option.some.inj hanswer'

theorem verdict_eq_some_iff {size : Nat} {i : Issue} {answer : Except Fault (Option Edit)}
    {e : Edit} :
    verdict size i answer = .ok (some e) ↔
      answer = .ok (some e) ∧ i.start ≤ e.start ∧ e.stop ≤ i.stop ∧ e.stop ≤ size := by
  rcases answer with f | (_ | e')
  · simp [verdict]
  · simp [verdict]
  · by_cases houtside : (e'.start : Int) < i.start ∨ i.stop < (e'.stop : Int)
    · -- outside of the issue
      rw [verdict, checkBounds, if_pos houtside]
      constructor
      · rintro ⟨⟩
      · rintro ⟨heq, hstart, hstop, -⟩
        cases heq
        omega
    · by_cases hend : size < e'.stop
      · -- past the end of the text
        rw [verdict, checkBounds, if_neg houtside, if_pos hend]
        constructor
        · rintro ⟨⟩
        · rintro ⟨heq, -, -, hsize⟩
          cases heq
          omega
      · rw [verdict, checkBounds, if_neg houtside, if_neg hend]
        constructor
        · rintro ⟨⟩
          exact ⟨rfl, by omega, by omega, by omega⟩
        · rintro ⟨heq, -⟩
          cases heq
          rfl

theorem gatherFrom_world (m n : Nat) (issues : List Issue) (w : World σ) :
    (gatherFrom rules v m issues w).world = (gatherFrom rules v n issues w).world := by
  induction issues generalizing m n w with
  | nil => rfl
  | cons i more ih =>
    cases ha : answerer rules i with
    | none =>
      rw [gatherFrom_cons_none ha, gatherFrom_cons_none ha]
      exact ih _ _ _
    -- the number goes into the proposal; request and memory know nothing of it
    | some rule =>
      rw [gatherFrom_cons_some ha, gatherFrom_cons_some ha, Gathered.add_world, Gathered.add_world]
      exact ih _ _ _

theorem offers_zero {i : Issue} {more : List Issue} {w : World σ} {e : Edit} :
    Offers rules v (i :: more) w 0 e ↔ ∃ rule, answerer rules i = some rule ∧
      verdict v.bytes.length i (rule.correct v i w.memory).answer = .ok (some e) := by
  constructor
  · -- asked in the memory of `w`, since no issue comes before the first
    rintro ⟨j, rule, hj, hpending, hrule, hanswer, hinside⟩
    cases hj
    exact ⟨rule, answerer_eq_some.mpr ⟨hpending, hrule⟩,
      verdict_eq_some_iff.mpr ⟨hanswer, hinside⟩⟩
  · rintro ⟨rule, ha, hverdict⟩
    obtain ⟨hpending, hrule⟩ := answerer_eq_some.mp ha
    obtain ⟨hanswer, hinside⟩ := verdict_eq_some_iff.mp hverdict
    exact ⟨i, rule, rfl, hpending, hrule, hanswer, hinside⟩

/-- What is offered for the other issues is what they are offered without the first one, in the
world that is left when its rule has been asked. -/
theorem offers_succ {i : Issue} {more : List Issue} {w w' : World σ}
    (h : ∀ issues, (gatherFrom rules v 0 (i :: issues) w).world
      = (gatherFrom rules v 0 issues w').world) {k : Nat} {e : Edit} :
    Offers rules v (i :: more) w (k + 1) e ↔ Offers rules v more w' k e := by
  have hmemory : memoryAt rules v (i :: more) w (k + 1) = memoryAt rules v more w' k := by
    rw [memoryAt, memoryAt, List.take_succ_cons, h]
  unfold Offers
  rw [hmemory, List.getElem?_cons_succ]

/-- **Proposals are offers.** -/
theorem mem_proposals_iff {index : Nat} {issues : List Issue} {w : World σ} {p : Proposal} :
    p ∈ (gatherFrom rules v index issues w).proposals ↔
      ∃ k, p.index = index + k ∧ Offers rules v issues w k p.edit := by
  induction issues generalizing index w with
  | nil =>
    constructor
    · intro h
      cases h
    · rintro ⟨k, -, i, rule, hi, -⟩
      cases hi
  | cons i more ih =>
    -- an issue that comes later is numbered from one on
    have hlater : ∀ w', (∀ issues, (gatherFrom rules v 0 (i :: issues) w).world
        = (gatherFrom rules v 0 issues w').world) →
        (p ∈ (gatherFrom rules v (index + 1) more w').proposals ↔
          ∃ k, p.index = index + (k + 1) ∧ Offers rules v (i :: more) w (k + 1) p.edit) := by
      intro w' hw
      rw [ih]
      constructor
      · rintro ⟨k, hk, hoffer⟩
        exact ⟨k, by omega, (offers_succ hw).mpr hoffer⟩
      · rintro ⟨k, hk, hoffer⟩
        exact ⟨k, by omega, (offers_succ hw).mp hoffer⟩
    cases ha : answerer rules i with
    | none =>
      -- Nobody answers for the first issue: it proposes nothing and the world stays.
      rw [gatherFrom_cons_none ha, hlater w fun issues => by
        rw [gatherFrom_cons_none ha, gatherFrom_world]]
      constructor
      · rintro ⟨k, hk, hoffer⟩
        exact ⟨k + 1, hk, hoffer⟩
      · rintro ⟨k, hk, hoffer⟩
        cases k with
        | zero =>
          obtain ⟨rule, hrule, -⟩ := offers_zero.mp hoffer
          rw [ha] at hrule
          cases hrule
        | succ k => exact ⟨k, hk, hoffer⟩
    | some rule =>
      -- One rule answers, with an edit or without; either way the world goes on from its answer.
      rw [gatherFrom_cons_some ha, mem_add_proposals,
        hlater (w.after (.correct i.rule v.text i) (rule.correct v i w.memory)) fun issues => by
          rw [gatherFrom_cons_some ha, Gathered.add_world, gatherFrom_world]]
      constructor
      · rintro (⟨hverdict, hindex⟩ | ⟨k, hk, hoffer⟩)
        · exact ⟨0, hindex, offers_zero.mpr ⟨rule, ha, hverdict⟩⟩
        · exact ⟨k + 1, hk, hoffer⟩
      · rintro ⟨k, hk, hoffer⟩
        cases k with
        | zero =>
          obtain ⟨rule', hrule', hverdict⟩ := offers_zero.mp hoffer
          obtain rfl : rule = rule' := Option.some.inj (ha.symm.trans hrule')
          exact .inl ⟨hverdict, hk⟩
        | succ k => exact .inr ⟨k, hk, hoffer⟩

/-! ### The order of the proposals -/

/-- A proposal comes before another: its edit starts first, or its issue does where both edits start
at the same offset. -/
def Ahead (p q : Proposal) : Prop :=
  p.edit.start < q.edit.start ∨ p.edit.start = q.edit.start ∧ p.index < q.index

theorem inOrder_sorted (ps : List Proposal) :
    (inOrder ps).Pairwise fun p q => p.edit.start ≤ q.edit.start :=
  List.pairwise_mergeSort' (Order.Preimage (fun p : Proposal => p.edit.start) (· ≤ ·)) ps

theorem filter_inOrder (ps : List Proposal) (offset : Nat) :
    (inOrder ps).filter (·.edit.start == offset) = ps.filter (·.edit.start == offset) := by
  have hequal : (ps.filter (·.edit.start == offset)).Pairwise
      fun p q => decide (p.edit.start ≤ q.edit.start) = true := by
    refine List.Pairwise.imp_of_mem (fun {p q} hp hq _ => ?_)
      (List.pairwise_of_forall (R := fun _ _ => True) fun _ _ => trivial)
    have hp := beq_iff_eq.mp (List.mem_filter.mp hp).2
    have hq := beq_iff_eq.mp (List.mem_filter.mp hq).2
    exact decide_eq_true (Nat.le_of_eq (hp.trans hq.symm))
  -- A sort that is stable keeps every sorted sublist, and one of equal elements is sorted.
  have hsub : (ps.filter (·.edit.start == offset)).Sublist (inOrder ps) := by
    refine List.sublist_mergeSort (fun a b c hab hbc => ?_) (fun a b => ?_) hequal
      List.filter_sublist
    · simp only [decide_eq_true_eq] at hab hbc ⊢
      exact Nat.le_trans hab hbc
    · simp only [Bool.or_eq_true, decide_eq_true_eq]
      exact Nat.le_total a.edit.start b.edit.start
  have hsub' := hsub.filter (·.edit.start == offset)
  rw [List.filter_filter] at hsub'
  simp only [Bool.and_self] at hsub'
  have hperm := (List.mergeSort_perm ps fun a b => decide (a.edit.start ≤ b.edit.start)).filter
    (·.edit.start == offset)
  exact (hsub'.eq_of_length hperm.length_eq.symm).symm

/-- **The order of the selection.** -/
theorem inOrder_ahead {ps : List Proposal} (h : ps.Pairwise fun p q => p.index < q.index) :
    (inOrder ps).Pairwise Ahead := by
  rw [List.pairwise_iff_forall_sublist]
  intro p q hpq
  have hle := List.pairwise_iff_forall_sublist.mp (inOrder_sorted ps) hpq
  rcases Nat.lt_or_eq_of_le hle with hlt | heq
  · exact .inl hlt
  · -- both are among the proposals that start where `q` starts
    have hsame := hpq.filter (·.edit.start == q.edit.start)
    rw [filter_inOrder, List.filter_cons_of_pos (by simp [heq]),
      List.filter_cons_of_pos (by simp), List.filter_nil] at hsame
    have hindex := List.pairwise_iff_forall_sublist.mp h (hsame.trans List.filter_sublist)
    exact .inr ⟨heq, hindex⟩

/-- **A rejected proposal is blocked** by the edit that was accepted last before it. -/
theorem exists_blocker {last : Option Nat} {ps : List Proposal} (hps : ps.Pairwise Ahead)
    {p : Proposal} (h : p ∈ (selectFrom last ps).2) :
    (∃ stop, last = some stop ∧ p.edit.start ≤ stop) ∨
      ∃ q ∈ (selectFrom last ps).1, Ahead q p ∧ p.edit.start ≤ q.edit.stop := by
  induction ps generalizing last with
  | nil => cases h
  | cons q ps ih =>
    obtain ⟨hfirst, hrest⟩ := List.pairwise_cons.mp hps
    rw [selectFrom] at h ⊢
    split at h
    · next hclear =>
      rw [if_pos hclear]
      have hp : p ∈ ps :=
        (selectFrom_perm (some q.edit.stop) ps).mem_iff.mp (List.mem_append_right _ h)
      rcases ih hrest h with ⟨stop, hstop, hle⟩ | ⟨r, hr, hahead, hle⟩
      · -- nothing was accepted since `q`
        cases hstop
        exact .inr ⟨q, List.mem_cons_self, hfirst p hp, hle⟩
      · exact .inr ⟨r, List.mem_cons_of_mem _ hr, hahead, hle⟩
    · next hclear =>
      rw [if_neg hclear]
      rcases List.mem_cons.mp h with rfl | h
      · -- the proposal itself met the end of an accepted edit
        cases last with
        | none => exact absurd rfl hclear
        | some stop =>
          have hnot : ¬ stop < p.edit.start := fun hlt => hclear (decide_eq_true hlt)
          exact .inl ⟨stop, rfl, Nat.not_lt.mp hnot⟩
      · exact ih hrest h

/-- **What is rejected**: the proposals that come after an accepted one and touch it. -/
theorem mem_rejected_iff {ps : List Proposal} (h : ps.Pairwise fun p q => p.index < q.index)
    {q : Proposal} :
    q ∈ (select ps).2 ↔ q ∈ ps ∧ ∃ p ∈ (select ps).1, Ahead p q ∧ p.edit.Touches q.edit := by
  have hperm := select_perm ps
  constructor
  · intro hq
    refine ⟨hperm.mem_iff.mp (List.mem_append_right _ hq), ?_⟩
    rcases exists_blocker (inOrder_ahead h) hq with ⟨stop, hstop, -⟩ | ⟨p, hp, hahead, hle⟩
    · -- nothing has been accepted before the first proposal
      cases hstop
    · have hstart : p.edit.start ≤ q.edit.start := by
        rcases hahead with hlt | ⟨heq, -⟩
        · exact Nat.le_of_lt hlt
        · exact Nat.le_of_eq heq
      exact ⟨p, hp, hahead, Nat.le_trans hstart q.edit.start_le_stop, hle⟩
  · rintro ⟨hq, p, hp, hahead, htouch⟩
    rcases List.mem_append.mp (hperm.mem_iff.mpr hq) with hq | hq
    · -- two accepted edits do not touch
      have hne : p ≠ q := by
        rintro rfl
        unfold Ahead at hahead
        omega
      have hclear : (select ps).1.Pairwise fun a b =>
          a.edit.stop < b.edit.start ∨ b.edit.stop < a.edit.start :=
        (selectFrom_separated none (inOrder ps)).imp Or.inl
      have : Std.Symm fun a b : Proposal =>
          a.edit.stop < b.edit.start ∨ b.edit.stop < a.edit.start := ⟨fun _ _ h => h.symm⟩
      have hor := List.Pairwise.forall hclear hp hq hne
      unfold Edit.Touches at htouch
      omega
    · exact hq

/-! ### What is applied -/

/-- What a pass of correction does with the offers. -/
structure Selects (rules : List (Rule σ)) (source : Source) (v : View) (issues : List Issue)
    (w : World σ) (c : Correction σ) : Prop where
  offered_iff : ∀ k, k ∈ c.corrected ∨ k ∈ c.conflicts ↔ ∃ e, Offers rules v issues w k e
  /-- No issue is both, and none is listed twice. -/
  nodup : (c.corrected ++ c.conflicts).Nodup
  corrected : ∀ k ∈ c.corrected, c.issues[k]? = issues[k]?.map (Issue.withStatus .corrected)
  conflicts : ∀ k ∈ c.conflicts, c.issues[k]? = issues[k]?.map (Issue.withStatus .conflict)
  others : ∀ k, k ∉ c.corrected → k ∉ c.conflicts → c.issues[k]? = issues[k]?
  edits : List.Forall₂ (Offers rules v issues w) c.corrected c.edits
  separated : c.edits.Pairwise fun a b => a.stop < b.start
  inside : ∀ e ∈ c.edits, e.stop ≤ v.bytes.length
  /-- An edit that is rejected comes after an applied one that it touches. -/
  blocked : ∀ k ∈ c.conflicts, ∀ e, Offers rules v issues w k e →
    ∃ p : Proposal, p.index ∈ c.corrected ∧ p.edit ∈ c.edits ∧
      Offers rules v issues w p.index p.edit ∧ Ahead p ⟨k, e⟩ ∧ p.edit.Touches e
  taken : (∃ k e, Offers rules v issues w k e) → c.edits ≠ []
  idle : (∀ k e, ¬ Offers rules v issues w k e) → c.source = source ∧ c.issues = issues
  /-- No object is both corrected and in conflict, unless it is in the list twice. -/
  apart : issues.Pairwise Issue.Differs → ∀ k ∈ c.corrected, ∀ l ∈ c.conflicts, ∀ i j,
    issues[k]? = some i → issues[l]? = some j → i.Differs j

theorem differs_of_ne {issues : List Issue} (h : issues.Pairwise Issue.Differs) {k l : Nat}
    (hne : k ≠ l) {i j : Issue} (hi : issues[k]? = some i) (hj : issues[l]? = some j) :
    i.Differs j := by
  obtain ⟨hk, rfl⟩ := List.getElem?_eq_some_iff.mp hi
  obtain ⟨hl, rfl⟩ := List.getElem?_eq_some_iff.mp hj
  rcases Nat.lt_or_gt_of_ne hne with hlt | hgt
  · exact List.pairwise_iff_getElem.mp h k l hk hl hlt
  · exact (List.pairwise_iff_getElem.mp h l k hl hk hgt).symm

section Apply

variable (rules : List (Rule σ)) (source : Source) (v : View) (issues : List Issue) (w : World σ)

theorem mem_proposals_zero {p : Proposal} :
    p ∈ (gatherFrom rules v 0 issues w).proposals ↔ Offers rules v issues w p.index p.edit := by
  -- Positions are counted from zero here, so the offset of the recursion drops out.
  rw [mem_proposals_iff]
  constructor
  · rintro ⟨k, hk, hoffer⟩
    rw [Nat.zero_add] at hk
    rwa [hk]
  · intro hoffer
    exact ⟨p.index, (Nat.zero_add _).symm, hoffer⟩

/-- Without an offer nothing is selected. -/
theorem selects_nothing (h : (gatherFrom rules v 0 issues w).proposals = []) :
    Selects rules source v issues w (apply rules source v issues w) := by
  have hnone : ∀ k e, ¬ Offers rules v issues w k e := by
    intro k e hoffer
    have hp := (mem_proposals_zero rules v issues w (p := ⟨k, e⟩)).mpr hoffer
    rw [h] at hp
    cases hp
  rw [apply_of_nil rules source v issues w h]
  -- The fields that speak of an offer speak of nothing.
  exact {
    offered_iff := fun k => by
      constructor
      · rintro (hk | hk) <;> cases hk
      · rintro ⟨e, he⟩
        exact absurd he (hnone k e)
    nodup := List.nodup_nil
    corrected := fun k hk => nomatch hk
    conflicts := fun k hk => nomatch hk
    others := fun _ _ _ => rfl
    edits := .nil
    separated := .nil
    inside := fun e he => nomatch he
    blocked := fun k hk => nomatch hk
    taken := fun ⟨k, e, he⟩ => absurd he (hnone k e)
    idle := fun _ => ⟨rfl, rfl⟩
    apart := fun _ k hk => nomatch hk }

/-- **What is selected if there is an offer** and the edited octets are text. -/
theorem selects_of_ok {chars : List Char} (hne : (gatherFrom rules v 0 issues w).proposals ≠ [])
    (h : Utf8.decode (applyEdits v.bytes (chosen rules v issues w)) = .ok chars) :
    Selects rules source v issues w (apply rules source v issues w) := by
  have heq := apply_of_ok rules source v issues w hne h
  have hoffer := fun p => mem_proposals_zero rules v issues w (p := p)
  have hblocker : ∀ q ∈ (select (gatherFrom rules v 0 issues w).proposals).2,
      ∃ p ∈ (select (gatherFrom rules v 0 issues w).proposals).1,
        Ahead p q ∧ p.edit.Touches q.edit := fun q hq =>
    ((mem_rejected_iff (pairwise_index 0 issues w)).mp hq).2
  have hnodup := nodup_index rules v issues w
  have hsome : (select (gatherFrom rules v 0 issues w).proposals).1 ≠ [] := by
    rw [ne_eq, accepted_eq_nil]
    exact hne
  rw [chosen] at heq
  rw [heq]
  -- from here on only the proposals, the accepted and the rejected ones matter
  generalize (gatherFrom rules v 0 issues w).proposals = ps at hoffer hblocker hnodup hsome ⊢
  have hperm := select_perm ps
  have hseparated : (select ps).1.Pairwise fun a b => a.edit.stop < b.edit.start :=
    selectFrom_separated none (inOrder ps)
  generalize (select ps).1 = accepted at hperm hnodup hsome hseparated hblocker ⊢
  generalize (select ps).2 = rejected at hperm hnodup hblocker ⊢
  have haccepted : ∀ p ∈ accepted, Offers rules v issues w p.index p.edit := fun p hp =>
    (hoffer p).mp (hperm.mem_iff.mp (List.mem_append_left _ hp))
  have hrejected : ∀ p ∈ rejected, Offers rules v issues w p.index p.edit := fun p hp =>
    (hoffer p).mp (hperm.mem_iff.mp (List.mem_append_right _ hp))
  -- A position proposes once, so it is accepted or rejected and not both.
  have hdisjoint : ∀ k ∈ rejected.map (·.index), k ∉ accepted.map (·.index) := by
    rw [List.map_append, List.nodup_append] at hnodup
    intro k hk hk'
    exact hnodup.2.2 k hk' k hk rfl
  exact {
    offered_iff := by
      intro k
      constructor
      · rintro (hk | hk)
        · obtain ⟨p, hp, rfl⟩ := List.mem_map.mp hk
          exact ⟨p.edit, haccepted p hp⟩
        · obtain ⟨p, hp, rfl⟩ := List.mem_map.mp hk
          exact ⟨p.edit, hrejected p hp⟩
      · rintro ⟨e, he⟩
        have hp := hperm.mem_iff.mpr ((hoffer ⟨k, e⟩).mpr he)
        rcases List.mem_append.mp hp with hp | hp
        · exact .inl (List.mem_map_of_mem (f := (·.index)) hp)
        · exact .inr (List.mem_map_of_mem (f := (·.index)) hp)
    nodup := by rwa [List.map_append] at hnodup
    corrected := by
      intro k hk
      -- the mark of a corrected issue is the last one
      rw [getElem?_mark_of_mem hk, getElem?_mark_of_not_mem fun hk' => hdisjoint k hk' hk]
    conflicts := by
      intro k hk
      rw [getElem?_mark_of_not_mem (hdisjoint k hk), getElem?_mark_of_mem hk]
    others := by
      intro k hk hk'
      rw [getElem?_mark_of_not_mem hk, getElem?_mark_of_not_mem hk']
    edits := by
      rw [List.forall₂_map_left_iff, List.forall₂_map_right_iff, List.forall₂_same]
      exact haccepted
    separated := by
      rw [List.pairwise_map]
      exact hseparated
    inside := by
      intro e he
      obtain ⟨p, hp, rfl⟩ := List.mem_map.mp he
      exact (haccepted p hp).stop_le
    blocked := by
      intro k hk e he
      obtain ⟨q, hq, rfl⟩ := List.mem_map.mp hk
      obtain rfl : q.edit = e := (hrejected q hq).unique he
      obtain ⟨p, hp, hahead, htouch⟩ := hblocker q hq
      exact ⟨p, List.mem_map_of_mem hp, List.mem_map_of_mem hp, haccepted p hp, hahead, htouch⟩
    taken := by
      intro _
      rwa [ne_eq, List.map_eq_nil_iff]
    idle := by
      intro hnone
      obtain ⟨p, hp⟩ := List.exists_mem_of_ne_nil _ hsome
      exact absurd (haccepted p hp) (hnone p.index p.edit)
    apart := by
      intro hdiffer k hk l hl i j hi hj
      refine differs_of_ne hdiffer (fun heq => ?_) hi hj
      rw [heq] at hk
      exact hdisjoint l hl hk }

end Apply

/-! ### A crowded line -/

/-- A rule that answers with what is noted in an issue. -/
def player : Rule Tally :=
  .ofKind <| Scripted.playKind 0 { name := "Play", group := "Test", label := "ScriptRule" } []

def noted (start stop : Int) (remedy : Remedy) : Issue where
  rule := "Test/Play"
  group := "Test"
  message := ""
  severity := .convention
  location := ⟨1, 1⟩
  start := start
  stop := stop
  correctable := true
  remedy := some remedy

/-- Issues in the text `abcdefgh`. The first four have an offer, two of which start together and two
of which touch; then come a refusal, an issue without an answer, an edit that leaves its issue, and
an issue that is disabled. -/
def crowd : List Issue :=
  [noted 5 6 (.replace 5 5 "-"), noted 0 3 (.replace 0 3 "X"), noted 0 1 (.replace 0 0 "!"),
    noted 2 4 (.replace 3 4 "y"), noted 5 7 (.refuse "no"), noted 5 7 .decline,
    noted 6 7 (.replace 5 7 ""), (noted 6 8 (.replace 6 8 "")).withStatus .disabled]

def crowded : View := .ofText none "abcdefgh" (.error .noTree)

def quietWorld : World Tally := ⟨{}, false, []⟩

theorem inOrder_crowd :
    inOrder (gatherFrom [player] crowded 0 crowd quietWorld).proposals
      = [⟨1, 0, 3, "X", by decide⟩, ⟨2, 0, 0, "!", by decide⟩, ⟨3, 3, 4, "y", by decide⟩,
          ⟨0, 5, 5, "-", by decide⟩] := by
  have hproposals : (gatherFrom [player] crowded 0 crowd quietWorld).proposals
      = [⟨0, 5, 5, "-", by decide⟩, ⟨1, 0, 3, "X", by decide⟩, ⟨2, 0, 0, "!", by decide⟩,
          ⟨3, 3, 4, "y", by decide⟩] := rfl
  have hahead : (inOrder (gatherFrom [player] crowded 0 crowd quietWorld).proposals).Pairwise
      Ahead := inOrder_ahead (pairwise_index 0 crowd quietWorld)
  rw [hproposals] at hahead ⊢
  -- both lists hold the same proposals, and no two of them are each ahead of the other
  refine List.Perm.eq_of_pairwise (fun p q _ _ hpq hqp => ?_) hahead ?_
    ((List.mergeSort_perm _ _).trans (by decide))
  · unfold Ahead at hpq hqp
    omega
  · simp [Ahead]

theorem select_crowd :
    select (gatherFrom [player] crowded 0 crowd quietWorld).proposals
      = ([⟨1, 0, 3, "X", by decide⟩, ⟨0, 5, 5, "-", by decide⟩],
          [⟨2, 0, 0, "!", by decide⟩, ⟨3, 3, 4, "y", by decide⟩]) := by
  rw [select, inOrder_crowd]
  rfl

theorem decode_crowd :
    Utf8.decode (applyEdits crowded.bytes (chosen [player] crowded crowd quietWorld))
      = .ok "Xde-fgh".toList := by
  have hseparated := chosen_separated [player] crowded crowd quietWorld
  rw [chosen, select_crowd] at hseparated ⊢
  rw [List.map_cons] at hseparated ⊢
  rw [applyEdits_cons hseparated, List.map_cons,
    applyEdits_cons (List.pairwise_cons.mp hseparated).2]
  decide +kernel

theorem select_twins :
    select [⟨0, 0, 1, "b", Nat.zero_le 1⟩, ⟨1, 0, 1, "b", Nat.zero_le 1⟩]
      = ([⟨0, 0, 1, "b", Nat.zero_le 1⟩], [⟨1, 0, 1, "b", Nat.zero_le 1⟩]) := by
  rw [select, inOrder, List.mergeSort_of_pairwise (by decide)]
  rfl

theorem decode_twins :
    Utf8.decode (applyEdits (Utf8.ofString "a") [⟨0, 1, "b", Nat.zero_le 1⟩]) = .ok ['b'] := by
  decide +kernel

/-- An issue of the letter a that is one object wherever it stands. -/
def notedTwin : Issue := { noted 0 1 (.replace 0 1 "b") with object := some 0 }

/-- An object that is in the list twice is both corrected and in conflict. -/
theorem corrected_twin :
    ¬ notedTwin.Differs notedTwin ∧
      (apply [player] (Source.ofText "a") (.ofText none "a" (.error .noTree))
        [notedTwin, notedTwin] quietWorld).corrected = [0] ∧
      (apply [player] (Source.ofText "a") (.ofText none "a" (.error .noTree))
        [notedTwin, notedTwin] quietWorld).conflicts = [1] := by
  -- both proposals start at the same offset, and the first of them is taken
  have hselect : select (gatherFrom [player] (.ofText none "a" (.error .noTree)) 0
      [notedTwin, notedTwin] quietWorld).proposals
      = ([⟨0, 0, 1, "b", Nat.zero_le 1⟩], [⟨1, 0, 1, "b", Nat.zero_le 1⟩]) := select_twins
  rw [apply_of_select [player] (Source.ofText "a") _ _ _ hselect (List.cons_ne_nil _ _)
    decode_twins]
  refine ⟨?_, rfl, rfl⟩
  rintro (h | h)
  · cases h
  · exact h rfl

end Correction
end Lintel
