import Lintel.Proofs.Correction.Selection
import Lintel.Proofs.Rules.Mending

/-!
# The rules of the library always answer

A rule may fail, and it may propose an edit that lies outside of its issue or cuts a character in
two. The rules that come with the library do neither, whatever the text and the tree of the parser
look like:

* a rule that is asked for findings gives a list whenever the parser has answered
  (`detect_answers`);
* a rule that is asked to correct an issue which one of them found declines or proposes an edit
  over exactly the range of the issue, and both ends of it lie between characters
  (`covers_of_proposes`). That no node ends before it starts is all that is needed for an answer
  (`correct_answers`).

The ranges of nodes need not have anything to do with characters, but the rule on parentheses
looks at the octets at both ends before it proposes anything. An octet that is a parenthesis stands
between characters. This goes also for a node that is empty, where the octet at its end is the one
in front of it, and for offsets that lie outside of the text, where there is no octet to be seen.
-/

namespace Lintel

variable {σ : Type}

/-- No node of the tree ends before it starts. -/
def View.Ordered (v : View) : Prop :=
  ∀ p, v.parsed = .ok p → ∀ n ∈ p.nodes, n.start ≤ n.stop

/-- **An edit over the range of an issue** that begins and ends between characters. -/
structure Edit.Covers (bs : Bytes) (i : Issue) (e : Edit) : Prop where
  start_eq : (e.start : Int) = i.start
  stop_eq : (e.stop : Int) = i.stop
  start : Boundary bs e.start
  stop : Boundary bs e.stop

theorem Edit.Covers.verdict {bs : Bytes} {i : Issue} {e : Edit} (h : e.Covers bs i) :
    Correction.verdict bs.length i (.ok (some e)) = .ok (some e) :=
  Correction.verdict_eq_some_iff.mpr
    ⟨rfl, Int.le_of_eq h.start_eq.symm, Int.le_of_eq h.stop_eq, h.stop.1⟩

namespace Rules

/-! ### Findings -/

/-- **The library's rules find issues, or none, in whatever the parser made of the text.** -/
theorem detect_answers {r : Rule σ} (hr : r.kind ∈ shipped) {v : View} {p : Parsed}
    (hp : v.parsed = .ok p) (memory : σ) :
    ∃ found, (r.detect v memory).answer = .ok (some found) := by
  obtain ⟨kind, config⟩ := r
  have hnodes : ∀ find, ∃ found,
      (Rule.detectNodes find config v memory).answer = .ok (some found) := by
    intro find
    refine ⟨find config v p.nodes, ?_⟩
    change (v.nodes.map fun ns => some (find config v ns)) = _
    rw [View.nodes, hp]
    rfl
  simp only [shipped, List.mem_cons, List.not_mem_nil, or_false] at hr
  rcases hr with rfl | rfl | rfl | rfl | rfl
  · -- text that does not parse
    refine ⟨Unparsable.find config v p, ?_⟩
    change (v.parsed.map fun p => some (Unparsable.find config v p)) = _
    rw [hp]
    rfl
  · exact hnodes _
  · exact hnodes _
  · exact hnodes _
  · exact ⟨_, rfl⟩

/-! ### Corrections -/

theorem exists_proposeEdit {start stop : Nat} (h : start ≤ stop) (text : String) :
    ∃ edit, Rule.proposeEdit start stop text = .ok (some edit) := by
  have hrange : 0 ≤ (start : Int) ∧ (start : Int) ≤ stop := ⟨by omega, by omega⟩
  unfold Rule.proposeEdit Edit.make
  rw [dif_pos hrange]
  exact ⟨_, rfl⟩

theorem toNat_lt_of_isSpace {b : UInt8} (h : TrailingWhitespace.isSpace b = true) :
    b.toNat < 0x80 := by
  rw [TrailingWhitespace.isSpace, Bool.or_eq_true, beq_iff_eq, beq_iff_eq] at h
  rcases h with rfl | rfl
  · decide
  · decide

theorem boundaries_of_mem_runs {bs : Bytes} (ht : Utf8.IsText bs) {range : Nat × Nat}
    (h : range ∈ TrailingWhitespace.runs bs) :
    range.1 ≤ range.2 ∧ Boundary bs range.1 ∧ Boundary bs range.2 := by
  obtain ⟨before, blanks, after, rfl, hs, he, hne, hall⟩ := TrailingWhitespace.isRun_of_mem_runs h
  refine ⟨by omega, ?_, ?_⟩
  · -- in front of the first blank
    obtain ⟨b, rest, rfl⟩ := List.exists_cons_of_ne_nil hne
    have hb := toNat_lt_of_isSpace (hall b List.mem_cons_self)
    rw [List.append_assoc, List.cons_append] at ht ⊢
    rw [hs]
    exact boundary_of_ascii hb ht
  · -- behind the last one
    rcases List.eq_nil_or_concat' blanks with rfl | ⟨init, b, rfl⟩
    · exact absurd rfl hne
    · have hb := toNat_lt_of_isSpace (hall b (List.mem_append_right _ List.mem_cons_self))
      have hsplit : before ++ (init ++ [b]) ++ after = (before ++ init) ++ b :: after := by
        simp only [List.append_assoc, List.singleton_append]
      have hstop : range.2 = (before ++ init).length + 1 := by
        simp only [List.length_append, List.length_singleton] at he ⊢
        omega
      rw [hsplit] at ht ⊢
      rw [hstop]
      exact boundary_after_ascii hb ht

/-- **A range with parentheses at its ends begins and ends between characters**, and the edit is
over that range. -/
theorem boundaries_of_propose {v : View} (ht : Utf8.IsText v.bytes) {start stop : Nat} {edit : Edit}
    (h : RedundantParentheses.propose v start stop = .ok (some edit)) :
    edit.start = start ∧ edit.stop = stop ∧ Boundary v.bytes start ∧ Boundary v.bytes stop := by
  unfold RedundantParentheses.propose at h
  split at h
  · next hparens =>
    obtain ⟨hopen, hclose⟩ := hparens
    -- there is no octet in front of the text
    obtain ⟨last, rfl⟩ : ∃ last, stop = last + 1 := by
      cases stop with
      | succ last => exact ⟨last, rfl⟩
      | zero =>
        rw [Int.natCast_zero, slice_zero] at hclose
        cases hclose
    rw [Int.natCast_add, Int.natCast_one, Int.add_sub_cancel] at hclose
    obtain ⟨hstart, hstop, -⟩ := of_proposeEdit h
    exact ⟨Int.ofNat_inj.mp hstart, Int.ofNat_inj.mp hstop,
      (boundaries_of_drop_eq ht (by decide) (drop_of_slice_eq hopen)).1,
      (boundaries_of_drop_eq ht (by decide) (drop_of_slice_eq hclose)).2⟩
  · cases h

section Corrections

variable {rules : List (Rule σ)} (hr : ∀ r ∈ rules, r.kind ∈ shipped) {v v' : View}
  (hbytes : v'.bytes = v.bytes) (ht : Utf8.IsText v.bytes) {i : Issue}
  (hfind : ∃ r ∈ rules, r.Finds v i)

include hr hbytes ht hfind

/-- **An edit for an issue that a rule of the library found covers the issue**, whatever the tree
looks like. -/
theorem covers_of_correct {rule : Rule σ} (ha : Correction.answerer rules i = some rule)
    {memory : σ} {edit : Edit} (h : (rule.correct v' i memory).answer = .ok (some edit)) :
    edit.Covers v.bytes i := by
  obtain ⟨-, hcases⟩ := answerer_cases hr hfind ha
  rw [Rule.correct] at h
  rcases hcases with ⟨hk, range, hrange, hs, he⟩ | ⟨hk, p, n, -, -, -, hs, he⟩
  · -- blanks at the end of a line
    rw [hk] at h
    change Rule.proposeEdit i.start i.stop "" = .ok (some edit) at h
    obtain ⟨hstart, hstop, -⟩ := of_proposeEdit h
    obtain ⟨-, hbefore, hafter⟩ := boundaries_of_mem_runs ht hrange
    have hstart' : edit.start = range.1 := Int.ofNat_inj.mp (hstart.trans hs)
    have hstop' : edit.stop = range.2 := Int.ofNat_inj.mp (hstop.trans he)
    exact ⟨hstart, hstop, hstart' ▸ hbefore, hstop' ▸ hafter⟩
  · -- parentheses
    rw [hk] at h
    change RedundantParentheses.propose v' i.start i.stop = .ok (some edit) at h
    rw [hs, he] at h
    obtain ⟨hstart, hstop, hbefore, hafter⟩ := boundaries_of_propose (hbytes ▸ ht) h
    rw [hbytes] at hbefore hafter
    exact ⟨hs ▸ congrArg Nat.cast hstart, he ▸ congrArg Nat.cast hstop, hstart ▸ hbefore,
      hstop ▸ hafter⟩

theorem covers_of_proposes {edit : Edit} (hp : Correction.Proposes rules v' i edit) :
    edit.Covers v.bytes i := by
  obtain ⟨rule, memory, ha, hverdict⟩ := hp
  exact covers_of_correct hr hbytes ht hfind ha (of_verdict hverdict)

/-- **The library's rules decline or propose an edit that covers the issue**, if no node ends before
it starts. -/
theorem correct_answers (ho : v.Ordered) {rule : Rule σ}
    (ha : Correction.answerer rules i = some rule) (memory : σ) :
    ∃ proposed, (rule.correct v' i memory).answer = .ok proposed ∧
      ∀ edit, proposed = some edit → edit.Covers v.bytes i := by
  -- An answer that proposes an edit covers the issue by `covers_of_correct`; it is left to show
  -- that there is an answer at all.
  suffices hanswer : ∃ proposed, (rule.correct v' i memory).answer = .ok proposed by
    obtain ⟨proposed, hproposed⟩ := hanswer
    refine ⟨proposed, hproposed, fun edit hedit => ?_⟩
    rw [hedit] at hproposed
    exact covers_of_correct hr hbytes ht hfind ha hproposed
  obtain ⟨-, hcases⟩ := answerer_cases hr hfind ha
  rw [Rule.correct]
  rcases hcases with ⟨hk, range, hrange, hs, he⟩ | ⟨hk, p, n, hp, hn, -, hs, he⟩
  · -- a run of blanks: nothing takes its place
    rw [hk]
    obtain ⟨edit, hedit⟩ := exists_proposeEdit (boundaries_of_mem_runs ht hrange).1 ""
    refine ⟨some edit, ?_⟩
    change Rule.proposeEdit i.start i.stop "" = _
    rwa [hs, he]
  · rw [hk]
    change ∃ proposed, RedundantParentheses.propose v' i.start i.stop = .ok proposed
    unfold RedundantParentheses.propose
    split
    · rw [hs, he]
      obtain ⟨edit, hedit⟩ := exists_proposeEdit (ho p hp n hn) _
      exact ⟨some edit, hedit⟩
    · exact ⟨none, rfl⟩

end Corrections

end Rules

end Lintel
