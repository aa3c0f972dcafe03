import Lintel.Proofs.Edit.Landing
import Lintel.Proofs.Edit.Simultaneous
import Lintel.Proofs.Text.Slice
import Mathlib.Data.List.Pairwise

/-!
# Ranges of the old text in the new one

`mapRange` goes through the edits from the left to the right and adds up by how much they shift what
comes after them; `applyEdits` applies them from the right to the left. The two are about the same
change. Where an offset of the old octets lies in the new ones can be told without any shifting:
apply the edits that have ended there to the old octets up to there (`upTo`), and see how long the
outcome is. `mapRange_measures` says that `mapRange` gives these lengths. An end of a range that an
edit encloses is moved to the side of the edit first (`Edit.snap`).

What is measured is a front part of the new octets: at an offset that no edit encloses the edits are
divided into those that have ended and those that are still to come, and the new octets into what
either of them make of their part of the old ones (`applyEdits_split`). So the mapped range lies in
the new octets and does not end before it starts, and a range that no edit reaches into is found
again, octet by octet.

The edits may be given in any order, as long as no two of them touch (`Edit.Scattered`): in order of
their starts they are then separated, which is what the lemmas are about.
-/

namespace Lintel

namespace Edit

/-- The edits neither touch nor overlap: one ends before the other starts. -/
def Clears (a b : Edit) : Prop := a.stop < b.start ∨ b.stop < a.start

instance : Std.Symm Clears where
  symm _ _ h := h.symm

/-- No two of the edits touch or overlap. -/
def Scattered (es : List Edit) : Prop := es.Pairwise Clears

/-- The offset lies inside of the range of the edit, and at neither end of it. -/
def Encloses (e : Edit) (offset : Nat) : Prop := e.start < offset ∧ offset < e.stop

instance (e : Edit) (offset : Nat) : Decidable (e.Encloses offset) :=
  inferInstanceAs (Decidable (_ ∧ _))

/-- The end of an edit's range that an end of a range is moved to. -/
def side (which : RangeEnd) (e : Edit) : Nat :=
  match which with
  | .first => e.start
  | .last => e.stop

/-- **Where an end of a range is moved to** before the edits are applied: if an edit encloses it, to
the start or to the end of the edit, whichever it is itself. -/
def snap (which : RangeEnd) (es : List Edit) (offset : Nat) : Nat :=
  match es.find? fun e => e.Encloses offset with
  | some e => e.side which
  | none => offset

def endedBy (es : List Edit) (offset : Nat) : List Edit :=
  es.filter fun e => e.stop ≤ offset

/-- The edits that have not ended at an offset. -/
def stillAt (es : List Edit) (offset : Nat) : List Edit :=
  es.filter fun e => ¬ e.stop ≤ offset

/-! ### The order of scattered edits -/

theorem Scattered.separated {es : List Edit} (h : Scattered es) :
    (ascending es).Pairwise fun a b => a.stop < b.start := by
  have hclears : (ascending es).Pairwise Clears :=
    ((ascending_perm es).pairwise_iff fun hab => hab.symm).mpr h
  refine (hclears.and (ascending_sorted es)).imp ?_
  rintro a b ⟨hlt | hlt, hle⟩
  · exact hlt
  · -- the other way round, the edit with the later start would end first
    have hb := b.start_le_stop
    omega

theorem Scattered.of_perm {es fs : List Edit} (h : Scattered es) (hperm : fs.Perm es) :
    Scattered fs :=
  (hperm.pairwise_iff fun hab => hab.symm).mpr h

theorem scattered_of_separated {es : List Edit} (h : es.Pairwise fun a b => a.stop < b.start) :
    Scattered es :=
  h.imp Or.inl

theorem apart_of_separated {es : List Edit} (h : es.Pairwise fun a b => a.stop < b.start) :
    Apart es where
  starts := by
    -- Two edits with one start would have the first stop before it starts.
    rw [List.nodup_iff_pairwise_ne, List.pairwise_map]
    refine h.imp fun {a b} hab => ?_
    have ha := a.start_le_stop
    omega
  stops := by
    rw [ascending_of_separated h]
    exact (h.imp Nat.le_of_lt).isChain

theorem Scattered.apart {es : List Edit} (h : Scattered es) : Apart es :=
  (apart_of_separated h.separated).of_perm (ascending_perm es).symm

/-- **Scattered edits may be put in order** before they are applied. -/
theorem Scattered.applyEdits_ascending {es : List Edit} (h : Scattered es) (data : Bytes) :
    applyEdits data (ascending es) = applyEdits data es := by
  have hsame := h.apart.ascending_congr (ascending_perm es)
  rw [applyEdits, applyEdits, (h.apart.of_perm (ascending_perm es)).descending_eq,
    h.apart.descending_eq, hsame]

/-! ### Offsets that are moved -/

theorem Scattered.eq_of_encloses {es : List Edit} (h : Scattered es) {offset : Nat} {e f : Edit}
    (he : e ∈ es) (hf : f ∈ es) (heo : e.Encloses offset) (hfo : f.Encloses offset) : e = f := by
  by_contra hne
  have hclears := List.Pairwise.forall h he hf hne
  unfold Clears at hclears
  unfold Encloses at heo hfo
  omega

theorem Scattered.snap_of_encloses {es : List Edit} (h : Scattered es) (which : RangeEnd)
    {offset : Nat} {e : Edit} (he : e ∈ es) (heo : e.Encloses offset) :
    snap which es offset = e.side which := by
  unfold snap
  cases hfind : es.find? fun e => e.Encloses offset with
  | none =>
    have hnone := List.find?_eq_none.mp hfind e he
    exact absurd (decide_eq_true heo) hnone
  -- the one that is found is `e`: no two edits enclose one offset
  | some f =>
    have hfo := List.find?_some hfind
    have hf : f.Encloses offset := of_decide_eq_true hfo
    rw [h.eq_of_encloses he (List.mem_of_find?_eq_some hfind) heo hf]

theorem snap_cons_of_not (which : RangeEnd) {offset : Nat} {e : Edit} (h : ¬ e.Encloses offset)
    (es : List Edit) : snap which (e :: es) offset = snap which es offset := by
  unfold snap
  rw [List.find?_cons_of_neg (by simpa using h)]

theorem snap_of_free {es : List Edit} (which : RangeEnd) {offset : Nat}
    (h : ∀ e ∈ es, ¬ e.Encloses offset) : snap which es offset = offset := by
  have hnone : (es.find? fun e => e.Encloses offset) = none :=
    List.find?_eq_none.mpr fun e he => by simpa using h e he
  rw [snap, hnone]

/-- **An end of a range stays where it is, or an edit encloses it.** -/
theorem snap_cases (which : RangeEnd) (es : List Edit) (offset : Nat) :
    (snap which es offset = offset ∧ ∀ e ∈ es, ¬ e.Encloses offset) ∨
      ∃ e ∈ es, e.Encloses offset ∧ snap which es offset = e.side which := by
  unfold snap
  -- At most the first edit that encloses the offset decides where it snaps to.
  cases hfind : es.find? fun e => e.Encloses offset with
  | none =>
    refine .inl ⟨rfl, fun e he heo => ?_⟩
    exact List.find?_eq_none.mp hfind e he (decide_eq_true heo)
  | some e =>
    have heo := List.find?_some hfind
    exact .inr ⟨e, List.mem_of_find?_eq_some hfind, of_decide_eq_true heo, rfl⟩

theorem snap_first_le (es : List Edit) (offset : Nat) : snap .first es offset ≤ offset := by
  rcases snap_cases .first es offset with ⟨heq, -⟩ | ⟨e, -, heo, heq⟩
  · exact Nat.le_of_eq heq
  · rw [heq]
    exact Nat.le_of_lt heo.1

theorem le_snap_last (es : List Edit) (offset : Nat) : offset ≤ snap .last es offset := by
  rcases snap_cases .last es offset with ⟨heq, -⟩ | ⟨e, -, heo, heq⟩
  · exact Nat.le_of_eq heq.symm
  · rw [heq]
    exact Nat.le_of_lt heo.2

/-- No edit encloses an offset that has been moved. -/
theorem Scattered.not_encloses_snap {es : List Edit} (h : Scattered es) (which : RangeEnd)
    (offset : Nat) : ∀ e ∈ es, ¬ e.Encloses (snap which es offset) := by
  rcases snap_cases which es offset with ⟨heq, hfree⟩ | ⟨f, hf, hfo, heq⟩
  · rwa [heq]
  · -- a side of an edit is not inside of that edit, and no other one reaches as far
    intro e he heo
    rw [heq] at heo
    by_cases hef : e = f
    · subst hef
      unfold Encloses at heo
      cases which with
      | first => exact absurd heo.1 (Nat.lt_irrefl _)
      | last => exact absurd heo.2 (Nat.lt_irrefl _)
    · have hclears := List.Pairwise.forall h he hf hef
      unfold Clears at hclears
      unfold Encloses at hfo
      cases which with
      | first =>
        change e.start < f.start ∧ f.start < e.stop at heo
        omega
      | last =>
        change e.start < f.stop ∧ f.stop < e.stop at heo
        omega

/-- The order of the edits has no influence on where an offset is moved to. -/
theorem Scattered.snap_ascending {es : List Edit} (h : Scattered es) (which : RangeEnd)
    (offset : Nat) : snap which (ascending es) offset = snap which es offset := by
  rcases snap_cases which es offset with ⟨heq, hfree⟩ | ⟨e, he, heo, heq⟩
  · rw [heq]
    exact snap_of_free which fun e he => hfree e ((ascending_perm es).mem_iff.mp he)
  · rw [heq]
    exact (h.of_perm (ascending_perm es)).snap_of_encloses which
      ((ascending_perm es).mem_iff.mpr he) heo

/-! ### Shifts -/

theorem landing_endedBy (es : List Edit) (offset : Nat) :
    landing (endedBy es offset) offset = landing es offset := by
  induction es with
  | nil => rfl
  | cons e es ih =>
    unfold endedBy at ih ⊢
    -- only edits that have ended move an offset
    by_cases hstop : e.stop ≤ offset
    · rw [List.filter_cons_of_pos (by simpa using hstop), landing_cons_of_le hstop,
        landing_cons_of_le hstop, ih]
    · rw [List.filter_cons_of_neg (by simpa using hstop), landing_cons_of_lt (Nat.not_le.mp hstop),
        ih]

/-- An edit that lies to the left of others does not enclose an offset behind it, nor the offset
that this one is moved to. -/
theorem le_snap_of_le {e : Edit} {es : List Edit} (h : ∀ f ∈ es, e.stop < f.start) {offset : Nat}
    (hstop : e.stop ≤ offset) (which : RangeEnd) : e.stop ≤ snap which es offset := by
  rcases snap_cases which es offset with ⟨heq, -⟩ | ⟨f, hf, -, heq⟩
  · rwa [heq]
  · -- moved to an end of `f`, which lies behind `e` as a whole
    have hlt := h f hf
    have hse := f.start_le_stop
    rw [heq]
    cases which with
    | first => exact Nat.le_of_lt hlt
    | last => exact Nat.le_of_lt (Nat.lt_of_lt_of_le hlt hse)

/-- **The accumulated shift of an offset** is that of the offset it is moved to. -/
theorem mapOffsetFrom_eq {es : List Edit} (h : es.Pairwise fun a b => a.stop < b.start)
    (offset : Nat) (which : RangeEnd) (shift : Int) :
    mapOffsetFrom offset which shift es = landing es (snap which es offset) + shift := by
  induction es generalizing shift with
  | nil => rfl
  | cons e es ih =>
    obtain ⟨hfirst, hrest⟩ := List.pairwise_cons.mp h
    have hscattered : Scattered (e :: es) := scattered_of_separated h
    have hse := e.start_le_stop
    have hgrowth : e.growth = (e.octets.length : Int) - ((e.stop : Int) - e.start) := rfl
    have hself : ∀ k : Nat, k ≤ e.stop → landing es k = k := fun k hk =>
      landing_eq_self fun f hf => Nat.lt_of_le_of_lt hk (hfirst f hf)
    rw [mapOffsetFrom_cons]
    by_cases hstop : e.stop ≤ offset
    · -- the edit has ended, and what is moved is moved by the others
      have hnot : ¬ e.Encloses offset := fun heo => absurd heo.2 (Nat.not_lt.mpr hstop)
      rw [if_pos (by omega), ih hrest, snap_cons_of_not which hnot,
        landing_cons_of_le (le_snap_of_le hfirst hstop which)]
      omega
    · by_cases hstart : e.start < offset
      · -- the edit encloses the offset
        have heo : e.Encloses offset := ⟨hstart, Nat.not_le.mp hstop⟩
        rw [if_neg (by omega), if_pos (by omega),
          hscattered.snap_of_encloses which List.mem_cons_self heo]
        cases which with
        -- The first end snaps to the start of the edit, which only edits before it move.
        | first =>
          have hleft : landing es e.start = e.start := hself _ hse
          change _ = landing (e :: es) e.start + shift
          rw [landing_cons_of_lt (by omega), hleft]
          simp only
          omega
        -- The last end snaps to the stop, which the edit itself moves as well.
        | last =>
          have hright : landing es e.stop = e.stop := hself _ (Nat.le_refl _)
          change _ = landing (e :: es) e.stop + shift
          rw [landing_cons_of_le (Nat.le_refl _), hright]
          simp only
          omega
      · -- all edits lie to the right of the offset
        have hfree : ∀ f ∈ e :: es, ¬ f.Encloses offset := by
          intro f hf hfo
          rcases List.mem_cons.mp hf with rfl | hf
          · exact hstart hfo.1
          · have hlt := hfirst f hf
            have hlt' := hfo.1
            omega
        have hleft : landing es offset = offset := hself _ (by omega)
        rw [if_neg (by omega), if_neg (by omega), snap_of_free which hfree,
          landing_cons_of_lt (by omega), hleft]

/-- **How long the new octets are.** -/
theorem length_applyEdits {data : Bytes} {es : List Edit}
    (h : es.Pairwise fun a b => a.stop < b.start) (hin : ∀ e ∈ es, e.stop ≤ data.length) :
    ((applyEdits data es).length : Int) = landing es data.length := by
  induction es with
  | nil => rw [applyEdits_nil, landing_nil]
  | cons e es ih =>
    obtain ⟨hfirst, hrest⟩ := List.pairwise_cons.mp h
    have hstop : e.stop ≤ data.length := hin e List.mem_cons_self
    have hse := e.start_le_stop
    have hlength := ih hrest fun f hf => hin f (List.mem_cons_of_mem _ hf)
    -- the others leave everything up to the end of this edit
    have hbound := le_landing hrest (fun f hf => Nat.le_of_lt (hfirst f hf)) hstop
    rw [applyEdits_cons h, landing_cons_of_le hstop, ← hlength, splice, growth]
    rw [← hlength] at hbound
    simp only [List.length_append, List.length_take, List.length_drop]
    omega

end Edit

/-! ### Front parts of the new octets -/

/-- **Weaving up to an offset, and from there on.** -/
theorem weave_append {α : Type} (old : List α) {ps qs : List (Patch α)} {offset k : Nat}
    (hoffset : offset ≤ k) (hps : ∀ p ∈ ps, p.start ≤ p.stop ∧ p.stop ≤ k)
    (hqs : ∀ q ∈ qs, k ≤ q.start) :
    weave old offset (ps ++ qs) = weave (old.take k) offset ps ++ weave old k qs := by
  have hdrop : (old.drop offset).drop (k - offset) = old.drop k := by
    rw [List.drop_drop]
    congr 1
    omega
  induction ps generalizing offset with
  | nil =>
    -- the gap in front of the next patch is cut in two
    cases qs with
    | nil =>
      change old.drop offset = (old.take k).drop offset ++ old.drop k
      rw [List.drop_take, ← hdrop, List.take_append_drop]
    | cons q qs =>
      have hq : k ≤ q.start := hqs q List.mem_cons_self
      have hgap : (old.drop offset).take (q.start - offset)
          = (old.drop offset).take (k - offset) ++ (old.drop k).take (q.start - k) := by
        have hlength : q.start - offset = (k - offset) + (q.start - k) := by omega
        rw [hlength, List.take_add, hdrop]
      rw [List.nil_append, weave, weave, weave, hgap, List.drop_take]
      simp only [List.append_assoc]
  -- A patch of the first part lies below the cut, and so does the gap in front of it.
  | cons p ps ih =>
    obtain ⟨hle, hstop⟩ := hps p List.mem_cons_self
    have hrest := ih hstop (fun q hq => hps q (List.mem_cons_of_mem _ hq)) <| by
      rw [List.drop_drop]
      congr 1
      omega
    have hgap : ((old.take k).drop offset).take (p.start - offset)
        = (old.drop offset).take (p.start - offset) := by
      rw [List.drop_take, List.take_take, Nat.min_eq_left (by omega)]
    rw [List.cons_append, weave, weave, hrest, hgap]
    simp only [List.append_assoc]

/-- The old octets up to an offset, with the edits applied that have ended there. -/
def upTo (old : Bytes) (es : List Edit) (offset : Nat) : Bytes :=
  applyEdits (old.take offset) (Edit.endedBy es offset)

namespace Edit

theorem mem_endedBy {es : List Edit} {offset : Nat} {e : Edit} :
    e ∈ endedBy es offset ↔ e ∈ es ∧ e.stop ≤ offset := by
  rw [endedBy, List.mem_filter, decide_eq_true_eq]

theorem mem_stillAt {es : List Edit} {offset : Nat} {e : Edit} :
    e ∈ stillAt es offset ↔ e ∈ es ∧ offset < e.stop := by
  rw [stillAt, List.mem_filter, decide_eq_true_eq, Nat.not_le]

theorem separated_endedBy {es : List Edit} (h : es.Pairwise fun a b => a.stop < b.start)
    (offset : Nat) : (endedBy es offset).Pairwise fun a b => a.stop < b.start :=
  h.filter _

theorem endedBy_endedBy (es : List Edit) {offset k : Nat} (h : offset ≤ k) :
    endedBy (endedBy es k) offset = endedBy es offset := by
  unfold endedBy
  rw [List.filter_filter]
  refine List.filter_congr fun e _ => ?_
  rw [Bool.and_eq_left_iff_imp]
  simp only [decide_eq_true_eq]
  exact fun hstop => Nat.le_trans hstop h

theorem endedBy_append_stillAt {es : List Edit} (h : es.Pairwise fun a b => a.stop < b.start)
    (offset : Nat) : endedBy es offset ++ stillAt es offset = es := by
  induction es with
  | nil => rfl
  | cons e es ih =>
    obtain ⟨hfirst, hrest⟩ := List.pairwise_cons.mp h
    have ih := ih hrest
    unfold endedBy stillAt at ih ⊢
    by_cases hstop : e.stop ≤ offset
    · rw [List.filter_cons_of_pos (by simpa using hstop),
        List.filter_cons_of_neg (by simpa using hstop), List.cons_append, ih]
    · -- the others end behind it
      have hnone : es.filter (fun f => f.stop ≤ offset) = [] := by
        refine List.filter_eq_nil_iff.mpr fun f hf hle => ?_
        have hlt := hfirst f hf
        have hse := f.start_le_stop
        have hle := of_decide_eq_true hle
        omega
      rw [hnone, List.nil_append] at ih
      rw [List.filter_cons_of_neg (by simpa using hstop), hnone, List.nil_append,
        List.filter_cons_of_pos (by simpa using hstop), ih]

theorem applyEdits_eq_weave {data : Bytes} {es : List Edit}
    (h : es.Pairwise fun a b => a.stop < b.start) (hin : ∀ e ∈ es, e.stop ≤ data.length) :
    applyEdits data es = weave data 0 (es.map onOctets) := by
  rw [(apart_of_separated h).applyEdits_eq hin, ascending_of_separated h]

theorem stop_le_of_mem_endedBy {old : Bytes} {es : List Edit} {offset : Nat}
    (h : offset ≤ old.length) {e : Edit} (he : e ∈ endedBy es offset) :
    e.stop ≤ (old.take offset).length := by
  rw [List.length_take, Nat.min_eq_left h]
  exact (mem_endedBy.mp he).2

end Edit

theorem length_upTo {old : Bytes} {es : List Edit} (h : es.Pairwise fun a b => a.stop < b.start)
    {offset : Nat} (hle : offset ≤ old.length) :
    ((upTo old es offset).length : Int) = Edit.landing es offset := by
  rw [upTo, Edit.length_applyEdits (Edit.separated_endedBy h offset)
    fun e he => Edit.stop_le_of_mem_endedBy hle he, List.length_take, Nat.min_eq_left hle,
    Edit.landing_endedBy]

/-- **At an offset that no edit encloses the new octets are divided.** -/
theorem applyEdits_split {old : Bytes} {es : List Edit}
    (h : es.Pairwise fun a b => a.stop < b.start) (hin : ∀ e ∈ es, e.stop ≤ old.length)
    {offset : Nat} (hle : offset ≤ old.length) (hfree : ∀ e ∈ es, ¬ e.Encloses offset) :
    applyEdits old es
      = upTo old es offset ++ weave old offset ((Edit.stillAt es offset).map Edit.onOctets) := by
  -- No edit goes over the offset: each has ended there, or has yet to start.
  have hended : ∀ p ∈ (Edit.endedBy es offset).map Edit.onOctets,
      p.start ≤ p.stop ∧ p.stop ≤ offset := by
    intro p hp
    obtain ⟨e, he, rfl⟩ := List.mem_map.mp hp
    exact ⟨e.start_le_stop, (Edit.mem_endedBy.mp he).2⟩
  have hstill : ∀ q ∈ (Edit.stillAt es offset).map Edit.onOctets, offset ≤ q.start := by
    intro q hq
    obtain ⟨e, he, rfl⟩ := List.mem_map.mp hq
    obtain ⟨he, hstop⟩ := Edit.mem_stillAt.mp he
    exact Nat.not_lt.mp fun hstart => hfree e he ⟨hstart, hstop⟩
  calc applyEdits old es
      = weave old 0 ((Edit.endedBy es offset ++ Edit.stillAt es offset).map Edit.onOctets) := by
        rw [Edit.endedBy_append_stillAt h, Edit.applyEdits_eq_weave h hin]
    _ = weave (old.take offset) 0 ((Edit.endedBy es offset).map Edit.onOctets)
          ++ weave old offset ((Edit.stillAt es offset).map Edit.onOctets) := by
        rw [List.map_append, weave_append old (Nat.zero_le offset) hended hstill]
    _ = _ := by
        rw [upTo, Edit.applyEdits_eq_weave (Edit.separated_endedBy h offset)
          fun e he => Edit.stop_le_of_mem_endedBy hle he]

/-- A front part of the new octets is divided in the same way. -/
theorem upTo_split {old : Bytes} {es : List Edit} (h : es.Pairwise fun a b => a.stop < b.start)
    {offset k : Nat} (hle : offset ≤ k) (hk : k ≤ old.length)
    (hfree : ∀ e ∈ es, ¬ e.Encloses offset) :
    upTo old es k = upTo old es offset
      ++ weave (old.take k) offset
          ((Edit.stillAt (Edit.endedBy es k) offset).map Edit.onOctets) := by
  have hlength : offset ≤ (old.take k).length := by
    rw [List.length_take, Nat.min_eq_left hk]
    exact hle
  -- the octets up to `k` are divided at `offset`, which no edit encloses
  have hsplit := applyEdits_split (Edit.separated_endedBy h k)
    (fun e he => Edit.stop_le_of_mem_endedBy hk he) hlength
    fun e he => hfree e (Edit.mem_endedBy.mp he).1
  have hfront : upTo (old.take k) (Edit.endedBy es k) offset = upTo old es offset := by
    rw [upTo, upTo, List.take_take, Nat.min_eq_left hle, Edit.endedBy_endedBy es hle]
  rw [← hfront]
  exact hsplit

/-! ### Ranges -/

/-- **Scattered edits may be listed in any order.** -/
theorem applyEdits_congr {es fs : List Edit} (h : Edit.Scattered es) (hperm : fs.Perm es)
    (data : Bytes) : applyEdits data fs = applyEdits data es := by
  rw [← (h.of_perm hperm).applyEdits_ascending, ← h.applyEdits_ascending,
    h.apart.ascending_congr hperm]

theorem upTo_ascending {es : List Edit} (h : Edit.Scattered es) (old : Bytes) (offset : Nat) :
    upTo old (Edit.ascending es) offset = upTo old es offset :=
  applyEdits_congr (h.filter _) ((Edit.ascending_perm es).filter _) (old.take offset)

/-- Where an end of a range lies: behind the front part that belongs to it. -/
theorem mapOffset_eq_length {old : Bytes} {es : List Edit} (h : Edit.Scattered es)
    (which : RangeEnd) {offset : Nat} (hle : Edit.snap which es offset ≤ old.length) :
    mapOffset offset which es = (upTo old es (Edit.snap which es offset)).length := by
  rw [mapOffset, Edit.mapOffsetFrom_eq h.separated, h.snap_ascending, ← upTo_ascending h,
    length_upTo h.separated hle, Int.add_zero]

/-- What the edits make of the old octets between two offsets. -/
def madeOf (old : Bytes) (es : List Edit) (start stop : Nat) : Bytes :=
  weave (old.take stop) start
    ((Edit.stillAt (Edit.endedBy (Edit.ascending es) stop) start).map Edit.onOctets)

/-- **The new octets begin with each front part.** -/
theorem exists_applyEdits_eq {old : Bytes} {es : List Edit} (h : Edit.Scattered es)
    (hin : ∀ e ∈ es, e.stop ≤ old.length) {offset : Nat} (hle : offset ≤ old.length)
    (hfree : ∀ e ∈ es, ¬ e.Encloses offset) :
    ∃ rest, applyEdits old es = upTo old es offset ++ rest := by
  have hmem : ∀ {e}, e ∈ Edit.ascending es ↔ e ∈ es := (Edit.ascending_perm es).mem_iff
  have hsplit := applyEdits_split h.separated (fun e he => hin e (hmem.mp he)) hle
    fun e he => hfree e (hmem.mp he)
  rw [h.applyEdits_ascending, upTo_ascending h] at hsplit
  exact ⟨_, hsplit⟩

/-- **One front part begins with another.** -/
theorem upTo_eq_append {old : Bytes} {es : List Edit} (h : Edit.Scattered es) {start stop : Nat}
    (hle : start ≤ stop) (hstop : stop ≤ old.length) (hfree : ∀ e ∈ es, ¬ e.Encloses start) :
    upTo old es stop = upTo old es start ++ madeOf old es start stop := by
  have hsplit := upTo_split h.separated hle hstop fun e he =>
    hfree e ((Edit.ascending_perm es).mem_iff.mp he)
  rwa [upTo_ascending h, upTo_ascending h] at hsplit

/-- Edits that have ended at the start, or have not ended at the end, leave the octets in between as
they are. -/
theorem madeOf_eq_slice (old : Bytes) {es : List Edit} {start stop : Nat}
    (h : ∀ e ∈ es, e.stop ≤ start ∨ stop < e.stop) :
    madeOf old es start stop = slice old start stop := by
  -- what has ended at `stop` has ended at `start`
  have hnone : Edit.stillAt (Edit.endedBy (Edit.ascending es) stop) start = [] := by
    rw [List.eq_nil_iff_forall_not_mem]
    intro e he
    obtain ⟨he, hstart⟩ := Edit.mem_stillAt.mp he
    obtain ⟨he, hend⟩ := Edit.mem_endedBy.mp he
    have hor := h e ((Edit.ascending_perm es).mem_iff.mp he)
    omega
  rw [madeOf, hnone, slice_natCast, ← List.drop_take]
  rfl

/-- The end of a range of the text is moved to an offset of the text. -/
theorem snap_last_le_length {old : Bytes} {es : List Edit} (hin : ∀ e ∈ es, e.stop ≤ old.length)
    {stop : Nat} (hstop : stop ≤ old.length) : Edit.snap .last es stop ≤ old.length := by
  rcases Edit.snap_cases .last es stop with ⟨heq, -⟩ | ⟨e, he, -, heq⟩
  · rwa [heq]
  · rw [heq]
    exact hin e he

/-- A part of a text, behind one front part of it and up to the end of another. -/
theorem slice_append (xs ys zs : Bytes) :
    slice (xs ++ ys ++ zs) (xs.length : Int) ((xs ++ ys).length : Int) = ys := by
  rw [slice_natCast, List.length_append, Nat.add_sub_cancel_left, List.append_assoc,
    List.drop_left, List.take_left]

/-- **A mapped range is measured by applying edits.** For edits that do not touch each other, in
any order, and a range of the old octets:

* an end of the range is moved to the side of the edit that encloses it, if one does; the mapped end
  is the length of what the edits that have ended there make of the old octets up to there;
* the mapped range lies in the new octets, and does not end before it starts;
* if every edit has ended where the range starts, or starts where the range ends or behind it and
  ends behind it, then the new octets have in the mapped range what the old ones had in the
  range. -/
theorem mapRange_measures {old : Bytes} {es : List Edit} (h : Edit.Scattered es)
    (hin : ∀ e ∈ es, e.stop ≤ old.length) {start stop : Nat} (hle : start ≤ stop)
    (hstop : stop ≤ old.length) :
    mapRange start stop es
        = (((upTo old es (Edit.snap .first es start)).length : Int),
            ((upTo old es (Edit.snap .last es stop)).length : Int)) ∧
      0 ≤ (mapRange start stop es).1 ∧ (mapRange start stop es).1 ≤ (mapRange start stop es).2 ∧
      (mapRange start stop es).2 ≤ (applyEdits old es).length ∧
      ((∀ e ∈ es, e.stop ≤ start ∨ stop ≤ e.start ∧ stop < e.stop) →
        slice (applyEdits old es) (mapRange start stop es).1 (mapRange start stop es).2
          = slice old start stop) := by
  -- where the ends of the range are moved to
  have hfirst := Edit.snap_first_le es start
  have hlast := Edit.le_snap_last es stop
  have hinside := snap_last_le_length hin hstop
  have hbefore : Edit.snap .first es start ≤ old.length := by omega
  have hmap : mapRange start stop es
      = (((upTo old es (Edit.snap .first es start)).length : Int),
          ((upTo old es (Edit.snap .last es stop)).length : Int)) := by
    rw [mapRange, mapOffset_eq_length h .first hbefore, mapOffset_eq_length h .last hinside]
  -- the new octets begin with both front parts, and one of these with the other
  obtain ⟨rest, hwhole⟩ := exists_applyEdits_eq h hin hinside (h.not_encloses_snap .last stop)
  have hfront := upTo_eq_append h (Nat.le_trans hfirst (Nat.le_trans hle hlast)) hinside
    (h.not_encloses_snap .first start)
  refine ⟨hmap, ?_, ?_, ?_, fun hkept => ?_⟩
  · rw [hmap]
    exact Int.natCast_nonneg _
  · rw [hmap, hfront, List.length_append]
    exact Int.ofNat_le.mpr (Nat.le_add_right _ _)
  · rw [hmap, hwhole, List.length_append]
    exact Int.ofNat_le.mpr (Nat.le_add_right _ _)
  · -- no edit encloses an end of the range
    have hsnap : Edit.snap .first es start = start := Edit.snap_of_free .first fun e he heo => by
      have hor := hkept e he
      unfold Edit.Encloses at heo
      omega
    have hsnap' : Edit.snap .last es stop = stop := Edit.snap_of_free .last fun e he heo => by
      have hor := hkept e he
      unfold Edit.Encloses at heo
      omega
    have hsame := madeOf_eq_slice old fun e he => (hkept e he).imp_right And.right
    rw [hsnap, hsnap'] at hmap hfront
    rw [hsnap', hfront] at hwhole
    rw [hmap, hfront, hwhole, slice_append, hsame]

/-- Edits of eight octets, in no order. One of them only inserts, and no two touch. -/
def Edit.strewn : List Edit :=
  [⟨5, 7, "xyz", by decide⟩, ⟨1, 1, "<<", by decide⟩, ⟨2, 3, "", by decide⟩]

theorem ascending_strewn :
    Edit.ascending Edit.strewn
      = [⟨1, 1, "<<", by decide⟩, ⟨2, 3, "", by decide⟩, ⟨5, 7, "xyz", by decide⟩] := by
  have hstarts : (Edit.strewn.map (·.start)).Nodup := by decide
  exact Edit.eq_of_perm_of_sorted
    (((Edit.ascending_perm _).map (·.start)).nodup_iff.mpr hstarts)
    ((Edit.ascending_perm _).trans (by decide)) (Edit.ascending_sorted _) (by decide)

/-- A range that ends in an edit is measured up to the end of it, and one between edits is found
again. -/
theorem strewn_measures :
    Edit.Scattered Edit.strewn ∧
      (∀ e ∈ Edit.strewn, e.stop ≤ (Utf8.ofString "abcdefgh").length) ∧
      mapRange (3 : Nat) (6 : Nat) Edit.strewn = (4, 9) ∧
      (upTo (Utf8.ofString "abcdefgh") Edit.strewn 7).length = 9 ∧
      mapRange (3 : Nat) (5 : Nat) Edit.strewn = (4, 6) ∧
      slice (applyEdits (Utf8.ofString "abcdefgh") Edit.strewn) 4 6 = Utf8.ofString "de" := by
  have hscattered : Edit.Scattered Edit.strewn := by
    unfold Edit.Scattered Edit.Clears Edit.strewn
    decide
  have hin : ∀ e ∈ Edit.strewn, e.stop ≤ (Utf8.ofString "abcdefgh").length := by
    decide +kernel
  have hlength : (6 : Nat) ≤ (Utf8.ofString "abcdefgh").length := by decide +kernel
  have hmoved : mapRange (3 : Nat) (6 : Nat) Edit.strewn = (4, 9) := by
    rw [mapRange, mapOffset, mapOffset, ascending_strewn]
    decide +kernel
  have hkept : mapRange (3 : Nat) (5 : Nat) Edit.strewn = (4, 6) := by
    rw [mapRange, mapOffset, mapOffset, ascending_strewn]
    decide +kernel
  obtain ⟨hends, -⟩ := mapRange_measures hscattered hin (show 3 ≤ 6 by decide) hlength
  obtain ⟨-, -, -, -, hfound⟩ := mapRange_measures hscattered hin (show 3 ≤ 5 by decide)
    (Nat.le_of_succ_le hlength)
  refine ⟨hscattered, hin, hmoved, ?_, hkept, ?_⟩
  · -- the end of the range is moved to the end of the edit
    have hsnap : Edit.snap .last Edit.strewn 6 = 7 := by decide
    rw [hmoved, hsnap] at hends
    exact Int.ofNat_inj.mp (congrArg Prod.snd hends).symm
  · rw [hkept] at hfound
    exact (hfound (by decide)).trans (by decide +kernel)

end Lintel
