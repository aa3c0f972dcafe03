import Lintel.Edit
import Lintel.Proofs.Text.Utf8

/-!
# Edits that keep text text

Edits refer to octets, and octets between two characters are not told apart from octets inside of
one. If an edit starts or ends inside a character, what it leaves of the character need not be text
any more. `isText_applyEdits` says that this is the only danger: edits that are apart from each
other and **begin and end between characters** turn text into text.

The edits are applied from the right to the left. The invariant is that to the left of the edit
applied last the octets are still the old ones, so that the next edit meets the boundaries it was
made for.
-/

namespace Lintel

/-- An offset between two characters of a text, or at one of its ends. -/
def Boundary (bs : Bytes) (k : Nat) : Prop :=
  k ≤ bs.length ∧ Utf8.IsText (bs.take k)

namespace Edit

/-- The edit begins or ends inside a character. -/
def Cuts (bs : Bytes) (e : Edit) : Prop :=
  ¬ (Boundary bs e.start ∧ Boundary bs e.stop)

/-- Of two edits in the order in which they are applied, the second ends before the first starts,
provided that they are apart from each other. -/
theorem pairwise_descending {es : List Edit} (h : es.Pairwise fun a b => a.stop < b.start) :
    (descending es).Pairwise fun a b => b.stop < a.start := by
  have hperm : (descending es).Perm es := List.mergeSort_perm es _
  have hapart : (descending es).Pairwise fun a b => a.stop < b.start ∨ b.stop < a.start :=
    (hperm.pairwise_iff fun hab => hab.symm).mpr (h.imp fun hab => .inl hab)
  have hsorted : (descending es).Pairwise fun a b => decide (b.start ≤ a.start) = true := by
    refine List.pairwise_mergeSort (fun a b c hab hbc => ?_) (fun a b => ?_) es
    · simp only [decide_eq_true_eq] at hab hbc ⊢
      omega
    · simp only [Bool.or_eq_true, decide_eq_true_eq]
      omega
  -- An edit that lies behind another one cannot start before it.
  refine (hapart.and hsorted).imp fun {a b} hab => ?_
  obtain ⟨hor, hle⟩ := hab
  rw [decide_eq_true_eq] at hle
  have ha := a.start_le_stop
  rcases hor with hlt | hlt
  · omega
  · exact hlt

theorem take_splice {bs data : Bytes} {e : Edit} {q : Nat} (hq : data.take q = bs.take q)
    (hle : e.start ≤ q) (hb : e.start ≤ bs.length) :
    (splice data e).take e.start = bs.take e.start := by
  -- up to the start of the edit the data is not touched yet
  have hleft : data.take e.start = bs.take e.start := by
    have hcut := congrArg (List.take e.start) hq
    rwa [List.take_take, List.take_take, Nat.min_eq_left hle] at hcut
  have hlen : (bs.take e.start).length = e.start := by
    rw [List.length_take]
    exact Nat.min_eq_left hb
  rw [splice, hleft, List.append_assoc, List.take_append_of_le_length (Nat.le_of_eq hlen.symm),
    List.take_of_length_le (Nat.le_of_eq hlen)]

theorem isText_splice {bs data : Bytes} {e : Edit} {q : Nat} (hdata : Utf8.IsText data)
    (hq : data.take q = bs.take q) (hle : e.stop ≤ q) (hstart : Boundary bs e.start)
    (hstop : Boundary bs e.stop) : Utf8.IsText (splice data e) := by
  -- Up to `q` nothing was changed, and there the edit lies.
  have hsame : ∀ k, k ≤ q → data.take k = bs.take k := by
    intro k hk
    have hcut := congrArg (List.take k) hq
    rwa [List.take_take, List.take_take, Nat.min_eq_left hk] at hcut
  have hse := e.start_le_stop
  have hleft : Utf8.IsText (data.take e.start) := by
    rw [hsame e.start (by omega)]
    exact hstart.2
  have hright : Utf8.IsText (data.drop e.stop) := by
    have hwhole : Utf8.IsText (data.take e.stop ++ data.drop e.stop) := by
      rwa [List.take_append_drop]
    refine hwhole.of_append_left ?_
    rw [hsame e.stop hle]
    exact hstop.2
  exact (hleft.append (Utf8.isText_ofString _)).append hright

/-- The edits still to be applied lie where the octets are the old ones. -/
theorem isText_foldl_splice {bs : Bytes} {es : List Edit}
    (hes : es.Pairwise fun a b => b.stop < a.start)
    (hb : ∀ e ∈ es, Boundary bs e.start ∧ Boundary bs e.stop) :
    ∀ (data : Bytes) (q : Nat), Utf8.IsText data → data.take q = bs.take q →
      (∀ e ∈ es, e.stop ≤ q) → Utf8.IsText (es.foldl splice data) := by
  -- From the last edit to the first: what is still to be edited ends before the edit just made.
  induction es with
  | nil => exact fun data q hdata _ _ => hdata
  | cons e es ih =>
    intro data q hdata hq hle
    obtain ⟨hstart, hstop⟩ := hb e List.mem_cons_self
    have hse := e.start_le_stop
    have heq := hle e List.mem_cons_self
    rw [List.pairwise_cons] at hes
    rw [List.foldl_cons]
    refine ih hes.2 (fun f hf => hb f (List.mem_cons_of_mem _ hf)) (splice data e) e.start ?_ ?_ ?_
    · exact isText_splice hdata hq heq hstart hstop
    · exact take_splice hq (by omega) hstart.1
    · intro f hf
      have hlt := hes.1 f hf
      omega

end Edit

/-- **Edits between characters turn text into text.** -/
theorem isText_applyEdits {bs : Bytes} {es : List Edit} (hbs : Utf8.IsText bs)
    (hes : es.Pairwise fun a b => a.stop < b.start)
    (hb : ∀ e ∈ es, Boundary bs e.start ∧ Boundary bs e.stop) :
    Utf8.IsText (applyEdits bs es) := by
  have hperm : (Edit.descending es).Perm es := List.mergeSort_perm es _
  have hb' : ∀ e ∈ Edit.descending es, Boundary bs e.start ∧ Boundary bs e.stop := fun e he =>
    hb e (hperm.mem_iff.mp he)
  exact Edit.isText_foldl_splice (Edit.pairwise_descending hes) hb' bs bs.length hbs rfl
    fun e he => (hb' e he).2.1

end Lintel
