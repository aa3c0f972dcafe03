import Lintel.Proofs.Edit.Splice
import Mathlib.Algebra.Ring.Nat

/-!
# Relations that edits respect

Much of what can be said about edited octets has one form: if every edit replaces octets by others
that stand in some relation to them, then so does the whole. The octets that matter are the same;
so many brackets are gone; something has become less. `Graded` collects what such a relation must
have. It carries a number, which adds up over parts that stand side by side and over changes that
follow each other.

`Graded.applyEdits` is the statement for a list of edits that are apart from each other. As they
are given from the left to the right, applying them comes down to a recursion (`applyEdits_cons`):
the first edit is applied to what the others have left, and to the left of the others the octets
are still the old ones (`take_applyEdits`).
-/

namespace Lintel

namespace Edit

/-- The edit takes away exactly the octets `old`. -/
def Replaces (bs : Bytes) (e : Edit) (old : Bytes) : Prop :=
  ∃ before after, bs = before ++ old ++ after ∧ e.start = before.length ∧
    e.stop = before.length + old.length

theorem Replaces.stop_le {bs old : Bytes} {e : Edit} (h : Replaces bs e old) :
    e.stop ≤ bs.length := by
  obtain ⟨before, after, rfl, -, hstop⟩ := h
  rw [List.length_append, List.length_append]
  omega

/-- Octets that agree with the old ones up to the end of an edit hold what it replaces. -/
theorem Replaces.splice_eq {bs data old : Bytes} {e : Edit} (h : Replaces bs e old)
    (hdata : data.take e.stop = bs.take e.stop) :
    ∃ before after, data = before ++ old ++ after ∧
      splice data e = before ++ e.octets ++ after := by
  obtain ⟨before, after, rfl, hstart, hstop⟩ := h
  -- the part up to the end of the edit
  have hlen : (before ++ old).length = e.stop := by
    rw [List.length_append, hstop]
  have htaken : data.take e.stop = before ++ old := by
    rw [hdata, ← hlen, List.take_left]
  have hwhole : data = before ++ old ++ data.drop e.stop := by
    rw [← htaken, List.take_append_drop]
  -- the part up to its start
  have hleft : data.take e.start = before := by
    have hse := e.start_le_stop
    have hcut := congrArg (List.take e.start) htaken
    rw [List.take_take, Nat.min_eq_left hse, hstart, List.take_left, ← hstart] at hcut
    exact hcut
  refine ⟨before, data.drop e.stop, hwhole, ?_⟩
  rw [splice, hleft]

/-- Edits that are apart from each other and given from the left to the right are applied in the
reverse order. -/
theorem descending_of_separated {es : List Edit}
    (h : es.Pairwise fun a b => a.stop < b.start) : descending es = es.reverse := by
  have hperm : (descending es).Perm es.reverse :=
    (List.mergeSort_perm es _).trans (List.reverse_perm es).symm
  -- no two edits can lie to the left of each other
  have hasymm : ∀ a b : Edit, a ∈ descending es → b ∈ es.reverse →
      b.stop < a.start → a.stop < b.start → a = b := by
    intro a b _ _ hab hba
    have ha := a.start_le_stop
    have hb := b.start_le_stop
    omega
  exact List.Perm.eq_of_pairwise hasymm (pairwise_descending h) (List.pairwise_reverse.mpr h) hperm

end Edit

@[simp] theorem applyEdits_nil (bs : Bytes) : applyEdits bs [] = bs := by
  rw [applyEdits, Edit.descending, List.mergeSort_nil, List.foldl_nil]

/-- **The first edit is applied last.** -/
theorem applyEdits_cons {e : Edit} {es : List Edit}
    (h : (e :: es).Pairwise fun a b => a.stop < b.start) (bs : Bytes) :
    applyEdits bs (e :: es) = Edit.splice (applyEdits bs es) e := by
  have htail := (List.pairwise_cons.mp h).2
  rw [applyEdits, applyEdits, Edit.descending_of_separated h, Edit.descending_of_separated htail,
    List.reverse_cons, List.foldl_append, List.foldl_cons, List.foldl_nil]

theorem take_applyEdits {bs : Bytes} {es : List Edit}
    (h : es.Pairwise fun a b => a.stop < b.start) {q : Nat} (hq : q ≤ bs.length)
    (hes : ∀ e ∈ es, q ≤ e.start ∧ e.stop ≤ bs.length) :
    (applyEdits bs es).take q = bs.take q := by
  induction es generalizing q with
  | nil => rw [applyEdits_nil]
  | cons e es ih =>
    rw [List.pairwise_cons] at h
    obtain ⟨hqe, hstop⟩ := hes e List.mem_cons_self
    have hse := e.start_le_stop
    -- the other edits leave everything up to the end of this one alone
    have hrest : (applyEdits bs es).take e.stop = bs.take e.stop := by
      refine ih h.2 hstop fun f hf => ⟨?_, (hes f (List.mem_cons_of_mem _ hf)).2⟩
      have hlt := h.1 f hf
      omega
    have hsame : (Edit.splice (applyEdits bs es) e).take e.start = bs.take e.start :=
      Edit.take_splice hrest hse (by omega)
    rw [applyEdits_cons (List.pairwise_cons.mpr h)]
    have hcut := congrArg (List.take q) hsame
    rwa [List.take_take, List.take_take, Nat.min_eq_left hqe] at hcut

/-! ### Graded relations -/

/-- A relation between old and new octets, with a number that says how much has happened. -/
structure Graded (R : Nat → Bytes → Bytes → Prop) : Prop where
  same : ∀ bs, R 0 bs bs
  /-- Something has happened in two parts that stand side by side. -/
  join : ∀ {m n : Nat} {a a' b b' : Bytes}, R m a a' → R n b b' → R (m + n) (a ++ b) (a' ++ b')
  /-- Something has happened, and then something else. -/
  follow : ∀ {m n : Nat} {a b c : Bytes}, R m a b → R n b c → R (m + n) a c

variable {R : Nat → Bytes → Bytes → Prop}

/-- One edit of octets that agree with the old ones up to its end. -/
theorem Graded.splice (hR : Graded R) {bs data old : Bytes} {e : Edit} {n : Nat}
    (h : e.Replaces bs old) (hdata : data.take e.stop = bs.take e.stop)
    (hn : R n old e.octets) : R n data (Edit.splice data e) := by
  obtain ⟨before, after, hwhole, hnew⟩ := h.splice_eq hdata
  -- what stands before and after the edit is the same
  have hjoin := hR.join (hR.join (hR.same before) hn) (hR.same after)
  rw [Nat.zero_add, Nat.add_zero, ← hwhole] at hjoin
  rwa [hnew]

/-- **Edits respect a graded relation.** The edits are given from the left to the right, each with
the number for what it replaces; the number for the whole is their sum. -/
theorem Graded.applyEdits (hR : Graded R) {bs : Bytes} {es : List (Nat × Edit)}
    (hes : (es.map (·.2)).Pairwise fun a b => a.stop < b.start)
    (h : ∀ p ∈ es, ∃ old, p.2.Replaces bs old ∧ R p.1 old p.2.octets) :
    R (es.map (·.1)).sum bs (Lintel.applyEdits bs (es.map (·.2))) := by
  induction es with
  | nil =>
    rw [List.map_nil, List.map_nil, applyEdits_nil]
    exact hR.same bs
  | cons p es ih =>
    rw [List.map_cons] at hes
    have htail := List.pairwise_cons.mp hes
    obtain ⟨old, hold, hn⟩ := h p List.mem_cons_self
    have hrest := ih htail.2 fun q hq => h q (List.mem_cons_of_mem _ hq)
    -- the other edits lie to the right of this one
    have hkept : (Lintel.applyEdits bs (es.map (·.2))).take p.2.stop = bs.take p.2.stop := by
      refine take_applyEdits htail.2 hold.stop_le fun f hf => ?_
      have hlt := htail.1 f hf
      obtain ⟨q, hq, rfl⟩ := List.mem_map.mp hf
      obtain ⟨old', hold', -⟩ := h q (List.mem_cons_of_mem _ hq)
      exact ⟨by omega, hold'.stop_le⟩
    rw [List.map_cons, List.map_cons, applyEdits_cons hes, List.sum_cons, Nat.add_comm]
    exact hR.follow hrest (hR.splice hold hkept hn)

end Lintel
