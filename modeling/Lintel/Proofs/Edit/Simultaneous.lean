import Lintel.Proofs.Edit.Splice
import Mathlib.Data.List.Nodup
import Mathlib.Data.List.Sort

/-!
# Edits are applied at once

`applyEdits` changes a list of octets in place, one edit after the other. Each edit is given by
offsets of the old octets, although it meets octets that others have changed. This module says
that nothing of this order is left in the outcome.

`weave` is the same change without an order: it goes through the old elements once, from the left
to the right, copies what lies between the edits, and puts the new elements in between. Edits that
are **apart** (`Edit.Apart`: no two start at the same offset, and each ends before the next one
starts or where it starts) come to the same either way (`applyEdits_eq_weave`). The order of the
list does not matter, because such edits have only one order by their starts (`ascending_congr`).

`weave` is stated for lists of any kind, so it can also be read as a change of characters. If the
octets are text and no edit cuts a character, then the new octets are those of the characters woven
in the same way (`encode_weave`).

**How.** The edits are applied from the last to the first. When an edit is applied, the octets up
to its end are still the old ones, and those behind it have been woven already (`foldr_splice`).
-/

namespace Lintel

/-- Other elements in the place of a part of a list. -/
structure Patch (α : Type) where
  start : Nat
  stop : Nat
  new : List α
  deriving DecidableEq, Repr

/-- The elements from an offset on, with patches in the order of their starts: the elements up to
the first patch, what it puts in their place, and the same again from its end on. -/
def weave {α : Type} (old : List α) : Nat → List (Patch α) → List α
  | offset, [] => old.drop offset
  | offset, p :: ps =>
    (old.drop offset).take (p.start - offset) ++ p.new ++ weave old p.stop ps

namespace Edit

def onOctets (e : Edit) : Patch UInt8 := ⟨e.start, e.stop, e.octets⟩

/-- Edits with different starts, each of which ends at the start of the next one or before it. -/
structure Apart (es : List Edit) : Prop where
  starts : (es.map (·.start)).Nodup
  stops : (ascending es).IsChain fun a b => a.stop ≤ b.start

/-! ### The order of the edits -/

/-- The first starts before the second, and has ended when the second starts. -/
def Precedes (a b : Edit) : Prop := a.start < b.start ∧ a.stop ≤ b.start

theorem ascending_perm (es : List Edit) : (ascending es).Perm es :=
  List.mergeSort_perm es _

theorem ascending_sorted (es : List Edit) :
    (ascending es).Pairwise fun a b => a.start ≤ b.start :=
  List.pairwise_mergeSort' (Order.Preimage Edit.start (· ≤ ·)) es

theorem descending_sorted (es : List Edit) :
    (descending es).Pairwise fun a b => b.start ≤ a.start :=
  List.pairwise_mergeSort' (Order.Preimage Edit.start (· ≥ ·)) es

theorem Apart.precedes {es : List Edit} (h : Apart es) : (ascending es).Pairwise Precedes := by
  -- each ends before the next one, and an edit does not end before it starts
  have htrans : ∀ a b c : Edit, a.stop ≤ b.start → b.stop ≤ c.start → a.stop ≤ c.start := by
    intro a b c hab hbc
    have hb := b.start_le_stop
    omega
  let _ : Trans (fun a b : Edit => a.stop ≤ b.start) (fun a b : Edit => a.stop ≤ b.start)
      (fun a b : Edit => a.stop ≤ b.start) := ⟨fun hab hbc => htrans _ _ _ hab hbc⟩
  have hstops : (ascending es).Pairwise fun a b => a.stop ≤ b.start := h.stops.pairwise
  have hstarts : (ascending es).Pairwise fun a b => a.start ≠ b.start := by
    have hnodup := ((ascending_perm es).map (·.start)).nodup_iff.mpr h.starts
    exact List.pairwise_map.mp hnodup
  refine ((ascending_sorted es).and (hstarts.and hstops)).imp ?_
  rintro a b ⟨hle, hne, hstop⟩
  exact ⟨Nat.lt_of_le_of_ne hle hne, hstop⟩

theorem eq_of_perm_of_sorted {es fs : List Edit} (hstarts : (es.map (·.start)).Nodup)
    (hperm : es.Perm fs) (hes : es.Pairwise fun a b => a.start ≤ b.start)
    (hfs : fs.Pairwise fun a b => a.start ≤ b.start) : es = fs := by
  refine List.Perm.eq_of_pairwise (fun a b ha hb hab hba => ?_) hes hfs hperm
  exact List.inj_on_of_nodup_map hstarts ha (hperm.mem_iff.mpr hb) (Nat.le_antisymm hab hba)

/-- **Edits that are apart may be listed in any order.** -/
theorem Apart.ascending_congr {es fs : List Edit} (h : Apart es) (hperm : fs.Perm es) :
    ascending fs = ascending es := by
  have hsame : (ascending fs).Perm (ascending es) :=
    (ascending_perm fs).trans (hperm.trans (ascending_perm es).symm)
  have hstarts : ((ascending fs).map (·.start)).Nodup :=
    (((ascending_perm fs).trans hperm).map (·.start)).nodup_iff.mpr h.starts
  exact eq_of_perm_of_sorted hstarts hsame (ascending_sorted fs) (ascending_sorted es)

theorem Apart.of_perm {es fs : List Edit} (h : Apart es) (hperm : fs.Perm es) : Apart fs where
  starts := (hperm.map (·.start)).nodup_iff.mpr h.starts
  stops := by
    rw [h.ascending_congr hperm]
    exact h.stops

/-- **Edits that are apart are applied in the reverse order of their starts.** -/
theorem Apart.descending_eq {es : List Edit} (h : Apart es) :
    descending es = (ascending es).reverse := by
  -- with different starts there is one order by starts, so the two reverse each other
  have hsame : (descending es).reverse.Perm (ascending es) :=
    (List.reverse_perm _).trans ((List.mergeSort_perm es _).trans (ascending_perm es).symm)
  have hstarts : ((descending es).reverse.map (·.start)).Nodup :=
    ((hsame.trans (ascending_perm es)).map (·.start)).nodup_iff.mpr h.starts
  have hsorted : (descending es).reverse.Pairwise fun a b => a.start ≤ b.start := by
    rw [List.pairwise_reverse]
    exact descending_sorted es
  rw [← eq_of_perm_of_sorted hstarts hsame hsorted (ascending_sorted es), List.reverse_reverse]

/-! ### One edit after the other -/

/-- **The edits from the last to the first.** Up to any offset that none of them reaches the octets
are the old ones, and from there on they have been woven. -/
theorem foldr_splice {data : Bytes} {es : List Edit} (hes : es.Pairwise Precedes)
    (hin : ∀ e ∈ es, e.stop ≤ data.length) {offset : Nat} (hoffset : offset ≤ data.length)
    (hle : ∀ e ∈ es, offset ≤ e.start) :
    (es.foldr (fun e bs => splice bs e) data).take offset = data.take offset ∧
      (es.foldr (fun e bs => splice bs e) data).drop offset
        = weave data offset (es.map onOctets) := by
  induction es generalizing offset with
  | nil => exact ⟨rfl, rfl⟩
  | cons e es ih =>
    obtain ⟨hfirst, hrest⟩ := List.pairwise_cons.mp hes
    have hstart : offset ≤ e.start := hle e List.mem_cons_self
    have hstop : e.stop ≤ data.length := hin e List.mem_cons_self
    have hse := e.start_le_stop
    -- what the other edits have done lies behind the end of this one
    obtain ⟨hkept, hwoven⟩ := ih hrest (fun f hf => hin f (List.mem_cons_of_mem _ hf)) hstop
      fun f hf => (hfirst f hf).2
    rw [List.foldr_cons]
    generalize es.foldr (fun e bs => splice bs e) data = bs at hkept hwoven ⊢
    have hfront : bs.take e.start = data.take e.start := by
      calc bs.take e.start = (bs.take e.stop).take e.start := by
            rw [List.take_take, Nat.min_eq_left hse]
        _ = (data.take e.stop).take e.start := by rw [hkept]
        _ = data.take e.start := by rw [List.take_take, Nat.min_eq_left hse]
    have hlength : (data.take e.start).length = e.start := by
      rw [List.length_take]
      omega
    have hsplice : splice bs e
        = data.take e.start ++ (e.octets ++ weave data e.stop (es.map onOctets)) := by
      rw [splice, hfront, hwoven, List.append_assoc]
    constructor
    · -- Before the edit nothing has changed.
      rw [hsplice, List.take_append_of_le_length (by omega), List.take_take,
        Nat.min_eq_left hstart]
    · -- the gap before the edit is what is left of the front
      have hgap : (data.take e.start).drop offset = (data.drop offset).take (e.start - offset) :=
        List.drop_take
      rw [hsplice, List.drop_append_of_le_length (by omega), hgap, List.map_cons, weave,
        List.append_assoc]
      rfl

/-- Applying edits that are apart comes to weaving them in. -/
theorem Apart.applyEdits_eq {es : List Edit} (h : Apart es) {data : Bytes}
    (hin : ∀ e ∈ es, e.stop ≤ data.length) :
    applyEdits data es = weave data 0 ((ascending es).map onOctets) := by
  have hin' : ∀ e ∈ ascending es, e.stop ≤ data.length := fun e he =>
    hin e ((ascending_perm es).mem_iff.mp he)
  have hwoven := (foldr_splice h.precedes hin' (Nat.zero_le _) fun _ _ => Nat.zero_le _).2
  rw [applyEdits, h.descending_eq, List.foldl_reverse, ← hwoven, List.drop_zero]

end Edit

/-! ### Characters -/

namespace Utf8

/-- The number of characters that the first octets of a text hold. -/
def charsWithin (bs : Bytes) (k : Nat) : Nat := (decodeSkipping (bs.take k)).length

@[simp] theorem decodeSkipping_encode (cs : List Char) : decodeSkipping (encode cs) = cs := by
  induction cs with
  | nil => rfl
  | cons c cs ih =>
    rw [decodeSkipping] at ih
    rw [decodeSkipping, encode_cons, pieces_encodeChar, List.filterMap_cons]
    simp only [ih]

/-- A boundary of a text lies behind some of its characters. -/
theorem take_charsWithin {cs : List Char} {k : Nat} (h : Boundary (encode cs) k) :
    (encode cs).take k = encode (cs.take (charsWithin (encode cs) k)) ∧
      (encode cs).drop k = encode (cs.drop (charsWithin (encode cs) k)) := by
  obtain ⟨hk, ds, hds⟩ := h
  have hsplit : encode cs = encode ds ++ (encode cs).drop k := by
    rw [hds, List.take_append_drop]
  obtain ⟨es, rfl, hes⟩ := exists_append_of_encode_eq hsplit
  -- the octets before the boundary are those of whole characters, which are counted
  have hcount : charsWithin (encode (ds ++ es)) k = ds.length := by
    rw [charsWithin, ← hds, decodeSkipping_encode]
  rw [hcount, List.take_left, List.drop_left]
  exact ⟨hds.symm, hes.symm⟩

/-- What lies between two boundaries of a text is made of the characters between them. -/
theorem take_drop_charsWithin {cs : List Char} {p k : Nat} (hp : Boundary (encode cs) p)
    (hk : Boundary (encode cs) k) (hpk : p ≤ k) :
    ((encode cs).drop p).take (k - p)
      = encode ((cs.drop (charsWithin (encode cs) p)).take
          (charsWithin (encode cs) k - charsWithin (encode cs) p)) := by
  have hfront := (take_charsWithin hk).1
  -- the first boundary is one of the characters up to the second as well
  have hsame : (encode (cs.take (charsWithin (encode cs) k))).take p = (encode cs).take p := by
    rw [← hfront, List.take_take, Nat.min_eq_left hpk]
  have hp' : Boundary (encode (cs.take (charsWithin (encode cs) k))) p := by
    refine ⟨?_, ?_⟩
    · rw [← hfront, List.length_take]
      exact Nat.le_min.mpr ⟨hpk, hp.1⟩
    · rw [hsame]
      exact hp.2
  have hcount : charsWithin (encode (cs.take (charsWithin (encode cs) k))) p
      = charsWithin (encode cs) p := by
    rw [charsWithin, hsame, charsWithin]
  have hbehind := (take_charsWithin hp').2
  rw [hcount, List.drop_take] at hbehind
  rw [← List.drop_take, hfront, hbehind]

end Utf8

namespace Edit

/-- An edit of octets as a patch of the characters that they are made of. -/
def onChars (bs : Bytes) (e : Edit) : Patch Char :=
  ⟨Utf8.charsWithin bs e.start, Utf8.charsWithin bs e.stop, e.replacement.toList⟩

/-- **Weaving octets between characters is weaving characters.** -/
theorem encode_weave {cs : List Char} {es : List Edit} (hes : es.Pairwise Precedes)
    (hb : ∀ e ∈ es, Boundary (Utf8.encode cs) e.start ∧ Boundary (Utf8.encode cs) e.stop)
    {offset : Nat} (hoffset : Boundary (Utf8.encode cs) offset)
    (hle : ∀ e ∈ es, offset ≤ e.start) :
    Utf8.encode (weave cs (Utf8.charsWithin (Utf8.encode cs) offset)
        (es.map (onChars (Utf8.encode cs))))
      = weave (Utf8.encode cs) offset (es.map onOctets) := by
  induction es generalizing offset with
  | nil => exact (Utf8.take_charsWithin hoffset).2.symm
  | cons e es ih =>
    obtain ⟨hfirst, hrest⟩ := List.pairwise_cons.mp hes
    obtain ⟨hstart, hstop⟩ := hb e List.mem_cons_self
    have hgap := Utf8.take_drop_charsWithin hoffset hstart (hle e List.mem_cons_self)
    -- the rest begins where this edit ends
    have hwoven := ih hrest (fun f hf => hb f (List.mem_cons_of_mem _ hf)) hstop
      fun f hf => (hfirst f hf).2
    rw [List.map_cons, List.map_cons, weave, weave, Utf8.encode_append, Utf8.encode_append]
    simp only [onChars, onOctets] at hwoven ⊢
    rw [hwoven, hgap]
    rfl

end Edit

/-! ### All at once -/

/-- **Edits that are apart are applied at once.** The new octets are the gaps between the edits and
the replacements, from the left to the right, in whatever order the edits are listed. If the old
octets are text and no edit cuts a character, the new octets are the text in which the characters
are replaced in the same way. -/
theorem applyEdits_at_once {data : Bytes} {es : List Edit} (h : Edit.Apart es)
    (hin : ∀ e ∈ es, e.stop ≤ data.length) :
    applyEdits data es = weave data 0 ((Edit.ascending es).map Edit.onOctets) ∧
      (∀ fs : List Edit, fs.Perm es → applyEdits data fs = applyEdits data es) ∧
      ∀ cs, Utf8.decode data = .ok cs →
        (∀ e ∈ es, Boundary data e.start ∧ Boundary data e.stop) →
        Utf8.decode (applyEdits data es)
          = .ok (weave cs 0 ((Edit.ascending es).map (Edit.onChars data))) := by
  have hwoven := h.applyEdits_eq hin
  refine ⟨hwoven, ?_, ?_⟩
  · -- the order by starts does not depend on how the edits are listed
    intro fs hperm
    have hin' : ∀ e ∈ fs, e.stop ≤ data.length := fun e he => hin e (hperm.mem_iff.mp he)
    rw [(h.of_perm hperm).applyEdits_eq hin', h.ascending_congr hperm, hwoven]
  · -- weaving octets is the image of weaving characters, as no boundary cuts one
    intro cs hcs hb
    obtain rfl : Utf8.encode cs = data := Utf8.encode_of_decode hcs
    have hb' : ∀ e ∈ Edit.ascending es,
        Boundary (Utf8.encode cs) e.start ∧ Boundary (Utf8.encode cs) e.stop := fun e he =>
      hb e ((Edit.ascending_perm es).mem_iff.mp he)
    have hfirst : Boundary (Utf8.encode cs) 0 := ⟨Nat.zero_le _, [], rfl⟩
    have hchars := Edit.encode_weave h.precedes hb' hfirst fun _ _ => Nat.zero_le _
    have hzero : Utf8.charsWithin (Utf8.encode cs) 0 = 0 := rfl
    rw [hwoven, ← hchars, hzero, Utf8.decode_encode]

/-- Edits of the text `aéb日c`, in no order. One inserts at its start, and three touch. -/
def Edit.touching : List Edit :=
  [⟨4, 7, "xy", by decide⟩, ⟨0, 0, "<", by decide⟩, ⟨1, 3, "", by decide⟩, ⟨3, 4, "ß", by decide⟩]

/-- Edits that touch are applied at once, and the characters are replaced as the octets are. -/
theorem touching_at_once :
    Edit.Apart Edit.touching ∧
      (∀ e ∈ Edit.touching, Boundary (Utf8.ofString "aéb日c") e.start ∧
        Boundary (Utf8.ofString "aéb日c") e.stop) ∧
      applyEdits (Utf8.ofString "aéb日c") Edit.touching.reverse = Utf8.ofString "<aßxyc" ∧
      Utf8.decode (applyEdits (Utf8.ofString "aéb日c") Edit.touching)
        = .ok ['<', 'a', 'ß', 'x', 'y', 'c'] := by
  have hstarts : (Edit.touching.map (·.start)).Nodup := by decide
  -- Sorting is not computed: the starts differ, so that the order is the only one.
  have hsorted : Edit.ascending Edit.touching
      = [⟨0, 0, "<", by decide⟩, ⟨1, 3, "", by decide⟩, ⟨3, 4, "ß", by decide⟩,
          ⟨4, 7, "xy", by decide⟩] :=
    Edit.eq_of_perm_of_sorted
      (((Edit.ascending_perm _).map (·.start)).nodup_iff.mpr hstarts)
      ((Edit.ascending_perm _).trans (by decide)) (Edit.ascending_sorted _) (by decide)
  have hapart : Edit.Apart Edit.touching := by
    refine ⟨hstarts, ?_⟩
    rw [hsorted]
    decide
  -- The edits stand on boundaries of characters of two and three octets.
  have hb : ∀ e ∈ Edit.touching, Boundary (Utf8.ofString "aéb日c") e.start ∧
      Boundary (Utf8.ofString "aéb日c") e.stop := by
    simp only [Edit.touching, List.forall_mem_cons]
    exact ⟨⟨⟨by decide, ['a', 'é', 'b'], rfl⟩, ⟨by decide, ['a', 'é', 'b', '日'], rfl⟩⟩,
      ⟨⟨by decide, [], rfl⟩, ⟨by decide, [], rfl⟩⟩,
      ⟨⟨by decide, ['a'], rfl⟩, ⟨by decide, ['a', 'é'], rfl⟩⟩,
      ⟨⟨by decide, ['a', 'é'], rfl⟩, ⟨by decide, ['a', 'é', 'b'], rfl⟩⟩, fun _ h => nomatch h⟩
  have hin : ∀ e ∈ Edit.touching, e.stop ≤ (Utf8.ofString "aéb日c").length := fun e he =>
    (hb e he).2.1
  obtain ⟨hwoven, hperm, hchars⟩ := applyEdits_at_once hapart hin
  refine ⟨hapart, hb, ?_, ?_⟩
  · rw [hperm _ (List.reverse_perm _), hwoven, hsorted]
    decide +kernel
  · rw [hchars ['a', 'é', 'b', '日', 'c'] (Utf8.decode_encode _) hb, hsorted]
    decide +kernel

end Lintel
